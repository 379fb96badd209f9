import ProofSheet.Proofs.CursorPlacement
import ProofSheet.Proofs.Stages

set_option autoImplicit false

/-! # The step of a step search

A step search is for the derivation step in which the caret is. The step is selected as soon as the
text is read, and a load without such a step breaks. But a local reference is a derivation step too,
and it is spliced out afterwards, together with all mention of it. So a clean load has a step to
search for exactly if the caret is in a step that is no local reference
(`Worksheet.selectedStep?_load`).
-/

namespace ProofSheet

namespace Statement

/-- What a derivation step keeps while a worksheet is settled: its id, its name, and that it is one. -/
def stepKey (s : Statement) : StatementId × Option StepId × Bool :=
  (s.id, s.stepId?, s.derivation?.isSome)

theorem stepKey_citing {s : Statement} {d : Derivation} (h : s.content = .derivation d)
    (hyps : List Citation) : (s.citing d hyps).stepKey = s.stepKey := by
  have hname : s.stepId? = some d.id := by
    rw [stepId?_eq, h]
    rfl
  have hkind : (s.citing d hyps).derivation?.isSome = s.derivation?.isSome := by
    rw [derivation?, citing_content h, derivation?, h]
    rfl
  rw [stepKey, stepKey, citing_id, citing_stepId? h, hname, hkind]

theorem stepKey_record (levels : Levels) (s : Statement) :
    (s.mapStep levels.record).stepKey = s.stepKey := by
  cases hc : s.content <;>
    simp [stepKey, stepId?, step?, derivation?, mapStep, Content.mapStep, Content.step?,
      Content.derivation?, Levels.record, hc]

end Statement

/-- The pass over the statements keeps the steps that are no local references. -/
theorem Resolution.Passes.stepKeys {r r' : Resolution} {ss kept : List Statement}
    (h : Passes r ss kept r') :
    kept.map Statement.stepKey = (ss.filter (!·.content.isLocalRef)).map Statement.stepKey := by
  induction h with
  | done => rfl
  | other hs _ ih =>
      have hother := Content.derivation?_of_not_step hs
      simp [ih, Content.isLocalRef, hother]
  | hypothesis hs _ ih => simp [ih, hs, Content.isLocalRef, Content.derivation?]
  | derivation hs hlocal resolved _ ih =>
      simp [ih, hs, hlocal, Content.isLocalRef, Content.derivation?, Statement.stepKey_citing hs]
  | localRef hs hlocal hfound _ ih =>
      simp [ih, hs, hlocal, Content.isLocalRef, Content.derivation?]

namespace Worksheet

variable {ws ws' : Worksheet} {db : Database} {st : Settings} {request : Request} {text : Text}

/-- The step that a step search is for, if there is one. -/
def selectedStep? (ws : Worksheet) : Option Statement := ws.selected.bind ws.find?

/-! ## The selected step in each stage -/

/-- The step that is selected has the caret. -/
theorem selectStep_meets {caret : Option Nat} {read chosen : Worksheet}
    (hread : readText db st { cursor := { caret := caret } } text = .ok read)
    (hselect : read.selectStep = .ok chosen) :
    ∃ k ∈ caret, ∃ s ∈ read.statements, s.HasCaret k ∧ s.derivation?.isSome = true ∧
      chosen = { read with selected := some s.id } := by
  obtain ⟨s, hbound, hder, hchosen⟩ := selectStep_eq_ok hselect
  obtain ⟨id, hid, hfound⟩ := Option.bind_eq_some_iff.mp hbound
  have hs : s ∈ read.statements := List.mem_of_find?_eq_some hfound
  obtain rfl : s.id = id := by simpa using List.find?_some hfound
  obtain ⟨proved, shaped⟩ := shaped_readText hread
  obtain ⟨-, stand, hmet⟩ := readText_meets rfl hread
  have hunset : ({ caret := caret } : Cursor).target = none := rfl
  rw [hmet] at hid
  obtain ⟨k, hk, t, ht, hcaret, met⟩ | hunmet := Cursor.meetAll_cases 0 0 hunset stand
  · have hsame : t.id = s.id := Option.some.inj (met.statement.symm.trans hid)
    obtain rfl := List.inj_on_of_nodup_map shaped.nodup ht hs hsame
    exact ⟨k, hk, t, ht, hcaret, hder, hchosen⟩
  · rw [show _ = _ from hunmet] at hid
    cases hid

theorem selected_remove (ws : Worksheet) (ids : List StatementId) :
    (ws.remove ids).selected = ws.selected.filter (!ids.contains ·) := by
  unfold remove
  split
  · next hempty =>
      rw [List.isEmpty_iff.mp hempty]
      cases ws.selected <;> rfl
  · rfl

/-- Resolving local references forgets the selected step exactly if it is a local reference. -/
theorem selected_resolveLocalRefs {s : Statement} (h : ws.resolveLocalRefs = .ok ws')
    (nodup : ws.ids.Nodup) (hs : s ∈ ws.statements) (hselected : ws.selected = some s.id) :
    ws'.selected = if s.content.isLocalRef then none else some s.id := by
  obtain ⟨resolved, r, ms, passes, rfl⟩ := resolveLocalRefs_removes h nodup
  obtain ⟨hremoved, -⟩ := passes.drops_localRefs
  rw [List.nil_append] at hremoved
  have removed_iff : s.id ∈ r.removed ↔ s.content.isLocalRef = true := by
    rw [hremoved]
    constructor
    · intro hmem
      obtain ⟨t, ht, hid⟩ := List.mem_map.mp hmem
      obtain ⟨ht, hlocal⟩ := List.mem_filter.mp ht
      rwa [List.inj_on_of_nodup_map nodup hs ht hid.symm]
    · exact fun hlocal => List.mem_map_of_mem (List.mem_filter.mpr ⟨hs, hlocal⟩)
  rw [selected_remove]
  show ws.selected.filter _ = _
  rw [hselected, Option.filter_some]
  by_cases hlocal : s.content.isLocalRef = true
  · simp [hlocal, removed_iff]
  · simp [hlocal, removed_iff]

/-- A step that is no local reference is still there once the worksheet is settled. -/
theorem exists_settled {s : Statement} (placement : CaretPlacement)
    (h : ws.resolveLocalRefs = .ok ws') (nodup : ws.ids.Nodup) (hs : s ∈ ws.statements)
    (hkept : s.content.isLocalRef = false) :
    ∃ t ∈ (ws'.indexDistinctVars.measureLevels.placeCursor placement).statements,
      t.stepKey = s.stepKey := by
  obtain ⟨kept, r, passes, keeps⟩ := resolveLocalRefs_ok h nodup
  have hmeasured : (ws'.indexDistinctVars.measureLevels.placeCursor placement).statements.map
      Statement.stepKey = ws'.statements.map Statement.stepKey := by
    rw [statements_placeCursor, measureLevels, List.map_map]
    exact List.map_congr_left fun t _ => t.stepKey_record _
  have hlaid : ws'.statements.map Statement.stepKey = kept.map Statement.stepKey := by
    rw [keeps.statements]
    exact map_respanFrom Statement.stepKey (fun _ _ _ => rfl) 0 0 kept
  have hmem : s.stepKey ∈ (ws.statements.filter (!·.content.isLocalRef)).map Statement.stepKey :=
    List.mem_map_of_mem (List.mem_filter.mpr ⟨hs, by rw [hkept]; rfl⟩)
  rw [← passes.stepKeys, ← hlaid, ← hmeasured] at hmem
  exact List.mem_map.mp hmem

/-! ## Loading -/

/-- A clean load for which a step search is asked has its caret in one statement of the text, which
is a derivation step. If it is no local reference, it is the step that the search is for, and else it
has been spliced out and there is none. -/
theorem selectedStep?_load (clean : (load db st request text).broken = false)
    (wanted : request.selectStep = true) :
    ∃ source, IsSource db text source ∧ WrittenIn text source ∧
      (source.map Statement.id).Nodup ∧
      ∃ k ∈ request.caret, ∃ s ∈ source, s.derivation?.isSome = true ∧
        s.start ≤ k ∧ k < s.stop ∧ (∀ t ∈ source, t.HasCaret k → t = s) ∧
        (s.content.isLocalRef = true → (load db st request text).selectedStep? = none) ∧
        (s.content.isLocalRef = false →
          ∃ t ∈ (load db st request text).statements,
            (load db st request text).selectedStep? = some t ∧ t.id = s.id ∧
              t.stepId? = s.stepId? ∧ t.derivation?.isSome = true) := by
  obtain ⟨proved, shaped⟩ := shaped_load clean
  have loads := loads_load db st request text
  generalize load db st request text = ws at clean shaped loads ⊢
  cases loads with
  | @settled read chosen ws reading selecting resolving =>
      rw [if_pos wanted] at selecting
      obtain ⟨proved', readShaped⟩ := shaped_readText reading
      obtain ⟨hsource, written⟩ := source_readText rfl reading
      obtain ⟨k, hk, s, hs, hcaret, hder, rfl⟩ := selectStep_meets reading selecting
      have nodup : ids { read with selected := some s.id } |>.Nodup := readShaped.nodup
      have hselected : (ws.indexDistinctVars.measureLevels.placeCursor st.caretPlacement).selected =
          if s.content.isLocalRef then none else some s.id := by
        have resolved := selected_resolveLocalRefs resolving nodup hs rfl
        obtain ⟨c, hcursor⟩ := placeCursor_eq st.caretPlacement ws.indexDistinctVars.measureLevels
        rw [hcursor]
        exact resolved
      refine ⟨read.statements, hsource, written, readShaped.nodup, k, hk, s, hs, hder, hcaret.1, ?_,
        ?_, fun hlocal => ?_, fun hlocal => ?_⟩
      · -- the footer is no derivation step
        obtain hlt | ⟨hfooter, -⟩ := hcaret.2
        · exact hlt
        · obtain ⟨d, hd⟩ := Option.isSome_iff_exists.mp hder
          rw [Statement.isFooter_eq, Content.derivation?_eq_some.mp hd] at hfooter
          cases hfooter
      · exact fun t ht htcaret => written.spans.hasCaret_unique ht hs htcaret hcaret
      · rw [selectedStep?, hselected, if_pos hlocal, Option.bind_none]
      · obtain ⟨t, ht, hkey⟩ := exists_settled st.caretPlacement resolving nodup hs hlocal
        obtain ⟨hid, hkey⟩ := Prod.mk.inj hkey
        obtain ⟨hname, hkind⟩ := Prod.mk.inj hkey
        refine ⟨t, ht, ?_, hid, hname, hkind.trans hder⟩
        rw [selectedStep?, hselected, hlocal, ← hid]
        exact find?_of_nodup shaped.nodup ht
  | _ => cases clean

/-- In the second step the caret is in a step to search for. -/
theorem selectedStep?_load_shortText :
    let ws := load .empty {} { caret := some 57, selectStep := true } shortText
    ws.broken = false ∧
      ∃ source, IsSource .empty shortText source ∧ WrittenIn shortText source ∧
        (source.map Statement.id).Nodup ∧
        ∃ k ∈ some 57, ∃ s ∈ source, s.derivation?.isSome = true ∧
          s.start ≤ k ∧ k < s.stop ∧ (∀ t ∈ source, t.HasCaret k → t = s) ∧
          (s.content.isLocalRef = true → ws.selectedStep? = none) ∧
          (s.content.isLocalRef = false → ∃ t ∈ ws.statements, ws.selectedStep? = some t ∧
            t.id = s.id ∧ t.stepId? = s.stepId? ∧ t.derivation?.isSome = true) := by
  intro ws
  have clean : ws.broken = false := by decide +kernel
  exact ⟨clean, selectedStep?_load clean rfl⟩

/-- In the local reference it is in none, although the load is clean. -/
theorem shortText_unselected :
    let ws := load .empty {} { caret := some 70, selectStep := true } shortText
    ws.broken = false ∧ ws.selectedStep? = none := by
  decide +kernel

end Worksheet

end ProofSheet
