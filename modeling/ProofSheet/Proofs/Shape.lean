import ProofSheet.Proofs.Calls
import ProofSheet.Proofs.Changes
import ProofSheet.Proofs.Phase
import ProofSheet.Proofs.Renumbering
import Mathlib.Data.List.Nodup

set_option autoImplicit false

/-! # The shape of a worksheet

The statements of a worksheet lead from the opening phase to some phase, and its indexes agree with
them (`Worksheet.Shaped`). Edits put statements only where the phase allows them, and renumbering
and measuring revise them, so a worksheet that has come to its end stays in shape, whatever moves
follow (`Worksheet.Shaped.moves`).
-/

namespace ProofSheet

namespace Worksheet

/-- The statements lead from the opening to a phase, and the indexes agree with them. -/
structure Shaped (ws : Worksheet) (p : Phase) : Prop where
  phase : Phase.opening.after ws.contents = some p
  nodup : ws.ids.Nodup
  below : ∀ id ∈ ws.ids, id < ws.nextId
  qed : ∀ e ∈ ws.entries, e.2.isQed = true → ws.qed = some e.1
  concluded : ws.qed.isSome = p.isConcluded
  hypothesisCount : ws.hypothesisCount = ws.contents.countP Content.isHypothesis
  workVars : ∀ d, .derivation d ∈ ws.contents → d.NotesWorkVars

variable {ws ws' : Worksheet} {p : Phase}

/-! ## Revisions -/

/-- Contents that are allowed in the same phases and count in the same way. -/
structure Alike (c c' : Content) : Prop where
  next : ∀ p : Phase, p.next c' = p.next c
  isQed : c'.isQed = c.isQed
  isHypothesis : c'.isHypothesis = c.isHypothesis
  workVars : (∀ d, c = .derivation d → d.NotesWorkVars) → ∀ d, c' = .derivation d → d.NotesWorkVars

theorem Alike.of_revisedTo {c c' : Content} (h : c.RevisedTo c') : Alike c c' := by
  cases h with
  | refl => exact ⟨fun _ => rfl, rfl, rfl, fun h => h⟩
  | hypothesis hid =>
      refine ⟨fun p => Phase.next_hypothesis (by rw [hid]), ?_, rfl, fun _ d hd => (by cases hd)⟩
      simp [Content.isQed, hid]
  | derivation hid hhyps hlocal hwork =>
      refine ⟨fun p => Phase.next_derivation (by rw [hid]), ?_, rfl, fun h d hd => ?_⟩
      · simp [Content.isQed, hid]
      · cases hd
        exact hwork (h _ rfl)

theorem Shaped.alike (h : ws.Shaped p)
    (halike : List.Forall₂ (fun e e' => e'.1 = e.1 ∧ Alike e.2 e'.2) ws.entries ws'.entries)
    (hqed : ws'.qed = ws.qed) (hcount : ws'.hypothesisCount = ws.hypothesisCount)
    (hnext : ws'.nextId = ws.nextId) : ws'.Shaped p := by
  have hids : ws'.ids = ws.ids := by
    rw [ids_eq, ids_eq]
    exact map_eq_of_forall₂ halike fun e e' hR => hR.1
  refine ⟨?_, ?_, ?_, ?_, ?_, ?_, ?_⟩
  · rw [← h.phase, contents_eq, contents_eq]
    generalize Phase.opening = p₀
    generalize ws.entries = es at halike ⊢
    generalize ws'.entries = es' at halike ⊢
    induction halike generalizing p₀ with
    | nil => rfl
    | cons hR _ ih =>
        rw [List.map_cons, List.map_cons, Phase.after, Phase.after, hR.2.next]
        congr 1
        funext q
        exact ih q
  · rw [hids]
    exact h.nodup
  · rw [hids, hnext]
    exact h.below
  · intro e' he' hq
    obtain ⟨e, he, hid, hR⟩ := exists_mem_of_forall₂ halike he'
    rw [hqed, hid]
    exact h.qed e he (hR.isQed ▸ hq)
  · rw [hqed]
    exact h.concluded
  · have hkinds : ws'.contents.map Content.isHypothesis = ws.contents.map Content.isHypothesis := by
      rw [contents_eq, contents_eq, List.map_map, List.map_map]
      exact map_eq_of_forall₂ halike fun e e' hR => hR.2.isHypothesis
    have hcounts := congrArg (List.count true) hkinds
    rw [hcount, h.hypothesisCount]
    rw [List.count_eq_countP, List.count_eq_countP, List.countP_map, List.countP_map] at hcounts
    simpa [Function.comp_def] using hcounts.symm
  · intro d hd
    rw [contents_eq, List.mem_map] at hd
    obtain ⟨e', he', hd⟩ := hd
    obtain ⟨e, he, -, hR⟩ := exists_mem_of_forall₂ halike he'
    refine hR.workVars (fun d₀ hd₀ => h.workVars d₀ ?_) d hd
    rw [contents_eq, ← hd₀]
    exact List.mem_map_of_mem he

/-- Revising steps keeps the shape. -/
theorem Shaped.revise (h : ws.Shaped p) (revises : ws.Revises ws') (same : ws.SameIndex ws') :
    ws'.Shaped p :=
  h.alike (revises.imp fun _ _ hR => ⟨hR.1, .of_revisedTo hR.2⟩) same.qed same.hypothesisCount
    same.nextId

/-- Measuring the levels keeps the shape. -/
theorem Shaped.measureLevels (h : ws.Shaped p) : ws.measureLevels.Shaped p :=
  h.revise (revises_measureLevels ws) ⟨rfl, rfl, rfl, rfl, rfl, rfl⟩

/-- Renumbering keeps the shape. -/
theorem Shaped.renumber {interval changed : Nat} (h : ws.Shaped p)
    (hrenumber : ws.renumber interval = .ok (ws', changed)) : ws'.Shaped p := by
  obtain ⟨-, -, rfl⟩ := renumber_ok hrenumber
  refine h.alike ?_ rfl rfl rfl
  rw [entries_respan, entries, entries, List.map_map, List.forall₂_map_left_iff,
    List.forall₂_map_right_iff]
  refine List.forall₂_same.mpr fun s _ => ⟨rfl, ?_⟩
  have hqed := newNames_eq_qed ws interval
  show Alike s.content ((ws.newNames interval).applyContent s.content)
  have isQed : ((ws.newNames interval).applyContent s.content).isQed = s.content.isQed := by
    rw [Content.isQed, Content.isQed, Renaming.stepId?_applyContent]
    cases s.content.stepId? with
    | none => rfl
    | some id => rw [Bool.eq_iff_iff]; simp [hqed id]
  cases hc : s.content with
  | hypothesis step =>
      rw [hc] at isQed
      exact ⟨fun p => Phase.next_hypothesis (hqed step.id), isQed, rfl,
        fun _ d hd => (by cases hd)⟩
  | derivation d =>
      rw [hc] at isQed
      refine ⟨fun p => Phase.next_derivation (hqed d.id), isQed, rfl, fun h d' hd => ?_⟩
      cases hd
      exact h d rfl
  | _ => exact ⟨fun _ => rfl, rfl, rfl, fun h => h⟩

/-! ## Statements that are put in -/

/-- A statement other than a hypothesis or `qed` is put in, perhaps in the place of others that are
not steps. -/
theorem Shaped.insert {p' : Phase} {before after : List Statement} {c : Content}
    (h : ws.Shaped p) (dropped : List Statement) (hss : ws.statements = before ++ (dropped ++ after))
    (hdropped : ∀ t ∈ dropped, t.isStep = false)
    (hentries : ws'.entries =
      before.map Statement.entry ++ (ws.nextId, c) :: after.map Statement.entry)
    (same : SameIndex { ws with nextId := ws.nextId + 1, greatestStep := ws'.greatestStep } ws')
    (hphase : Phase.opening.after ws'.contents = some p')
    (hconcluded : p'.isConcluded = p.isConcluded) (not_qed : c.isQed = false)
    (not_hypothesis : c.isHypothesis = false) (workVars : ∀ d, c = .derivation d → d.NotesWorkVars) :
    ws'.Shaped p' := by
  have hkept : ∀ e ∈ before.map Statement.entry ++ after.map Statement.entry, e ∈ ws.entries := by
    intro e he
    rw [entries, hss, List.map_append, List.map_append]
    simp only [List.mem_append] at he ⊢
    exact he.imp_right Or.inr
  have hids := ids_of_entries hentries
  have hcontents := contents_of_entries hentries
  have hkeptIds : (before.map Statement.id ++ after.map Statement.id).Sublist ws.ids := by
    rw [ids, hss, List.map_append, List.map_append]
    exact (List.Sublist.refl _).append (List.sublist_append_right _ _)
  refine ⟨hphase, ?_, ?_, ?_, ?_, ?_, ?_⟩
  · rw [hids, List.nodup_middle, List.nodup_cons]
    refine ⟨fun hmem => ?_, h.nodup.sublist hkeptIds⟩
    exact Nat.lt_irrefl _ (h.below _ (hkeptIds.subset hmem))
  · intro id hid
    rw [hids, List.mem_append, List.mem_cons, or_left_comm, ← List.mem_append] at hid
    rw [same.nextId]
    rcases hid with rfl | hid
    · exact Nat.lt_succ_self _
    · exact Nat.lt_succ_of_lt (h.below _ (hkeptIds.subset hid))
  · intro e he hqed
    rw [hentries, List.mem_append, List.mem_cons, or_left_comm, ← List.mem_append] at he
    rw [same.qed]
    rcases he with rfl | he
    · rw [not_qed] at hqed
      cases hqed
    · exact h.qed e (hkept e he) hqed
  · rw [same.qed, hconcluded]
    exact h.concluded
  · have hnone : (dropped.map Statement.content).countP Content.isHypothesis = 0 := by
      rw [List.countP_eq_zero]
      intro d hd
      obtain ⟨t, ht, rfl⟩ := List.mem_map.mp hd
      have := hdropped t ht
      rw [Statement.isStep_eq] at this
      cases hc : t.content <;> simp [Content.isStep, Content.step?, Content.isHypothesis, hc] at this ⊢
    rw [same.hypothesisCount]
    show ws.hypothesisCount = _
    rw [h.hypothesisCount, hcontents, contents, hss]
    simp [List.countP_append, hnone, not_hypothesis]
  · intro d hd
    rw [hcontents, List.mem_append, List.mem_cons, or_left_comm, ← List.mem_append] at hd
    rcases hd with hd | hd
    · exact workVars d hd.symm
    · refine h.workVars d ?_
      rw [contents, hss, List.map_append, List.map_append]
      simp only [List.mem_append] at hd ⊢
      exact hd.imp_right Or.inr

/-- A worksheet with its footer has one, so a slot for a generated proof begins with a generated
proof or the footer. -/
theorem Shaped.slot {proved : Bool} {before after : List Statement} (h : ws.Shaped (.closed proved))
    (hss : ws.statements = before ++ after) (hslot : ws.BeginsSlot after) :
    ∃ t rest p₁ p₂, after = t :: rest ∧ (t.isProof = true ∨ t.isFooter = true) ∧
      Phase.opening.after (before.map Statement.content) = some p₁ ∧
      p₁.next t.content = some p₂ ∧
      p₂.after (rest.map Statement.content) = some (.closed proved) := by
  rcases hslot with ⟨t, rest, rfl, ht⟩ | hnone
  · have hphase := h.phase
    rw [contents, hss, List.map_append, List.map_cons] at hphase
    obtain ⟨p₁, p₂, hbefore, hnext, hrest⟩ := Phase.after_split hphase
    exact ⟨t, rest, p₁, p₂, rfl, ht, hbefore, hnext, hrest⟩
  · obtain ⟨-, -, -, -, hfooter⟩ := Phase.after_tells h.phase
    have : ws.contents.any Content.isFooter = false := by
      rw [List.any_eq_false]
      intro c hc
      obtain ⟨t, ht, rfl⟩ := List.mem_map.mp hc
      rw [← Statement.isFooter_eq, hnone t ht]
      exact Bool.false_ne_true
    rw [this] at hfooter
    cases hfooter

/-- In front of a derivation step there may be another one. -/
theorem Shaped.phase_insertStep {before after : List Statement} {s : Statement} {d : Derivation}
    (h : ws.Shaped p) (hss : ws.statements = before ++ s :: after)
    (hder : s.content.isDerivation = true) (not_qed : d.id ≠ .qed) :
    Phase.opening.after (before.map Statement.content ++
      .derivation d :: (s :: after).map Statement.content) = some p := by
  have hphase := h.phase
  rw [contents, hss, List.map_append, List.map_cons] at hphase
  obtain ⟨p₁, p₂, hbefore, hnext, hafter⟩ := Phase.after_split hphase
  obtain ⟨p₃, hnew, hnext'⟩ := Phase.next_insert not_qed hder hnext
  rw [List.map_cons]
  refine Phase.after_of_split hbefore hnew ?_
  rw [Phase.after, hnext', Option.bind_some]
  exact hafter

/-- In the slot for a generated proof there may be one if there is none. -/
theorem Shaped.phase_insertProof {proved : Bool} {before after : List Statement} (body : ProofBody)
    (h : ws.Shaped (.closed proved)) (hss : ws.statements = before ++ after)
    (slot : ws.BeginsSlot after) (first : ∀ t ∈ ws.statements, t.isProof = false) :
    Phase.opening.after (before.map Statement.content ++
      .proof body :: after.map Statement.content) = some (.closed true) := by
  obtain ⟨t, rest, p₁, p₂, rfl, ht, hbefore, hnext, hrest⟩ := h.slot hss slot
  have not_proof : t.isProof = false := by
    apply first t
    rw [hss]
    exact List.mem_append_right _ List.mem_cons_self
  have hfooter : t.content.isFooter = true := ht.resolve_left (by simp [not_proof])
  have hnone : p₁.isProved = false := by
    obtain ⟨-, -, -, hproved, -⟩ := Phase.after_tells hbefore
    have none_before : (before.map Statement.content).any Content.isProof = false := by
      rw [List.any_eq_false]
      intro c hc
      obtain ⟨u, hu, rfl⟩ := List.mem_map.mp hc
      have hmem : u ∈ ws.statements := by
        rw [hss]
        exact List.mem_append_left _ hu
      rw [← Statement.isProof_eq, first u hmem]
      exact Bool.false_ne_true
    rw [hproved, none_before]
    rfl
  obtain ⟨p₃, hnew, hnext'⟩ := Phase.next_proof body hfooter hnone hnext
  -- nothing follows the footer
  have hrest_nil : rest.map Statement.content = [] := by
    obtain ⟨-, -, -, -, hclosed⟩ := Phase.next_tells hnext
    rw [hfooter, Bool.or_true] at hclosed
    exact Phase.eq_nil_of_closed hclosed hrest
  rw [List.map_cons, hrest_nil]
  refine Phase.after_of_split hbefore hnew ?_
  rw [Phase.after, hnext']
  rfl

/-- A granted edit keeps the shape. -/
theorem Shaped.edit {proved : Bool} {e : Edit} (h : ws.Shaped (.closed proved))
    (hchange : ws.Changes e ws') : ∃ proved', ws'.Shaped (.closed proved') := by
  have none_dropped : ∀ t ∈ ([] : List Statement), t.isStep = false := fun t ht => (by cases ht)
  cases hchange with
  | revise _ revises same => exact ⟨proved, h.revise revises same⟩
  | insertStep split no_hypothesis cited hentries same =>
      rename_i step hyps ref formula before after s
      have hder : s.content.isDerivation = true := by
        have hstep := split.found
        have hhyp := no_hypothesis s List.mem_cons_self
        rw [Statement.stepId?_eq] at hstep
        rw [Statement.isHypothesis_eq] at hhyp
        cases hc : s.content <;> simp [hc, Content.stepId?, Content.step?, Content.isHypothesis,
          Content.isDerivation] at hstep hhyp ⊢
      have hphase' : Phase.opening.after ws'.contents = some (.closed proved) := by
        rw [contents_of_entries hentries]
        exact h.phase_insertStep split.statements hder fun heq => (by cases heq)
      refine ⟨proved, h.insert [] split.statements none_dropped hentries ?_ hphase' rfl rfl rfl ?_⟩
      · exact ⟨same.qed, same.hypothesisCount, rfl, same.nextId, same.theoremLabel, same.broken⟩
      · intro d' hd'
        cases hd'
        rfl
  | insertDistinctVars split slot hentries same =>
      rename_i vars before after
      obtain ⟨t, rest, p₁, p₂, rfl, ht, hbefore, hnext, hrest⟩ := h.slot split slot
      have hphase' : Phase.opening.after ws'.contents = some (.closed proved) := by
        rw [contents_of_entries hentries, List.map_cons]
        refine Phase.after_of_split hbefore (Phase.next_distinctVars vars ht hnext) ?_
        rw [Phase.after, hnext, Option.bind_some]
        exact hrest
      refine ⟨proved, h.insert [] split none_dropped hentries ?_ hphase' rfl rfl rfl ?_⟩
      · exact ⟨same.qed, same.hypothesisCount, rfl, same.nextId, same.theoremLabel, same.broken⟩
      · intro d hd
        cases hd
  | insertProof split first slot hentries same =>
      rename_i proof before after
      have hphase' : Phase.opening.after ws'.contents = some (.closed true) := by
        rw [contents_of_entries hentries]
        exact h.phase_insertProof (.compressed proof) split slot first
      refine ⟨true, h.insert [] split none_dropped hentries ?_ hphase' rfl rfl rfl ?_⟩
      · exact ⟨same.qed, same.hypothesisCount, rfl, same.nextId, same.theoremLabel, same.broken⟩
      · intro d hd
        cases hd
  | replaceProof split hold hentries same =>
      rename_i proof before after old
      obtain ⟨body, hbody⟩ : ∃ body, old.content = .proof body := by
        rw [Statement.isProof_eq] at hold
        cases hc : old.content <;> simp [hc, Content.isProof] at hold ⊢
      have hphase := h.phase
      rw [contents, split, List.map_append, List.map_cons, hbody] at hphase
      obtain ⟨p₁, p₂, hbefore, hnext, hafter⟩ := Phase.after_split hphase
      have hphase' : Phase.opening.after ws'.contents = some (.closed proved) := by
        rw [contents_of_entries hentries]
        exact Phase.after_of_split hbefore (by rwa [Phase.next_proof_congr _ body]) hafter
      refine ⟨proved, h.insert [old] split ?_ hentries ?_ hphase' rfl rfl rfl ?_⟩
      · intro t ht
        rw [List.mem_singleton.mp ht, Statement.isStep_eq, hbody]
        rfl
      · exact ⟨same.qed, same.hypothesisCount, rfl, same.nextId, same.theoremLabel, same.broken⟩
      · intro d hd
        cases hd

/-- The worksheets that granted edits meet have the shape. -/
theorem Shaped.met {proved : Bool} {edits : List (Worksheet × Edit)}
    (h : ws.Shaped (.closed proved)) (hmoves : Moves ws edits ws') :
    ∀ p ∈ edits, ∃ proved', p.1.Shaped (.closed proved') := by
  induction hmoves generalizing proved with
  | done => exact fun p hp => (by cases hp)
  | edit granted _ ih =>
      obtain ⟨proved', h'⟩ := h.edit (changes_of_applyEdit h.nodup granted)
      exact List.forall_mem_cons.mpr ⟨⟨proved, h⟩, ih h'⟩
  | levels _ ih => exact ih h.measureLevels
  | renumber granted _ ih => exact ih (h.renumber granted)

/-- What every move of a worksheet with the shape keeps holds after all moves. -/
theorem Shaped.induct {proved : Bool} {edits : List (Worksheet × Edit)} {I : Worksheet → Prop}
    (h : ws.Shaped (.closed proved)) (hmoves : Moves ws edits ws')
    (edit : ∀ st ws e ws' proved, (ws, e) ∈ edits → ws.Shaped (.closed proved) →
      ws.applyEdit st e = .ok ws' → I ws → I ws')
    (levels : ∀ ws, I ws → I ws.measureLevels)
    (renumber : ∀ ws interval ws' changed, ws.renumber interval = .ok (ws', changed) → I ws → I ws')
    (start : I ws) : I ws' := by
  induction hmoves generalizing proved with
  | done => exact start
  | edit granted _ ih =>
      obtain ⟨proved', h'⟩ := h.edit (changes_of_applyEdit h.nodup granted)
      have start' := edit _ _ _ _ _ List.mem_cons_self h granted start
      exact ih h' (fun st ws e ws' proved hmem => edit st ws e ws' proved
        (List.mem_cons_of_mem _ hmem)) start'
  | levels _ ih => exact ih h.measureLevels edit (levels _ start)
  | renumber granted _ ih =>
      exact ih (h.renumber granted) edit (renumber _ _ _ _ granted start)

/-- Moves keep the shape. -/
theorem Shaped.moves {proved : Bool} {edits : List (Worksheet × Edit)}
    (h : ws.Shaped (.closed proved)) (hmoves : Moves ws edits ws') :
    ∃ proved', ws'.Shaped (.closed proved') := by
  refine h.induct (I := fun ws => ∃ proved, ws.Shaped (.closed proved)) hmoves ?_ ?_ ?_
    ⟨proved, h⟩
  · exact fun _ _ _ _ _ _ shaped granted _ =>
      shaped.edit (changes_of_applyEdit shaped.nodup granted)
  · rintro ws ⟨proved, shaped⟩
    exact ⟨proved, shaped.measureLevels⟩
  · rintro ws interval ws' changed granted ⟨proved, shaped⟩
    exact ⟨proved, shaped.renumber granted⟩

end Worksheet

end ProofSheet
