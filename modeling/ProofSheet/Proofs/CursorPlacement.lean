import ProofSheet.Proofs.CaretReading
import ProofSheet.Proofs.Lossless
import ProofSheet.Proofs.WellShaped

set_option autoImplicit false

/-! # Where the cursor is after loading

A clean load leaves the cursor in the statement of the text that has the caret, unless there is no
such statement or it is a local reference, which is spliced out. In that case the wanted placement
decides: the caret stays where it was, or the cursor goes to a step that needs work, or to `qed`
(`Worksheet.PlacedBy`). This is the main result, `Worksheet.cursor_load`. It goes through the stages
of loading in their order: reading meets the statements, splicing forgets the ones that it removes,
and what is still not set is placed in the end.
-/

namespace ProofSheet

/-! ## Forgetting statements -/

namespace Cursor

variable {c : Cursor} {id : StatementId} {field : Field} {ids : List StatementId}

theorem BoundTo.isSet (h : c.BoundTo id field) : c.isSet = true := by
  obtain ⟨index, generation, htarget⟩ := h.target
  rw [Cursor.isSet, htarget]
  rfl

/-- Forgetting statements unsets a cursor that is bound to one of them, and no other. -/
theorem foldl_forget (c : Cursor) (ids : List StatementId) :
    ids.foldl forget c =
      if ∃ id ∈ ids, c.statement? = some id then { c with target := none } else c := by
  induction ids generalizing c with
  | nil => simp
  | cons id rest ih =>
      rw [List.foldl_cons, ih, forget]
      by_cases hid : c.statement? = some id
      · -- the cursor has nothing left to forget
        have hnone : ¬ ∃ i ∈ rest, ({ c with target := none } : Cursor).statement? = some i := by
          rintro ⟨i, -, hi⟩
          cases hi
        rw [if_pos hid, if_neg hnone, if_pos ⟨id, List.mem_cons_self, hid⟩]
      · rw [if_neg hid]
        simp [hid]

theorem foldl_forget_of_not_mem (h : ∀ id ∈ ids, c.statement? ≠ some id) :
    ids.foldl forget c = c := by
  rw [foldl_forget, if_neg]
  rintro ⟨id, hmem, hid⟩
  exact h id hmem hid

theorem foldl_forget_of_mem (h : c.statement? = some id) (hmem : id ∈ ids) :
    ids.foldl forget c = { c with target := none } := by
  rw [foldl_forget, if_pos ⟨id, hmem, h⟩]

end Cursor

namespace Resolution

/-- The pass drops the statements that are local references, and keeps the others. -/
theorem Passes.drops_localRefs {r r' : Resolution} {ss kept : List Statement}
    (h : Passes r ss kept r') :
    r'.removed = r.removed ++ (ss.filter (·.content.isLocalRef)).map Statement.id ∧
      kept.map Statement.id = (ss.filter (!·.content.isLocalRef)).map Statement.id := by
  induction h with
  | done => simp
  | other hs _ ih =>
      have hother := Content.derivation?_of_not_step hs
      simp [ih, Content.isLocalRef, hother]
  | hypothesis hs _ ih => simp [ih, hs, remember, Content.isLocalRef, Content.derivation?]
  | derivation hs hlocal resolved _ ih =>
      simp [ih, hs, hlocal, remember, Content.isLocalRef, Content.derivation?, Statement.citing_id]
  | localRef hs hlocal hfound _ ih =>
      simp [ih, hs, hlocal, redirect, remember, Content.isLocalRef, Content.derivation?]

end Resolution

/-! ## The wanted placement -/

/-- The field of an incomplete step in which it needs work first: the label if it has none, or
else the formula if it has none or one with work variables, or else the hypothesis list. -/
inductive Derivation.OpenIn (d : Derivation) : Field → Prop where
  | ref (label : d.ref = none) : OpenIn d .ref
  | formula (label : d.ref.isSome = true) (formula : d.formula = none ∨ d.hasWorkVars = true) :
      OpenIn d .formula
  | hyps (label : d.ref.isSome = true) (formula : d.formula.isSome = true)
      (settled : d.hasWorkVars = false) : OpenIn d .hyps

theorem Derivation.openIn_openField (d : Derivation) : d.OpenIn d.openField := by
  unfold openField
  cases hlabel : d.ref with
  | none => exact .ref hlabel
  | some label =>
      have hsome : d.ref.isSome = true := by rw [hlabel]; rfl
      cases hformula : d.formula with
      | none => exact .formula hsome (Or.inl hformula)
      | some f =>
          cases hwork : d.hasWorkVars with
          | true => exact .formula hsome (Or.inr hwork)
          | false => exact .hyps hsome (by rw [hformula]; rfl) hwork

namespace Worksheet

variable {ws ws' : Worksheet} {db : Database} {st : Settings} {placement : CaretPlacement}

/-- The cursor is in the label of `qed`. -/
def AtQed (ws : Worksheet) : Prop :=
  ∃ s ∈ ws.statements, s.stepId? = some .qed ∧ ws.cursor.BoundTo s.id .ref

/-- The cursor is where the chosen step needs work, or at `qed` if there is no such step. -/
def AtOpenStep (ws : Worksheet) : Option Statement → Prop
  | some s => ∃ d field, s.content = .derivation d ∧ d.OpenIn field ∧ ws.cursor.BoundTo s.id field
  | none => ws.AtQed

/-- The cursor is where the placement wants it, for a caret that is in no statement. -/
def PlacedBy (ws : Worksheet) : CaretPlacement → Option Nat → Prop
  | .asIs, some k => ws.cursor.target = some (.offset k)
  | .asIs, none => ws.AtQed
  | .firstIncomplete, _ => ws.AtOpenStep ws.incomplete.head?
  | .lastIncomplete, _ => ws.AtOpenStep ws.incomplete.getLast?

theorem AtOpenStep.exists_bound {chosen : Option Statement} (h : ws.AtOpenStep chosen)
    (hchosen : ∀ s ∈ chosen, s ∈ ws.statements) :
    ∃ s ∈ ws.statements, ∃ field, ws.cursor.BoundTo s.id field := by
  cases chosen with
  | some s =>
      obtain ⟨d, field, -, -, bound⟩ := h
      exact ⟨s, hchosen s rfl, field, bound⟩
  | none =>
      obtain ⟨qed, hqed, -, bound⟩ := h
      exact ⟨qed, hqed, .ref, bound⟩

/-- A cursor that has been placed is at an offset or in a statement of the worksheet. -/
theorem PlacedBy.target {caret : Option Nat} (h : ws.PlacedBy placement caret) :
    (∃ k, ws.cursor.target = some (.offset k)) ∨
      ∃ s ∈ ws.statements, ∃ field, ws.cursor.BoundTo s.id field := by
  have incomplete_mem : ∀ s ∈ ws.incomplete, s ∈ ws.statements :=
    fun s hs => (List.mem_filter.mp hs).1
  cases placement with
  | asIs =>
      cases caret with
      | some k => exact Or.inl ⟨k, h⟩
      | none =>
          have hqed : ws.AtOpenStep none := h
          exact Or.inr (hqed.exists_bound fun s hs => (by cases hs))
  | firstIncomplete =>
      exact Or.inr (AtOpenStep.exists_bound h fun s hs =>
        incomplete_mem s (List.mem_of_head? hs))
  | lastIncomplete =>
      exact Or.inr (AtOpenStep.exists_bound h fun s hs =>
        incomplete_mem s (List.mem_of_getLast? hs))

theorem PlacedBy.isSet {caret : Option Nat} (h : ws.PlacedBy placement caret) :
    ws.cursor.isSet = true := by
  obtain ⟨k, htarget⟩ | ⟨s, -, field, bound⟩ := h.target
  · rw [Cursor.isSet, htarget]
    rfl
  · exact bound.isSet

theorem map_fst_incompleteAt (ws : Worksheet) : ws.incompleteAt.map Prod.fst = ws.incomplete := by
  have hfilter := List.filter_map (f := Prod.fst) (p := Statement.isIncomplete)
    (l := ws.statements.zipIdx)
  rw [List.zipIdx_map_fst] at hfilter
  exact hfilter.symm

theorem statements_placeCursor (placement : CaretPlacement) (ws : Worksheet) :
    (ws.placeCursor placement).statements = ws.statements := by
  obtain ⟨c, hcursor⟩ := placeCursor_eq placement ws
  rw [hcursor]

theorem incomplete_placeCursor (placement : CaretPlacement) (ws : Worksheet) :
    (ws.placeCursor placement).incomplete = ws.incomplete := by
  rw [incomplete, statements_placeCursor, incomplete]

/-- A cursor that is set stays where it is. -/
theorem cursor_placeCursor_of_set (h : ws.cursor.isSet = true) (placement : CaretPlacement) :
    (ws.placeCursor placement).cursor = ws.cursor := by
  unfold placeCursor
  split
  · exact Cursor.offer_of_set h _
  · rfl

theorem target_placeCursor_of_unset {target : CursorTarget} (hunset : ws.cursor.target = none)
    (h : ws.placement? placement = some target) :
    (ws.placeCursor placement).cursor.target = some target := by
  unfold placeCursor
  rw [h]
  exact Cursor.offer_of_unset hunset target

section Placing

variable {qed : Statement}

theorem exists_qedTarget (hqed : ws.qedStep? = some qed) :
    qed ∈ ws.statements ∧
      ∃ index, ws.qedTarget? = some (.statement qed.id .ref index ws.generation) := by
  obtain ⟨id, hid, hfind⟩ := Option.bind_eq_some_iff.mp hqed
  have hmem : qed ∈ ws.statements := List.mem_of_find?_eq_some hfind
  obtain rfl : qed.id = id := by simpa using List.find?_some hfind
  have hfound : (ws.indexOf? qed.id).isSome = true := by
    rw [indexOf?, List.findIdx?_isSome]
    exact List.any_eq_true.mpr ⟨qed, hmem, beq_self_eq_true _⟩
  obtain ⟨index, hindex⟩ := Option.isSome_iff_exists.mp hfound
  refine ⟨hmem, index, ?_⟩
  rw [qedTarget?, hid]
  show (ws.indexOf? qed.id).bind _ = _
  rw [hindex]
  rfl

theorem atQed_placeCursor (hqed : ws.qedStep? = some qed) (hid : qed.stepId? = some .qed)
    (hunset : ws.cursor.target = none) (h : ws.placement? placement = ws.qedTarget?) :
    (ws.placeCursor placement).AtQed := by
  obtain ⟨hmem, index, htarget⟩ := exists_qedTarget hqed
  refine ⟨qed, ?_, hid, ?_⟩
  · rw [statements_placeCursor]
    exact hmem
  · exact Cursor.boundTo_of_target (target_placeCursor_of_unset hunset (h.trans htarget))

/-- A cursor that is to go to one of the incomplete steps goes where the step needs work. -/
theorem atOpenStep_placeCursor (hqed : ws.qedStep? = some qed) (hid : qed.stepId? = some .qed)
    (hunset : ws.cursor.target = none) {chosen : Option (Statement × Nat)}
    (hchosen : ∀ p ∈ chosen, p ∈ ws.incompleteAt)
    (h : ws.placement? placement =
      (chosen.map fun (s, i) => ws.openTarget s i).or ws.qedTarget?) :
    (ws.placeCursor placement).AtOpenStep (chosen.map Prod.fst) := by
  cases chosen with
  | none => exact atQed_placeCursor hqed hid hunset h
  | some p =>
      obtain ⟨s, index⟩ := p
      have hincomplete : s.isIncomplete = true := (List.mem_filter.mp (hchosen _ rfl)).2
      rw [Statement.isIncomplete, Option.any_eq_true] at hincomplete
      obtain ⟨d, hd, -⟩ := hincomplete
      have htarget : (ws.placeCursor placement).cursor.target = some (ws.openTarget s index) :=
        target_placeCursor_of_unset hunset h
      rw [openTarget, hd] at htarget
      exact ⟨d, d.openField, Content.derivation?_eq_some.mp hd, d.openIn_openField,
        Cursor.boundTo_of_target htarget⟩

/-- A cursor that is not set goes where the placement wants it. -/
theorem placedBy_placeCursor (hqed : ws.qedStep? = some qed) (hid : qed.stepId? = some .qed)
    (hunset : ws.cursor.target = none) :
    (ws.placeCursor placement).PlacedBy placement ws.cursor.caret := by
  cases placement with
  | asIs =>
      cases hcaret : ws.cursor.caret with
      | none =>
          refine atQed_placeCursor hqed hid hunset ?_
          rw [placement?, hcaret]
          rfl
      | some k =>
          refine target_placeCursor_of_unset hunset ?_
          rw [placement?, hcaret]
          rfl
  | firstIncomplete =>
      have hplaced : (ws.placeCursor .firstIncomplete).AtOpenStep
          (ws.incompleteAt.head?.map Prod.fst) :=
        atOpenStep_placeCursor hqed hid hunset (fun p hp => List.mem_of_head? hp) rfl
      rw [← List.head?_map, map_fst_incompleteAt, ← incomplete_placeCursor] at hplaced
      exact hplaced
  | lastIncomplete =>
      have hplaced : (ws.placeCursor .lastIncomplete).AtOpenStep
          (ws.incompleteAt.getLast?.map Prod.fst) :=
        atOpenStep_placeCursor hqed hid hunset (fun p hp => List.mem_of_getLast? hp) rfl
      rw [← List.getLast?_map, map_fst_incompleteAt, ← incomplete_placeCursor] at hplaced
      exact hplaced

end Placing

end Worksheet

/-! ## The text of the statements -/

/-- A text is written in statements from its first token on: it is made up of their texts, and each
of them has the span of its text. -/
structure WrittenIn (text : Text) (ss : List Statement) : Prop where
  texts : text = text.takeWhile isSeparator ++ ss.flatMap Statement.text
  spans : StandFrom (text.takeWhile isSeparator).length ss

namespace WrittenIn

variable {text : Text} {ss : List Statement} {k : Nat}

theorem exists_hasCaret_iff (h : WrittenIn text ss) (hne : ss ≠ []) :
    (∃ s ∈ ss, s.HasCaret k) ↔ (text.takeWhile isSeparator).length ≤ k ∧ k ≤ text.length := by
  have hlength := congrArg List.length h.texts
  rw [List.length_append] at hlength
  rw [h.spans.exists_hasCaret_iff hne, ← hlength]

theorem existsUnique_hasCaret (h : WrittenIn text ss) (hne : ss ≠ [])
    (hlo : (text.takeWhile isSeparator).length ≤ k) (hhi : k ≤ text.length) :
    ∃! s, s ∈ ss ∧ s.HasCaret k := by
  obtain ⟨s, hs, hcaret⟩ := (h.exists_hasCaret_iff hne).mpr ⟨hlo, hhi⟩
  exact ⟨s, ⟨hs, hcaret⟩, fun t ⟨ht, htcaret⟩ => h.spans.hasCaret_unique ht hs htcaret hcaret⟩

end WrittenIn

/-- Where the cursor is after a text has been loaded of which these were the statements. -/
structure CursorLoaded (text : Text) (source : List Statement) (placement : CaretPlacement)
    (caret : Option Nat) (ws : Worksheet) : Prop where
  /-- A caret from the first token to the end of the text is in one statement. -/
  inside : ∀ k, (text.takeWhile isSeparator).length ≤ k → k ≤ text.length →
    ∃! s, s ∈ source ∧ s.HasCaret k
  /-- Other carets are in none. -/
  outside : ∀ k, ∀ s ∈ source, s.HasCaret k →
    (text.takeWhile isSeparator).length ≤ k ∧ k ≤ text.length
  /-- The cursor is bound to the field that the caret is in. -/
  bound : ∀ k ∈ caret, ∀ s ∈ source, s.HasCaret k → s.content.isLocalRef = false →
    ws.cursor.BoundTo s.id (s.fieldAt (k - s.start))
  /-- Without a caret, or if it is in no statement or in a local reference, the cursor is placed. -/
  placed : (∀ k ∈ caret, ∀ s ∈ source, s.HasCaret k → s.content.isLocalRef = true) →
    ws.PlacedBy placement caret
  isSet : ws.cursor.isSet = true

namespace Worksheet

variable {ws : Worksheet} {db : Database} {st : Settings}

theorem cursor_remove (ws : Worksheet) (ids : List StatementId) :
    (ws.remove ids).cursor = ids.foldl Cursor.forget ws.cursor := by
  unfold remove
  split
  · next hempty => rw [List.isEmpty_iff.mp hempty, List.foldl_nil]
  · rfl

/-- Resolving local references forgets the statements that are local references, and keeps the
others. -/
theorem splices_resolveLocalRefs {ws' : Worksheet} (h : ws.resolveLocalRefs = .ok ws')
    (nodup : ws.ids.Nodup) :
    ws'.cursor = ((ws.statements.filter (·.content.isLocalRef)).map Statement.id).foldl
        Cursor.forget ws.cursor ∧
      ws'.ids = (ws.statements.filter (!·.content.isLocalRef)).map Statement.id := by
  obtain ⟨resolved, r, ms, passes, rfl⟩ := resolveLocalRefs_removes h nodup
  obtain ⟨hremoved, hkept⟩ := passes.drops_localRefs
  rw [List.nil_append] at hremoved
  constructor
  · rw [cursor_remove, hremoved]
    rfl
  · rw [(keeps_remove ws ms resolved r.removed).ids, hkept]

/-- The statements that are read are those that the text has, each with its span. -/
theorem source_readText {text : Text} (hnil : ws.statements = []) {ws' : Worksheet}
    (h : ws.readText db st text = .ok ws') :
    IsSource db text ws'.statements ∧ WrittenIn text ws'.statements := by
  obtain ⟨-, source, hsource, hall⟩ := readText_reads h
  obtain ⟨-, stand, -⟩ := readText_meets hnil h
  rw [hnil, List.nil_append] at hsource
  refine ⟨?_, ?_, stand⟩
  · rw [hsource]
    exact hall.imp fun b s hs => ⟨hs.lead, hs.tail, spells_iff_says.mpr hs.said⟩
  · have houtput := output_readText hnil h
    rw [output] at houtput
    rw [houtput, List.takeWhile_append_dropWhile]

/-- After reading and splicing, the cursor is bound to the statement that has the caret, or it is
not set if there is no such statement or it has been spliced out. -/
theorem cursor_spliced {source : List Statement} {o : Nat} (caret : Option Nat)
    (stand : StandFrom o source) (nodup : (source.map Statement.id).Nodup) {c : Cursor}
    (hc : c = ((source.filter (·.content.isLocalRef)).map Statement.id).foldl Cursor.forget
      (Cursor.meetAll 0 { caret := caret } 0 source)) :
    (∀ k ∈ caret, ∀ s ∈ source, s.HasCaret k → s.content.isLocalRef = false →
        c.BoundTo s.id (s.fieldAt (k - s.start))) ∧
      ((∀ k ∈ caret, ∀ s ∈ source, s.HasCaret k → s.content.isLocalRef = true) →
        c = { caret := caret }) := by
  constructor
  · intro k hk s hs hcaret hstays
    have met : (Cursor.meetAll 0 { caret := caret } 0 source).BoundTo s.id
        (s.fieldAt (k - s.start)) := Cursor.meetAll_of_met rfl hk stand hs hcaret
    rw [hc, Cursor.foldl_forget_of_not_mem]
    · exact met
    -- the statement is not one of those that are removed
    intro id hid heq
    obtain ⟨t, ht, rfl⟩ := List.mem_map.mp hid
    obtain ⟨ht, hlocal⟩ := List.mem_filter.mp ht
    have hids : s.id = t.id := Option.some.inj (met.statement.symm.trans heq)
    rw [List.inj_on_of_nodup_map nodup hs ht hids, hlocal] at hstays
    cases hstays
  · intro hremoved
    have hunset : ({ caret := caret } : Cursor).target = none := rfl
    rw [hc]
    obtain ⟨k, hk, s, hs, hcaret, met⟩ | hunmet := Cursor.meetAll_cases 0 0 hunset stand
    · have hmem : s.id ∈ (source.filter (·.content.isLocalRef)).map Statement.id :=
        List.mem_map_of_mem (List.mem_filter.mpr ⟨hs, hremoved k hk s hs hcaret⟩)
      rw [Cursor.foldl_forget_of_mem met.statement hmem, Cursor.caret_meetAll]
    · rw [hunmet]
      exact Cursor.foldl_forget_of_not_mem fun id _ heq => (by cases heq)

/-- Placing the cursor leaves it where reading has bound it. -/
theorem cursorLoaded_placeCursor {text : Text} {source : List Statement} {caret : Option Nat}
    {placement : CaretPlacement} {qed : Statement} (written : WrittenIn text source)
    (hne : source ≠ []) (hqed : ws.qedStep? = some qed) (hid : qed.stepId? = some .qed)
    (bound : ∀ k ∈ caret, ∀ s ∈ source, s.HasCaret k → s.content.isLocalRef = false →
      ws.cursor.BoundTo s.id (s.fieldAt (k - s.start)))
    (unset : (∀ k ∈ caret, ∀ s ∈ source, s.HasCaret k → s.content.isLocalRef = true) →
      ws.cursor = { caret := caret }) :
    CursorLoaded text source placement caret (ws.placeCursor placement) := by
  have bound' : ∀ k ∈ caret, ∀ s ∈ source, s.HasCaret k → s.content.isLocalRef = false →
      (ws.placeCursor placement).cursor.BoundTo s.id (s.fieldAt (k - s.start)) := by
    intro k hk s hs hcaret hstays
    have hbound := bound k hk s hs hcaret hstays
    rw [cursor_placeCursor_of_set hbound.isSet]
    exact hbound
  have placed : (∀ k ∈ caret, ∀ s ∈ source, s.HasCaret k → s.content.isLocalRef = true) →
      (ws.placeCursor placement).PlacedBy placement caret := by
    intro hremoved
    have hunset := unset hremoved
    have hplaced : (ws.placeCursor placement).PlacedBy placement ws.cursor.caret :=
      placedBy_placeCursor hqed hid (by rw [hunset])
    rwa [hunset] at hplaced
  refine ⟨fun k => written.existsUnique_hasCaret hne, ?_, bound', placed, ?_⟩
  · intro k s hs hcaret
    exact (written.exists_hasCaret_iff hne).mp ⟨s, hs, hcaret⟩
  · by_cases hstays : ∃ k ∈ caret, ∃ s ∈ source, s.HasCaret k ∧ s.content.isLocalRef = false
    · obtain ⟨k, hk, s, hs, hcaret, hlocal⟩ := hstays
      exact (bound' k hk s hs hcaret hlocal).isSet
    · refine (placed fun k hk s hs hcaret => ?_).isSet
      by_contra hlocal
      exact hstays ⟨k, hk, s, hs, hcaret, Bool.eq_false_iff.mpr hlocal⟩

/-- The last stage of a clean load places the cursor in a worksheet that has its `qed` step. -/
theorem load_placed {request : Request} {text : Text}
    (clean : (load db st request text).broken = false) :
    ∃ read selected ws qed,
      readText db st { cursor := { caret := request.caret } } text = .ok read ∧
        read.ids.Nodup ∧ resolveLocalRefs { read with selected := selected } = .ok ws ∧
        ws.indexDistinctVars.measureLevels.qedStep? = some qed ∧ qed.stepId? = some .qed ∧
        load db st request text =
          ws.indexDistinctVars.measureLevels.placeCursor st.caretPlacement := by
  obtain ⟨proved, shaped⟩ := shaped_load clean
  obtain ⟨before, qed, after, -, hid, hqed, -⟩ := shaped.qedStep rfl
  obtain ⟨read, selected, ws, hread, hresolve, -, -, hload⟩ := load_settled clean
  obtain ⟨proved', hshaped⟩ := shaped_readText hread
  obtain ⟨c, hplaced⟩ := placeCursor_eq st.caretPlacement ws.indexDistinctVars.measureLevels
  rw [hload, hplaced] at hqed
  exact ⟨read, selected, ws, qed, hread, hshaped.nodup, hresolve, hqed, hid, hload⟩

/-- After a clean load the cursor is bound to the statement of the text that has the caret, in the
field that the caret is in, if that statement stays. Otherwise it is placed as the settings want
it, and in any case it is set. The statements that stay are those that are not local references. -/
theorem cursor_load {request : Request} {text : Text}
    (clean : (load db st request text).broken = false) :
    ∃ source, IsSource db text source ∧ WrittenIn text source ∧
      (source.map Statement.id).Nodup ∧
      (load db st request text).ids =
        (source.filter (!·.content.isLocalRef)).map Statement.id ∧
      CursorLoaded text source st.caretPlacement request.caret (load db st request text) := by
  obtain ⟨read, selected, ws, qed, hread, nodup, hresolve, hqed, hid, hload⟩ := load_placed clean
  obtain ⟨hsource, written⟩ := source_readText rfl hread
  obtain ⟨hne, stand, hmet⟩ := readText_meets rfl hread
  obtain ⟨hcursor, hids⟩ := splices_resolveLocalRefs hresolve nodup
  simp only [hmet] at hcursor
  obtain ⟨bound, unset⟩ := cursor_spliced request.caret stand nodup hcursor
  rw [hload]
  refine ⟨read.statements, hsource, written, nodup, ?_, ?_⟩
  · rw [← hids, ids, statements_placeCursor]
    exact List.map_map
  · exact cursorLoaded_placeCursor written hne hqed hid bound unset

/-- With the caret in a local reference the cursor is placed. -/
theorem cursor_load_shortText :
    (load .empty {} { caret := some 70 } shortText).broken = false ∧
      ∃ source, IsSource .empty shortText source ∧ WrittenIn shortText source ∧
        (source.map Statement.id).Nodup ∧
        (load .empty {} { caret := some 70 } shortText).ids =
          (source.filter (!·.content.isLocalRef)).map Statement.id ∧
        CursorLoaded shortText source .firstIncomplete (some 70)
          (load .empty {} { caret := some 70 } shortText) := by
  have clean : (load .empty {} { caret := some 70 } shortText).broken = false := by
    decide +kernel
  exact ⟨clean, cursor_load clean⟩

end Worksheet

end ProofSheet
