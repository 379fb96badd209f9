import ProofSheet.Proofs.Intact

set_option autoImplicit false

/-! # Edits are atomic one by one

Edits of a list are granted up to the first that is refused (`Worksheet.applyInOrder_eq_some`). If
none is refused the levels are measured at the end, and otherwise they are not. It makes no
difference: no edit touches a level that is right, so on an intact worksheet there is nothing left
to measure (`Worksheet.Intact.applyEdits_eq`). What a refused list leaves is therefore what the
edits before the refused one would have left as a list of their own
(`Worksheet.edits_atomic`).
-/

namespace ProofSheet

namespace Worksheet

variable {ws ws' : Worksheet} {db : Database} {st : Settings} {es : List Edit} {r : Refusal}

/-! ## In order -/

/-- If no edit of the first list is refused, those of the second are applied after them. -/
theorem applyInOrder_append (hgranted : (ws.applyInOrder st es).2 = none) (rest : List Edit) :
    ws.applyInOrder st (es ++ rest) = (ws.applyInOrder st es).1.applyInOrder st rest := by
  induction es generalizing ws with
  | nil => rfl
  | cons e es ih =>
      rw [List.cons_append, applyInOrder, applyInOrder]
      rw [applyInOrder] at hgranted
      cases happ : ws.applyEdit st e with
      | ok ws₁ =>
          simp only [happ] at hgranted
          exact ih hgranted
      | error r =>
          simp only [happ] at hgranted
          cases hgranted

/-- Edits are applied up to one that is refused. -/
theorem applyInOrder_refused {before after : List Edit} {e : Edit}
    (hgranted : (ws.applyInOrder st before).2 = none)
    (hrefused : (ws.applyInOrder st before).1.applyEdit st e = .error r) :
    ws.applyInOrder st (before ++ e :: after) = ((ws.applyInOrder st before).1, some r) := by
  rw [applyInOrder_append hgranted, applyInOrder, hrefused]

/-- Some edit is refused exactly if it is refused where those before it have been granted. -/
theorem applyInOrder_eq_some :
    (ws.applyInOrder st es).2 = some r ↔ ∃ before e after, es = before ++ e :: after ∧
      (ws.applyInOrder st before).2 = none ∧
        (ws.applyInOrder st before).1.applyEdit st e = .error r := by
  constructor
  · intro h
    induction es generalizing ws with
    | nil => cases h
    | cons e rest ih =>
        rw [applyInOrder] at h
        cases happ : ws.applyEdit st e with
        | error r' =>
            simp only [happ, Option.some.injEq] at h
            subst h
            exact ⟨[], e, rest, rfl, rfl, happ⟩
        | ok ws₁ =>
            simp only [happ] at h
            obtain ⟨before, e', after, rfl, hgranted, hrefused⟩ := ih h
            have hbefore : ws.applyInOrder st (e :: before) = ws₁.applyInOrder st before := by
              rw [applyInOrder, happ]
            exact ⟨e :: before, e', after, rfl, hbefore ▸ hgranted, hbefore ▸ hrefused⟩
  · rintro ⟨before, e, after, rfl, hgranted, hrefused⟩
    rw [applyInOrder_refused hgranted hrefused]

/-! ## With levels -/

/-- An inserted step raises the greatest number by one at most. -/
theorem greatestStep_of_changes {e : Edit} (h : ws.Changes e ws') :
    ws'.greatestStep ≤ ws.greatestStep + [e].countP Edit.isInsertStep := by
  obtain ⟨-, -, hgreatest⟩ | ⟨hinsert, hgreatest, -⟩ := stepIds_of_changes h
  · omega
  · rw [hgreatest, List.countP_singleton, hinsert, if_pos rfl, nextStepNumber]
    exact Nat.min_le_left _ _

/-- Edits keep a worksheet intact, if there is room for the numbers of all steps that they
insert. -/
theorem Intact.applyInOrder (h : ws.Intact) (st : Settings)
    (room : ws.greatestStep + es.countP Edit.isInsertStep ≤ StepId.maxNumber) :
    (ws.applyInOrder st es).1.Intact := by
  induction es generalizing ws with
  | nil => exact h
  | cons e rest ih =>
      rw [Worksheet.applyInOrder]
      have hcount : (e :: rest).countP Edit.isInsertStep =
          [e].countP Edit.isInsertStep + rest.countP Edit.isInsertStep := by
        rw [← List.singleton_append, List.countP_append]
      rw [hcount] at room
      cases happ : ws.applyEdit st e with
      | error r => exact h
      | ok ws₁ =>
          obtain ⟨proved, hshaped⟩ := h.shaped
          have hgreatest := greatestStep_of_changes (changes_of_applyEdit hshaped.nodup happ)
          refine ih (h.edit happ fun hinsert hmem => ?_) (by omega)
          -- a step with the greatest possible number would leave no room for another one
          have hbound := h.numbered.bound _ hmem
          rw [List.countP_singleton, hinsert, if_pos rfl] at room
          omega

/-- On an intact worksheet edits are applied in order, and that is all. -/
theorem Intact.applyEdits_eq (h : ws.Intact) (st : Settings)
    (room : ws.greatestStep + es.countP Edit.isInsertStep ≤ StepId.maxNumber) :
    ws.applyEdits st es = ws.applyInOrder st es := by
  have intact := h.applyInOrder st room
  rw [applyEdits, h.whole, if_neg Bool.false_ne_true]
  cases happ : ws.applyInOrder st es with
  | mk ws' refusal =>
      cases refusal with
      | some r => rfl
      | none =>
          rw [happ] at intact
          dsimp only
          rw [intact.measureLevels_eq]

/-- A list of one edit is refused if the edit is. -/
theorem applyEdits_singleton (h : ws.broken = false) (e : Edit) :
    (ws.applyEdits st [e]).2 = some r ↔ ws.applyEdit st e = .error r := by
  rw [applyEdits, h, if_neg Bool.false_ne_true, applyInOrder]
  cases happ : ws.applyEdit st e with
  | ok ws' => simp [applyInOrder]
  | error r' => simp

/-- The first edits of a list are granted, and the next one is refused after them. -/
structure RefusedAfter (ws : Worksheet) (st : Settings) (es before : List Edit) (r : Refusal) :
    Prop where
  granted : (ws.applyEdits st before).2 = none
  refused : ∃ e after, es = before ++ e :: after ∧
    ((ws.applyEdits st before).1.applyEdits st [e]).2 = some r

/-- A list of edits is refused exactly if one of them is refused after those before it, and then the
list leaves what those leave. -/
structure AppliesOneByOne (ws : Worksheet) (st : Settings) (es : List Edit) : Prop where
  refused : ∀ r, (ws.applyEdits st es).2 = some r ↔ ∃ before, ws.RefusedAfter st es before r
  left : ∀ before r, ws.RefusedAfter st es before r →
    (ws.applyEdits st es).1 = (ws.applyEdits st before).1

/-- On an intact worksheet edits are applied one by one, if there is room for their steps. -/
theorem Intact.appliesOneByOne (h : ws.Intact)
    (room : ws.greatestStep + es.countP Edit.isInsertStep ≤ StepId.maxNumber) :
    ws.AppliesOneByOne st es := by
  have refused_iff : ∀ {before after : List Edit} {e : Edit} {r : Refusal},
      es = before ++ e :: after →
        ws.applyEdits st before = ws.applyInOrder st before ∧
        (((ws.applyEdits st before).1.applyEdits st [e]).2 = some r ↔
          (ws.applyInOrder st before).1.applyEdit st e = .error r) := by
    rintro before after e r rfl
    rw [List.countP_append] at room
    have hbefore : ws.applyEdits st before = ws.applyInOrder st before :=
      h.applyEdits_eq st (by omega)
    refine ⟨hbefore, ?_⟩
    rw [hbefore]
    exact applyEdits_singleton (h.applyInOrder st (by omega)).whole e
  have hes := h.applyEdits_eq st room
  refine ⟨fun r => ?_, ?_⟩
  · rw [hes, applyInOrder_eq_some]
    constructor
    · rintro ⟨before, e, after, hsplit, hgranted, hrefused⟩
      obtain ⟨hbefore, hiff⟩ := refused_iff hsplit
      exact ⟨before, hbefore ▸ hgranted, e, after, hsplit, hiff.mpr hrefused⟩
    · rintro ⟨before, hgranted, e, after, hsplit, hrefused⟩
      obtain ⟨hbefore, hiff⟩ := refused_iff hsplit
      exact ⟨before, e, after, hsplit, hbefore ▸ hgranted, hiff.mp hrefused⟩
  · rintro before r ⟨hgranted, e, after, hsplit, hrefused⟩
    obtain ⟨hbefore, hiff⟩ := refused_iff hsplit
    rw [hbefore] at hgranted ⊢
    rw [hes, hsplit, applyInOrder_refused hgranted (hiff.mp hrefused)]

/-! ## Refusals that change nothing -/

/-- A broken worksheet takes no edits, and no processor gets to see it. -/
theorem refused_of_broken (h : ws.broken = true) (st : Settings) (es : List Edit)
    (cancelled : Bool) (process : Worksheet → Except String (List Edit)) :
    ws.applyEdits st es = (ws, some .structurallyBroken) ∧
      ws.applyProcessor st cancelled process = (ws, some .structurallyBroken) := by
  constructor
  · rw [applyEdits, if_pos h]
  · rw [applyProcessor, if_pos h]

/-- A processor that is called off, or fails, changes nothing. -/
theorem applyProcessor_idle (ws : Worksheet) (st : Settings) {cancelled : Bool}
    {process : Worksheet → Except String (List Edit)}
    (h : cancelled = true ∨ ∃ reason, process ws = .error reason) :
    (ws.applyProcessor st cancelled process).1 = ws := by
  unfold applyProcessor
  split
  · rfl
  · split
    · rfl
    · next hcancelled =>
        obtain ⟨reason, hfails⟩ := h.resolve_left hcancelled
        rw [hfails]

/-- Edits are atomic one by one on a worksheet that has been loaded cleanly, whatever calls came
before, as long as its steps have different names and there are numbers for the steps that the edits
insert. Moreover, a broken worksheet refuses all edits and processors, and a processor that is
called off or fails changes nothing. -/
theorem edits_atomic {request : Request} {text : Text}
    (clean : (load db st request text).broken = false) (calls : List Call)
    (nodup : ((load db st request text).afterCalls calls).stepIds.Nodup) (st' : Settings)
    {es : List Edit}
    (room : es.countP Edit.isInsertStep <
      StepId.maxNumber - ((load db st request text).afterCalls calls).greatestStep) :
    ((load db st request text).afterCalls calls).AppliesOneByOne st' es ∧
      (∀ (other : Worksheet) (st : Settings) (es : List Edit) (cancelled : Bool)
        (process : Worksheet → Except String (List Edit)), other.broken = true →
          other.applyEdits st es = (other, some .structurallyBroken) ∧
            other.applyProcessor st cancelled process = (other, some .structurallyBroken)) ∧
      ∀ (other : Worksheet) (st : Settings) (cancelled : Bool)
        (process : Worksheet → Except String (List Edit)),
          (cancelled = true ∨ ∃ reason, process other = .error reason) →
            (other.applyProcessor st cancelled process).1 = other := by
  have intact := intact_afterCalls clean calls nodup
  refine ⟨intact.appliesOneByOne (by omega), ?_, ?_⟩
  · intro other st es cancelled process hbroken
    exact refused_of_broken hbroken st es cancelled process
  · intro other st cancelled process hidle
    exact other.applyProcessor_idle st hidle

/-- Three edits, of which the second names a step that is not there. -/
def mixedEdits : List Edit :=
  [.insertStep .qed [.number 10] none ⟨[['|', '-'], ['s']]⟩, .setRef (.number 3) ['b'],
    .setRef .qed ['c']]

theorem edits_atomic_shortText :
    (load .empty {} {} shortText).broken = false ∧
      ((load .empty {} {} shortText).afterCalls [.renumber 10]).stepIds.Nodup ∧
      mixedEdits.countP Edit.isInsertStep <
        StepId.maxNumber - ((load .empty {} {} shortText).afterCalls [.renumber 10]).greatestStep ∧
      ∃ before, ((load .empty {} {} shortText).afterCalls [.renumber 10]).RefusedAfter {} mixedEdits
        before (.unknownStep ['3']) := by
  have nodup : ((load .empty {} {} shortText).afterCalls [.renumber 10]).stepIds.Nodup := by
    decide +kernel
  have room : mixedEdits.countP Edit.isInsertStep < StepId.maxNumber -
      ((load .empty {} {} shortText).afterCalls [.renumber 10]).greatestStep := by
    decide +kernel
  have refused : (((load .empty {} {} shortText).afterCalls [.renumber 10]).applyEdits {}
      mixedEdits).2 = some (.unknownStep ['3']) := by
    decide +kernel
  have atomic := edits_atomic shortText_loads [.renumber 10] nodup {} room
  exact ⟨shortText_loads, nodup, room, (atomic.1.refused _).mp refused⟩

end Worksheet

end ProofSheet
