import ProofSheet.Proofs.Calls
import ProofSheet.Proofs.Relabelling

set_option autoImplicit false

/-! # The limit of renumbering

Renumbering can be done in place (`Worksheet.renumberInPlace`): the new numbers are counted up step
by step, with a check of each against the greatest step number, and only then are the statements
renamed one after the other. Counting comes to the multiples of the interval and fails exactly if
the last of them is out of range (`Renaming.countUp_eq`), and renaming one after the other comes to
renaming all (`Worksheet.foldl_renameAt`). So a renumbering in place is a renumbering
(`Worksheet.renumberInPlace_eq`), which is refused at the limit and not before, and leaves the
worksheet alone when it is refused (`Worksheet.renumber_refused_iff`).
-/

namespace ProofSheet

namespace Renaming

/-- Counts up the names of the steps, going on from the number `last`. It gives the last number
too, and nothing if a number is out of range. The step `qed` keeps its name. -/
def countUp (interval : Nat) : Nat → List StepId → Option (Renaming × Nat)
  | last, [] => some ([], last)
  | last, id :: rest =>
    if id.isQed then countUp interval last rest
    else if StepId.maxNumber < last + interval then none
    else (countUp interval (last + interval) rest).map fun (names, greatest) =>
      ((id, .number (last + interval)) :: names, greatest)

/-- After `n` numbers counting goes on with the multiples from `n + 1` on, up to the last one, and
fails if that is out of range. -/
theorem countUp_eq {interval n : Nat} (hlast : interval * n ≤ StepId.maxNumber)
    (ids : List StepId) :
    countUp interval (interval * n) ids =
      if StepId.maxNumber < interval * (n + (ids.filter (!·.isQed)).length) then none
      else some
        (((ids.filter (!·.isQed)).zipIdx (n + 1)).map fun (id, i) => (id, .number (interval * i)),
          interval * (n + (ids.filter (!·.isQed)).length)) := by
  induction ids generalizing n with
  | nil => exact (if_neg (Nat.not_lt.mpr hlast)).symm
  | cons id rest ih =>
      rw [countUp]
      by_cases hqed : id.isQed = true
      · rw [if_pos hqed, List.filter_cons_of_neg (by simp [hqed])]
        exact ih hlast
      · rw [if_neg hqed, List.filter_cons_of_pos (by simp [hqed]), ← Nat.mul_succ,
          List.length_cons, Nat.add_comm _ 1, ← Nat.add_assoc]
        by_cases hover : StepId.maxNumber < interval * (n + 1)
        -- the numbers that follow are greater still
        · have hmore : interval * (n + 1) ≤
              interval * (n + 1 + (rest.filter (!·.isQed)).length) :=
            Nat.mul_le_mul_left _ (Nat.le_add_right _ _)
          rw [if_pos hover, if_pos (Nat.lt_of_lt_of_le hover hmore)]
        · rw [if_neg hover, ih (Nat.not_lt.mp hover)]
          split
          · rfl
          · rfl

end Renaming

namespace Worksheet

/-- Renames the statement in a place, and counts it if its text changes. -/
def renameAt (names : Renaming) : Worksheet × Nat → Nat → Worksheet × Nat
  | (ws, changed), i =>
    match ws.statements[i]? with
    | none => (ws, changed)
    | some s =>
      ({ ws with statements := ws.statements.set i (names.applyStatement s) },
        if (names.applyStatement s).lead != s.lead then changed + 1 else changed)

/-- Renumbers the steps in place: the numbers are counted up first, and then the statements are
renamed one after the other. -/
def renumberInPlace (ws : Worksheet) (interval : Nat) : Worksheet × Except Refusal Nat :=
  if interval = 0 then (ws, .error .zeroInterval)
  else if ws.broken then (ws, .error .structurallyBroken)
  else
    match Renaming.countUp interval 0 ws.stepIds with
    | none => (ws, .error (.renumberOverflow interval))
    | some (names, greatest) =>
      let (renamed, changed) := (List.range ws.statements.length).foldl (renameAt names) (ws, 0)
      ({ renamed with greatestStep := greatest }.respan, .ok changed)

/-- After some places the statements there are renamed, and the others are as they were. -/
theorem foldl_renameAt (names : Renaming) (ws : Worksheet) {k : Nat}
    (hk : k ≤ ws.statements.length) :
    (List.range k).foldl (renameAt names) (ws, 0) =
      ({ ws with
          statements := (ws.statements.take k).map names.applyStatement ++ ws.statements.drop k },
        (ws.statements.take k).countP fun s => (names.applyStatement s).lead != s.lead) := by
  induction k with
  | zero => rfl
  | succ k ih =>
      have hplace : ((ws.statements.take k).map names.applyStatement).length = k := by
        rw [List.length_map, List.length_take, Nat.min_eq_left (Nat.le_of_lt hk)]
      rw [List.range_succ, List.foldl_append, ih (Nat.le_of_lt hk), List.foldl_cons, List.foldl_nil,
        List.drop_eq_getElem_cons hk, List.take_succ_eq_append_getElem hk, List.map_append,
        List.countP_append]
      -- place `k` is the first one that has not been renamed
      have hget : ((ws.statements.take k).map names.applyStatement ++
          ws.statements[k] :: ws.statements.drop (k + 1))[k]? = some ws.statements[k] := by
        rw [List.getElem?_append_right (Nat.le_of_eq hplace), hplace, Nat.sub_self]
        rfl
      have hset : ((ws.statements.take k).map names.applyStatement ++
          ws.statements[k] :: ws.statements.drop (k + 1)).set k
            (names.applyStatement ws.statements[k]) =
          (ws.statements.take k).map names.applyStatement ++
            [names.applyStatement ws.statements[k]] ++ ws.statements.drop (k + 1) := by
        rw [List.set_append_right _ _ (Nat.le_of_eq hplace), hplace, Nat.sub_self,
          List.set_cons_zero, List.append_assoc, List.singleton_append]
      simp only [renameAt, hget, hset]
      refine Prod.ext rfl ?_
      simp only [List.countP_singleton]
      split <;> rfl

theorem countUp_stepIds (ws : Worksheet) (interval : Nat) :
    Renaming.countUp interval 0 ws.stepIds =
      if StepId.maxNumber < interval * ws.numberedIds.length then none
      else some (ws.newNames interval, interval * ws.numberedIds.length) := by
  have hstart : interval * 0 ≤ StepId.maxNumber := Nat.zero_le _
  have hcount := Renaming.countUp_eq hstart ws.stepIds
  rwa [Nat.mul_zero, Nat.zero_add, Nat.zero_add] at hcount

/-- Why a renumbering is refused, in the order in which this is checked. -/
inductive RefusesRenumber (ws : Worksheet) (interval : Nat) : Refusal → Prop where
  | zero (h : interval = 0) : RefusesRenumber ws interval .zeroInterval
  | broken (hpos : interval ≠ 0) (h : ws.broken = true) :
      RefusesRenumber ws interval .structurallyBroken
  | overflow (hpos : interval ≠ 0) (whole : ws.broken = false)
      (h : StepId.maxNumber < interval * ws.numberedIds.length) :
      RefusesRenumber ws interval (.renumberOverflow interval)

section Refused

variable {ws : Worksheet} {interval : Nat} {r : Refusal}

/-- There is a reason to refuse unless the numbers are in range. -/
theorem refusesRenumber_or (ws : Worksheet) (interval : Nat) :
    (∃ r, ws.RefusesRenumber interval r) ∨
      0 < interval ∧ ws.broken = false ∧
        interval * ws.numberedIds.length ≤ StepId.maxNumber := by
  by_cases hzero : interval = 0
  · exact .inl ⟨_, .zero hzero⟩
  · cases hbroken : ws.broken with
    | true => exact .inl ⟨_, .broken hzero hbroken⟩
    | false =>
        by_cases hover : StepId.maxNumber < interval * ws.numberedIds.length
        · exact .inl ⟨_, .overflow hzero hbroken hover⟩
        · exact .inr ⟨Nat.pos_of_ne_zero hzero, rfl, Nat.not_lt.mp hover⟩

theorem RefusesRenumber.renumber_eq (h : ws.RefusesRenumber interval r) :
    ws.renumber interval = .error r := by
  cases h with
  | zero h => rw [renumber, if_pos h]
  | broken hpos h => rw [renumber, if_neg hpos, if_pos h]
  | overflow hpos whole h =>
      rw [renumber, if_neg hpos, if_neg (ne_true_of_eq_false whole), if_pos h]

/-- Nothing has been changed when a renumbering in place is refused. -/
theorem RefusesRenumber.renumberInPlace_eq (h : ws.RefusesRenumber interval r) :
    ws.renumberInPlace interval = (ws, .error r) := by
  cases h with
  | zero h => rw [renumberInPlace, if_pos h]
  | broken hpos h => rw [renumberInPlace, if_neg hpos, if_pos h]
  | overflow hpos whole h =>
      rw [renumberInPlace, if_neg hpos, if_neg (ne_true_of_eq_false whole), countUp_stepIds,
        if_pos h]

theorem renumberInPlace_granted (hpos : 0 < interval) (whole : ws.broken = false)
    (room : interval * ws.numberedIds.length ≤ StepId.maxNumber) :
    ws.renumberInPlace interval =
      (respan
        { ws with
          statements := ws.statements.map (ws.newNames interval).applyStatement
          greatestStep := interval * ws.numberedIds.length },
      .ok (ws.statements.countP fun s =>
        ((ws.newNames interval).applyStatement s).lead != s.lead)) := by
  rw [renumberInPlace, if_neg hpos.ne', if_neg (ne_true_of_eq_false whole), countUp_stepIds,
    if_neg (Nat.not_lt.mpr room)]
  simp only [foldl_renameAt _ _ (Nat.le_refl _), List.take_length, List.drop_length,
    List.append_nil]

end Refused

/-- Renumbering in place is renumbering: one fails where the other does, for the same reason, and
otherwise they come to the same worksheet and the same number of changes. -/
theorem renumberInPlace_eq (ws : Worksheet) (interval : Nat) :
    ws.renumberInPlace interval =
      (ws.afterCall (.renumber interval), (ws.renumber interval).map Prod.snd) := by
  rcases refusesRenumber_or ws interval with ⟨r, h⟩ | ⟨hpos, whole, room⟩
  · rw [h.renumberInPlace_eq, afterCall, h.renumber_eq]
    rfl
  · rw [renumberInPlace_granted hpos whole room, afterCall, renumber_eq hpos whole room]
    refine Prod.ext rfl (congrArg Except.ok ?_)
    rw [List.zip_eq_zipWith, List.zipWith_map_right, List.zipWith_self, List.countP_map]
    rfl

/-- A renumbering is refused exactly if the interval is zero, the worksheet is broken or the last
of the new numbers is out of range, with the first of these as the reason, and a refused
renumbering changes nothing in the worksheet. -/
theorem renumber_refused_iff (ws : Worksheet) (interval : Nat) :
    ((∃ r, ws.renumber interval = .error r) ↔
        interval = 0 ∨ ws.broken = true ∨
          StepId.maxNumber < interval * ws.numberedIds.length) ∧
      (∀ r, ws.renumber interval = .error r ↔ ws.RefusesRenumber interval r) ∧
      ws.renumberInPlace interval =
        (ws.afterCall (.renumber interval), (ws.renumber interval).map Prod.snd) ∧
      ∀ r, ws.renumber interval = .error r → ws.renumberInPlace interval = (ws, .error r) := by
  have refused_iff (r : Refusal) :
      ws.renumber interval = .error r ↔ ws.RefusesRenumber interval r := by
    refine ⟨fun h => ?_, RefusesRenumber.renumber_eq⟩
    rcases refusesRenumber_or ws interval with ⟨r', h'⟩ | ⟨hpos, whole, room⟩
    · rw [h'.renumber_eq, Except.error.injEq] at h
      exact h ▸ h'
    · rw [renumber_eq hpos whole room] at h
      cases h
  refine ⟨?_, refused_iff, renumberInPlace_eq ws interval, fun r h =>
    ((refused_iff r).mp h).renumberInPlace_eq⟩
  simp only [refused_iff]
  constructor
  · rintro ⟨r, h⟩
    cases h with
    | zero h => exact .inl h
    | broken _ h => exact .inr (.inl h)
    | overflow _ _ h => exact .inr (.inr h)
  · intro h
    refine (refusesRenumber_or ws interval).resolve_right ?_
    rintro ⟨hpos, whole, room⟩
    rcases h with rfl | hbroken | hover
    · exact absurd hpos (Nat.lt_irrefl 0)
    · rw [whole] at hbroken
      cases hbroken
    · exact absurd room (Nat.not_le.mpr hover)

end Worksheet

end ProofSheet
