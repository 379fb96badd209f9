import ProofSheet.Proofs.Contents
import ProofSheet.Worksheet.Renumber
import Mathlib.Tactic.Common

set_option autoImplicit false

/-! # What renumbering does

The numbered step in place `i` gets the multiple `i + 1` of the interval, and `qed` keeps its name
(`Renaming.apply_of_mem`, `Renaming.apply_of_not_mem`). So different steps of a worksheet get
different names (`Worksheet.newNames_injOn`), also when a new name is an old one of another step.
-/

namespace ProofSheet

namespace Renaming

variable {k : Nat} {ids : List StepId} {id : StepId}

theorem mem_multiples {p : StepId × StepId} :
    p ∈ multiples k ids ↔ ∃ i : Nat, ids[i]? = some p.1 ∧ p.2 = .number (k * (i + 1)) := by
  obtain ⟨a, b⟩ := p
  simp only [multiples, List.mem_map, Prod.exists, Prod.mk.injEq]
  constructor
  · rintro ⟨id, n, hmem, rfl, rfl⟩
    rw [List.mk_mem_zipIdx_iff_le_and_getElem?_sub] at hmem
    obtain ⟨hle, hget⟩ := hmem
    exact ⟨n - 1, hget, by rw [Nat.sub_add_cancel hle]⟩
  · rintro ⟨i, hget, hb⟩
    refine ⟨a, i + 1, ?_, rfl, hb.symm⟩
    rw [List.mk_mem_zipIdx_iff_le_and_getElem?_sub]
    exact ⟨by omega, by simpa using hget⟩

/-- An id that is not listed keeps its name. -/
theorem apply_of_not_mem (h : id ∉ ids) : (multiples k ids).apply id = id := by
  have hnone : (multiples k ids).reverse.lookup id = none := by
    rw [List.lookup_eq_none_iff]
    intro p hp
    obtain ⟨i, hget, -⟩ := mem_multiples.mp (List.mem_reverse.mp hp)
    simp only [bne_iff_ne, ne_eq]
    rintro rfl
    exact h (List.mem_of_getElem? hget)
  rw [apply, hnone, Option.getD_none]

/-- A listed id gets the multiple for a place where it stands. -/
theorem apply_of_mem (h : id ∈ ids) :
    ∃ i : Nat, ids[i]? = some id ∧ (multiples k ids).apply id = .number (k * (i + 1)) := by
  cases hlookup : (multiples k ids).reverse.lookup id with
  | none =>
      rw [List.lookup_eq_none_iff] at hlookup
      obtain ⟨i, hi⟩ := List.getElem?_of_mem h
      have hp : (id, StepId.number (k * (i + 1))) ∈ multiples k ids := mem_multiples.mpr ⟨i, hi, rfl⟩
      have := hlookup _ (List.mem_reverse.mpr hp)
      simp at this
  | some name =>
      obtain ⟨l₁, l₂, hl, -⟩ := List.lookup_eq_some_iff.mp hlookup
      have hp : (id, name) ∈ multiples k ids := by
        rw [← List.mem_reverse, hl]
        simp
      obtain ⟨i, hi, hname⟩ := mem_multiples.mp hp
      exact ⟨i, hi, by rw [apply, hlookup]; exact hname⟩

/-- Renames what a statement says. -/
def applyContent (r : Renaming) (c : Content) : Content :=
  (c.mapStep fun step => { step with id := r.apply step.id }).mapDerivation fun d =>
    { d with hyps := d.hyps.map r.applyCitation }

theorem stepId?_applyContent (r : Renaming) (c : Content) :
    (r.applyContent c).stepId? = c.stepId?.map r.apply := by
  cases c <;> rfl

theorem applyStatement_content (r : Renaming) (s : Statement) :
    (r.applyStatement s).content = r.applyContent s.content := rfl

end Renaming

namespace Worksheet

variable {ws ws' : Worksheet} {interval changed : Nat}

/-- The names that the steps of a worksheet get. -/
def newNames (ws : Worksheet) (interval : Nat) : Renaming :=
  Renaming.multiples interval ws.numberedIds

/-- Renumbering renames all statements. -/
theorem renumber_ok (h : ws.renumber interval = .ok (ws', changed)) :
    0 < interval ∧ interval * ws.numberedIds.length ≤ StepId.maxNumber ∧
      ws' =
        respan
          { ws with
            statements := ws.statements.map (ws.newNames interval).applyStatement
            greatestStep := interval * ws.numberedIds.length } := by
  unfold renumber at h
  by_cases hzero : interval = 0
  · rw [if_pos hzero] at h
    cases h
  · rw [if_neg hzero] at h
    by_cases hbroken : ws.broken = true
    · rw [if_pos hbroken] at h
      cases h
    · rw [if_neg hbroken] at h
      by_cases hover : StepId.maxNumber < interval * ws.numberedIds.length
      · rw [if_pos hover] at h
        cases h
      · rw [if_neg hover] at h
        refine ⟨Nat.pos_of_ne_zero hzero, Nat.not_lt.mp hover, ?_⟩
        exact (Prod.mk.inj (Except.ok.inj h)).1.symm

theorem mem_numberedIds {id : StepId} : id ∈ ws.numberedIds ↔ id ∈ ws.stepIds ∧ id ≠ .qed := by
  simp [numberedIds, StepId.isQed]

/-- A step is renamed to a multiple of the interval within the range, or it is `qed`. -/
theorem newNames_cases (interval : Nat) {id : StepId} (h : id ∈ ws.stepIds) :
    (id = .qed ∧ (ws.newNames interval).apply id = .qed) ∨
      ∃ i, i < ws.numberedIds.length ∧ ws.numberedIds[i]? = some id ∧
        (ws.newNames interval).apply id = .number (interval * (i + 1)) := by
  by_cases hqed : id = .qed
  · subst hqed
    refine Or.inl ⟨rfl, Renaming.apply_of_not_mem ?_⟩
    exact fun hmem => (mem_numberedIds.mp hmem).2 rfl
  · obtain ⟨i, hi, happly⟩ := Renaming.apply_of_mem (mem_numberedIds.mpr ⟨h, hqed⟩)
    exact Or.inr ⟨i, (List.getElem?_eq_some_iff.mp hi).1, hi, happly⟩

/-- The name `qed` stays, and no other step gets it. -/
theorem newNames_eq_qed (ws : Worksheet) (interval : Nat) (id : StepId) :
    (ws.newNames interval).apply id = .qed ↔ id = .qed := by
  by_cases hmem : id ∈ ws.numberedIds
  · obtain ⟨i, -, happly⟩ := Renaming.apply_of_mem hmem
    rw [newNames, happly]
    simp [(mem_numberedIds.mp hmem).2]
  · rw [newNames, Renaming.apply_of_not_mem hmem]

/-- Different steps get different names. -/
theorem newNames_injOn (hpos : 0 < interval) {a b : StepId} (ha : a ∈ ws.stepIds)
    (hb : b ∈ ws.stepIds)
    (h : (ws.newNames interval).apply a = (ws.newNames interval).apply b) : a = b := by
  obtain ⟨rfl, ha'⟩ | ⟨i, -, hi, ha'⟩ := newNames_cases interval ha
  · rw [ha'] at h
    exact ((newNames_eq_qed ws interval b).mp h.symm).symm
  · obtain ⟨rfl, hb'⟩ | ⟨j, -, hj, hb'⟩ := newNames_cases interval hb
    · rw [hb'] at h
      exact (newNames_eq_qed ws interval a).mp h
    · rw [ha', hb', StepId.number.injEq] at h
      have : i = j := by
        have := Nat.eq_of_mul_eq_mul_left hpos h
        omega
      subst this
      exact Option.some.inj (hi.symm.trans hj)

end Worksheet

end ProofSheet
