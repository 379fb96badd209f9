import ProofSheet.Selector

set_option autoImplicit false

/-! # The first candidates of a search

A selector that is offered candidates holds the first of them, as many as its limit allows
(`Selector.Holds`). An offer keeps this (`Selector.Holds.offer`), also at and beyond the limit, and
so does a run of offers (`Selector.Holds.offerAll`). What a search is told after each offer and the
results in the end follow from what the selector holds (`Selector.isSelection_offerAll`).
-/

namespace ProofSheet

/-- A candidate that is offered, with the lines that show it. -/
abbrev Offer (α : Type) : Type := α × List Text

/-- The row of the results that shows the candidate. -/
def Offer.item {α : Type} (o : Offer α) : SelectorItem α := { candidate := some o.1, lines := o.2 }

namespace Selector

variable {α : Type}

/-- Offers candidates one after the other: the answers, and the selector in the end. -/
def offerAll (s : Selector α) : List (Offer α) → List Bool × Selector α
  | [] => ([], s)
  | (candidate, lines) :: rest =>
    let (full, s') := s.offer candidate lines
    let (answers, s'') := s'.offerAll rest
    (full :: answers, s'')

/-- What a search is told about its offers, and its results, if there is a limit on them. -/
structure IsSelection (limit : Nat) (offers : List (Offer α)) (answers : List Bool)
    (results : List (SelectorItem α)) : Prop where
  /-- The offer with number `i`, counted from one, is told that the selector is full exactly if
  `i` reaches the limit. -/
  answered : answers = (List.range' 1 offers.length).map fun i => decide (limit ≤ i)
  /-- The first offers in their order, and after them a sentinel that tells whether the limit has
  been reached. -/
  kept : ∃ sentinel : SelectorItem α,
    results = (offers.take (min limit offers.length)).map Offer.item ++ [sentinel] ∧
      sentinel.isSentinel = true ∧
      (sentinel.lines = [moreLine] ↔ limit ≤ offers.length) ∧
      (sentinel.lines = [endLine] ↔ offers.length < limit)
  /-- There is no other sentinel among the results. -/
  single : results.countP SelectorItem.isSentinel = 1

/-! ## What a selector holds -/

/-- The selector has the limit and holds the first of the candidates that were offered. -/
structure Holds (s : Selector α) (limit : Nat) (offered : List (Offer α)) : Prop where
  bound : s.limit = limit
  items : s.items = (offered.take limit).map Offer.item

variable {s : Selector α} {limit : Nat} {offered : List (Offer α)}

/-- A new selector holds nothing. -/
theorem holds_new (limit : Nat) : ({ limit := limit } : Selector α).Holds limit [] where
  bound := rfl
  items := by rw [List.take_nil, List.map_nil]

/-- A selector is full once as many candidates were offered as its limit allows. -/
theorem Holds.isFull (h : s.Holds limit offered) :
    s.isFull = decide (limit ≤ offered.length) := by
  have hlength : s.items.length = min limit offered.length := by
    rw [h.items, List.length_map, List.length_take]
  rw [Selector.isFull, hlength, h.bound]
  refine decide_eq_decide.mpr ?_
  omega

/-- An offer for which there is room is held too, and any other is dropped. -/
theorem Holds.add (h : s.Holds limit offered) (candidate : α) (lines : List Text) :
    (s.add candidate lines).Holds limit (offered ++ [(candidate, lines)]) := by
  rw [Selector.add, h.isFull]
  by_cases hroom : limit ≤ offered.length
  · -- the limit has been reached, and the offer is not among the first ones
    rw [if_pos (decide_eq_true hroom)]
    refine ⟨h.bound, ?_⟩
    rw [h.items, List.take_append_of_le_length hroom]
  · rw [if_neg (by simpa using hroom)]
    refine ⟨h.bound, ?_⟩
    show s.items ++ [Offer.item (candidate, lines)] = _
    have hall : offered.take limit = offered := List.take_of_length_le (by omega)
    have hlength : (offered ++ [(candidate, lines)]).length ≤ limit := by
      rw [List.length_append, List.length_singleton]
      omega
    rw [h.items, hall, List.take_of_length_le hlength, List.map_append, List.map_singleton]

/-- An offer is told whether the limit is reached with it. -/
theorem Holds.offer (h : s.Holds limit offered) (candidate : α) (lines : List Text) :
    (s.offer candidate lines).1 = decide (limit ≤ offered.length + 1) ∧
      (s.offer candidate lines).2.Holds limit (offered ++ [(candidate, lines)]) := by
  have hadd := h.add candidate lines
  refine ⟨?_, hadd⟩
  show (s.add candidate lines).isFull = _
  rw [hadd.isFull, List.length_append, List.length_singleton]

/-- In a run of offers each is told so, where the offers before the run count too. -/
theorem Holds.offerAll (h : s.Holds limit offered) (offers : List (Offer α)) :
    (s.offerAll offers).1 =
        (List.range' (offered.length + 1) offers.length).map (fun i => decide (limit ≤ i)) ∧
      (s.offerAll offers).2.Holds limit (offered ++ offers) := by
  induction offers generalizing s offered with
  | nil =>
      rw [List.append_nil]
      exact ⟨rfl, h⟩
  | cons o rest ih =>
      obtain ⟨candidate, lines⟩ := o
      obtain ⟨hanswer, hholds⟩ := h.offer candidate lines
      obtain ⟨hanswers, hrest⟩ := ih hholds
      rw [List.append_assoc] at hrest
      rw [List.length_append, List.length_singleton] at hanswers
      refine ⟨?_, hrest⟩
      show (s.offer candidate lines).1 :: ((s.offer candidate lines).2.offerAll rest).1 = _
      rw [hanswer, hanswers, List.length_cons, List.range'_succ, List.map_cons]

/-! ## The results -/

@[simp] theorem isSentinel_item (o : Offer α) : o.item.isSentinel = false := rfl

/-- No row that shows a candidate is a sentinel. -/
theorem countP_isSentinel_items (offers : List (Offer α)) :
    (offers.map Offer.item).countP SelectorItem.isSentinel = 0 := by
  refine List.countP_eq_zero.mpr fun item hitem => ?_
  obtain ⟨o, -, rfl⟩ := List.mem_map.mp hitem
  simp

/-- The results are what the selector holds, and the sentinel. -/
theorem Holds.results (h : s.Holds limit offered) :
    s.results = (offered.take (min limit offered.length)).map Offer.item ++
      [{ candidate := none, lines := [if limit ≤ offered.length then moreLine else endLine] }] := by
  have hfirst : offered.take (min limit offered.length) = offered.take limit := by
    rw [← List.take_take, List.take_length]
  rw [Selector.results, h.isFull, h.items, hfirst]
  by_cases hfull : limit ≤ offered.length
  · simp [hfull]
  · simp [hfull]

/-- The two lines that a sentinel may have tell how the search ended. -/
theorem sentinelLines_iff (p : Prop) [Decidable p] :
    ([if p then moreLine else endLine] = [moreLine] ↔ p) ∧
      ([if p then moreLine else endLine] = [endLine] ↔ ¬ p) := by
  have hne : moreLine ≠ endLine := by decide
  by_cases hp : p
  · simp [hp, hne]
  · simp [hp, hne.symm]

/-- Candidates that are offered to a new selector, one after the other: every offer is told whether
the limit has been reached, and the results are the first offers, as many as the limit allows, and
one sentinel. -/
theorem isSelection_offerAll (limit : Nat) (offers : List (Offer α)) :
    let run := ({ limit := limit } : Selector α).offerAll offers
    IsSelection limit offers run.1 run.2.results := by
  intro run
  obtain ⟨hanswers, hholds⟩ := (holds_new (α := α) limit).offerAll offers
  rw [List.nil_append] at hholds
  obtain ⟨hmore, hend⟩ := sentinelLines_iff (limit ≤ offers.length)
  refine ⟨?_, ⟨_, hholds.results, rfl, hmore, hend.trans Nat.not_le⟩, ?_⟩
  · rw [hanswers, List.length_nil, Nat.zero_add]
  · rw [hholds.results, List.countP_append, countP_isSentinel_items]
    rfl

/-- A selector whose limit is zero is full from the start. -/
example : ({ limit := 0 } : Selector Nat).offerAll [(7, [])] = ([true], { limit := 0 }) := rfl

end Selector

end ProofSheet
