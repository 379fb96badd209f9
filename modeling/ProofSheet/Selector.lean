import ProofSheet.Settings

set_option autoImplicit false

/-! # The step selector

A search for assertions that could justify a step offers candidates to a selector until it is
full. The results end with a sentinel that tells whether the search was cut short.
-/

namespace ProofSheet

/-- A row of the results: a candidate with the lines that show it, or the sentinel. -/
structure SelectorItem (α : Type) where
  candidate : Option α
  lines : List Text
deriving DecidableEq, Repr, Inhabited

/-- The row is the sentinel. -/
def SelectorItem.isSentinel {α : Type} (i : SelectorItem α) : Bool := i.candidate.isNone

/-- Candidates, at most as many as the limit allows. -/
structure Selector (α : Type) where
  limit : Nat
  items : List (SelectorItem α) := []
deriving DecidableEq, Repr, Inhabited

namespace Selector

variable {α : Type}

/-- An empty selector with the limit of the settings. -/
def ofSettings (st : Settings) : Selector α := { limit := st.selectorMaxResults }

/-- No further candidate is taken. -/
def isFull (s : Selector α) : Bool := s.limit ≤ s.items.length

/-- Offers a candidate, which a full selector drops. -/
def add (s : Selector α) (candidate : α) (lines : List Text) : Selector α :=
  if s.isFull then s
  else { s with items := s.items ++ [{ candidate := some candidate, lines := lines }] }

/-- Offers a candidate. The answer is whether the selector is full now. -/
def offer (s : Selector α) (candidate : α) (lines : List Text) : Bool × Selector α :=
  let s' := s.add candidate lines
  (s'.isFull, s')

/-- The line of the sentinel when there may be more candidates. -/
def moreLine : Text := "***MORE***".toList

/-- The line of the sentinel when these are all candidates. -/
def endLine : Text := "***END***".toList

/-- The candidates in the order in which they were offered, and the sentinel. -/
def results (s : Selector α) : List (SelectorItem α) :=
  s.items ++ [{ candidate := none, lines := [if s.isFull then moreLine else endLine] }]

end Selector

end ProofSheet
