import ProofSheet.Statement.Basic

set_option autoImplicit false

/-! # Fields of a statement

The caret of an editor stands in a field of a statement: in the step number, the hypothesis
list, the label or the formula of a proof step, or simply in the text of anything else. In a
lead the fields are told apart by its colons. Offsets count from the start of the statement.
-/

namespace ProofSheet

/-- A part of a statement that a caret can be in. -/
inductive Field where
  | text
  | step
  | hyps
  | ref
  | formula
deriving DecidableEq, Repr, Inhabited

/-- The offset after the colon that has `n` colons before it, or the end if there is none. -/
def afterColon : Nat → Text → Nat
  | _, [] => 0
  | 0, c :: rest => if c = ':' then 1 else 1 + afterColon 0 rest
  | n + 1, c :: rest => 1 + afterColon (if c = ':' then n else n + 1) rest

namespace Statement

/-- Where a field of the statement begins. A formula that is not there begins at the end of the
lead. -/
def fieldOffset (s : Statement) : Field → Nat
  | .text => 0
  | .step => if s.isHypothesis then 1 else 0
  | .hyps => afterColon 0 s.lead
  | .ref => afterColon 1 s.lead
  | .formula =>
    let blanks := (s.tail.takeWhile isBlank).length
    if blanks = s.tail.length then s.lead.length else s.lead.length + blanks

/-- The field that an offset is in. -/
def fieldAt (s : Statement) (offset : Nat) : Field :=
  if !s.isStep then .text
  else if s.lead.length < offset then .formula
  else
    match (s.lead.take offset).count ':' with
    | 0 => .step
    | 1 => .hyps
    | _ => .ref

end Statement

end ProofSheet
