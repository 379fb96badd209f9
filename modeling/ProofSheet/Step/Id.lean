import ProofSheet.Fault
import ProofSheet.Text.Blank

set_option autoImplicit false

/-! # Step ids

A proof step is named by a positive number below 2³² or, for the last one, by `qed`. -/

namespace ProofSheet

/-- The name of a proof step. -/
inductive StepId where
  | number (n : Nat)
  | qed
deriving DecidableEq, Repr, Inhabited

namespace StepId

/-- The greatest step number. -/
def maxNumber : Nat := 0xFFFFFFFF

/-- The name of the last step. -/
def qedName : Text := ['q', 'e', 'd']

/-- The id as it is written. -/
def text : StepId → Text
  | number n => decimal n
  | qed => qedName

/-- The id is `qed`. -/
def isQed (id : StepId) : Bool := id == qed

/-- Reads the step field of a statement. Blanks around the id do not count, `qed` may have
letters of either case, and a number may have leading zeros. -/
def read (field : Text) : Except Cause StepId :=
  let name := trim field
  if name = [] ∨ name = ['?'] then .error .missingStepId
  else if sameLetters name qedName then .ok .qed
  else
    match readDecimal name with
    | some n => if 0 < n ∧ n ≤ maxNumber then .ok (.number n) else .error (.invalidStepId name)
    | none => .error (.invalidStepId name)

end StepId

end ProofSheet
