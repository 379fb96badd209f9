import ProofSheet.Fault
import ProofSheet.Step.Id

set_option autoImplicit false

/-! # Notes

A note is a message that does not end the reading of a worksheet: something in it is doubtful
or is ignored. Where the header has not named a theorem, a note names it `?`.
-/

namespace ProofSheet

/-- A remark about one statement. -/
inductive Note where
  /-- The formula of a step has the wrong type code. -/
  | formulaType (step expected found : Text)
  /-- A hypothesis has no formula. -/
  | hypothesisWithoutFormula (step : Text)
  /-- The place of a theorem that the database has is ignored. -/
  | locAfterIgnored (label : Text)
deriving DecidableEq, Repr, Inhabited

/-- The theorem as notes name it. -/
def theoremName (label : Option Text) : String := String.ofList (label.getD ['?'])

namespace Note

/-- The code under which a note is reported. -/
def code : Note → String
  | formulaType _ _ _ => "E-PA-0601"
  | hypothesisWithoutFormula _ => "E-PA-0602"
  | locAfterIgnored _ => "I-PA-0701"

/-- The wording of a note. -/
def wording : Note → String
  | formulaType step expected found =>
    "Step " ++ String.ofList step ++ ": formula must begin with " ++ quoted expected ++
      ", found " ++ quoted found
  | hypothesisWithoutFormula step =>
    "Step " ++ String.ofList step ++ ": hypothesis step has no formula"
  | locAfterIgnored label =>
    "LOC_AFTER=" ++ String.ofList label ++ " is ignored for an existing theorem"

/-- The message of a note about the token at a position. -/
def toMessage (n : Note) (theoremLabel : Option Text) (p : Position) (span : Span) : Message :=
  { code := n.code
    text := "Theorem " ++ theoremName theoremLabel ++ " (" ++ p.describe ++ "): " ++ n.wording
    span := some span }

end Note

/-- The message that a local reference and the step it stands for have different formulas. -/
def formulaMismatch (theoremLabel : Option Text) (step target : StepId) (span : Span) : Message :=
  { code := "E-PA-0603"
    text := "Theorem " ++ theoremName theoremLabel ++ " Step " ++ String.ofList step.text ++
      ": formula differs from local reference target step " ++ String.ofList target.text
    span := some span }

end ProofSheet
