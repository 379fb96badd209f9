import ProofSheet.Message
import ProofSheet.Text.Position

set_option autoImplicit false

/-! # Structural faults

A fault ends the reading of a worksheet. It has a cause and the context that is known of it:
the theorem, the step, and the place in the text. Its message puts the context in front of
the wording of the cause. Codes `01xx` are about the outline of the worksheet, `02xx` about
steps, `03xx` about local references, `04xx` about the worksheet as a whole, and `05xx` about
the generated proof; `09xx` is a broken promise of the program itself.
-/

namespace ProofSheet

/-- Why a worksheet cannot be read. -/
inductive Cause where
  /-- A statement begins after leading separators. -/
  | notFirstColumn
  /-- There are no tokens. -/
  | emptyWorksheet
  /-- The first statement is not a header. -/
  | missingHeader
  /-- There are two headers. -/
  | duplicateHeader
  /-- A field of the header is not what its layout asks for; nothing is found at its end. -/
  | malformedHeader (expected found : Text)
  /-- The header leaves the theorem blank. -/
  | missingTheoremLabel
  /-- A new theorem is to stand after a label that is not in the database. -/
  | unknownLocAfter (label : Text)
  /-- The text ends before the footer. -/
  | missingFooter
  /-- The footer comes before `qed`. -/
  | footerBeforeQed
  /-- Something follows the footer. -/
  | textAfterFooter
  /-- A token in the first column begins no known statement. -/
  | unrecognizedStatement (token : Text)
  /-- The step number is blank. -/
  | missingStepId
  /-- The step number is not a positive number in range. -/
  | invalidStepId (field : Text)
  /-- Two steps have the same number. -/
  | duplicateStepId (field : Text)
  /-- A hypothesis is named `qed`. -/
  | hypothesisQed
  /-- A step begins with more than three fields. -/
  | tooManyFields (token : Text)
  /-- A hypothesis cites other steps. -/
  | hypothesisHasHyps
  /-- A hypothesis is a local reference. -/
  | hypothesisLocalRef
  /-- A step cites something that is not an earlier step. -/
  | unknownHypStep (entry : Text)
  /-- A step follows `qed`. -/
  | stepAfterQed (field : Text)
  /-- The text ends before `qed`. -/
  | missingQed
  /-- A `$d` statement has fewer than two variables. -/
  | distinctVarsTooFew
  /-- A `$d` statement repeats a variable. -/
  | distinctVarsRepeated (name : Text)
  /-- A hypothesis follows a derivation step. -/
  | hypothesisAfterDerivation (field : Text)
  /-- A local reference matches no earlier step. -/
  | localRefNotFound (target : Text)
  /-- A local reference points at another one. -/
  | chainedLocalRef (target : Text)
  /-- The step `qed` is a local reference. -/
  | qedLocalRef
  /-- A local reference names nothing. -/
  | emptyLocalRef
  /-- The worksheet and the theorem differ in the number of hypotheses. -/
  | hypCountMismatch (expected found : Nat)
  /-- A step search is asked for, but the caret is not on a derivation step. -/
  | caretNotOnStep
  /-- The generated proof does not end. -/
  | unterminatedProof
  /-- The generated proof cannot be read. -/
  | malformedProof (detail : String)
  /-- There are two generated proofs. -/
  | duplicateProof
  /-- The generated proof comes before `qed`. -/
  | proofBeforeQed
  /-- A promise of the program itself is broken. -/
  | internal (detail : String)
deriving DecidableEq, Repr, Inhabited

namespace Cause

/-- The code under which a cause is reported. -/
def code : Cause → String
  | notFirstColumn => "E-PA-0101"
  | emptyWorksheet => "E-PA-0102"
  | missingHeader => "E-PA-0103"
  | duplicateHeader => "E-PA-0104"
  | malformedHeader _ _ => "E-PA-0105"
  | missingTheoremLabel => "E-PA-0106"
  | unknownLocAfter _ => "E-PA-0107"
  | missingFooter => "E-PA-0108"
  | footerBeforeQed => "E-PA-0109"
  | textAfterFooter => "E-PA-0110"
  | unrecognizedStatement _ => "E-PA-0111"
  | missingStepId => "E-PA-0201"
  | invalidStepId _ => "E-PA-0202"
  | duplicateStepId _ => "E-PA-0203"
  | hypothesisQed => "E-PA-0204"
  | tooManyFields _ => "E-PA-0205"
  | hypothesisHasHyps => "E-PA-0206"
  | hypothesisLocalRef => "E-PA-0207"
  | unknownHypStep _ => "E-PA-0208"
  | stepAfterQed _ => "E-PA-0209"
  | missingQed => "E-PA-0210"
  | distinctVarsTooFew => "E-PA-0211"
  | distinctVarsRepeated _ => "E-PA-0212"
  | hypothesisAfterDerivation _ => "E-PA-0213"
  | localRefNotFound _ => "E-PA-0301"
  | chainedLocalRef _ => "E-PA-0302"
  | qedLocalRef => "E-PA-0303"
  | emptyLocalRef => "E-PA-0304"
  | hypCountMismatch _ _ => "E-PA-0401"
  | caretNotOnStep => "E-PA-0402"
  | unterminatedProof => "E-PA-0501"
  | malformedProof _ => "E-PA-0502"
  | duplicateProof => "E-PA-0503"
  | proofBeforeQed => "E-PA-0504"
  | internal _ => "A-PA-0901"

/-- The wording of a cause. -/
def message : Cause → String
  | notFirstColumn => "statement does not begin in column 1"
  | emptyWorksheet => "the worksheet is empty"
  | missingHeader => "the worksheet must begin with a header statement '$('"
  | duplicateHeader => "a second header statement '$(' was found"
  | malformedHeader expected found =>
    "malformed header: expected " ++ quoted expected ++ ", found " ++ quoted found
  | missingTheoremLabel => "the header does not name a theorem (THEOREM=<label>)"
  | unknownLocAfter label => "LOC_AFTER label " ++ quoted label ++ " is not in the database"
  | missingFooter => "end of input reached before the footer statement '$)'"
  | footerBeforeQed => "the footer statement '$)' was reached before a 'qed' step"
  | textAfterFooter => "text follows the footer statement '$)'"
  | unrecognizedStatement token => "unrecognized statement " ++ quoted token
  | missingStepId => "step number is missing or '?'"
  | invalidStepId field => "step number " ++ quoted field ++ " is not a positive integer"
  | duplicateStepId field => "step number " ++ quoted field ++ " is used more than once"
  | hypothesisQed => "a hypothesis step cannot be named 'qed'"
  | tooManyFields token =>
    "step prefix " ++ quoted token ++ " has more than three ':'-separated fields"
  | hypothesisHasHyps => "a hypothesis step cannot reference hypotheses"
  | hypothesisLocalRef => "a hypothesis step cannot use a '#' local reference"
  | unknownHypStep entry => "hypothesis " ++ quoted entry ++ " does not name a previous step"
  | stepAfterQed field => "step " ++ quoted field ++ " follows the 'qed' step"
  | missingQed => "no 'qed' step was found"
  | distinctVarsTooFew => "a '$d' statement needs at least two variables"
  | distinctVarsRepeated v => "variable " ++ quoted v ++ " is repeated in a '$d' statement"
  | hypothesisAfterDerivation field =>
    "hypothesis step " ++ quoted field ++ " follows a derivation step"
  | localRefNotFound target =>
    "local reference " ++ quoted ('#' :: target) ++
      " does not match a previous step number or label"
  | chainedLocalRef target =>
    "local reference " ++ quoted ('#' :: target) ++
      " points at a step that is itself a local reference"
  | qedLocalRef => "the 'qed' step cannot be a local reference"
  | emptyLocalRef => "local reference '#' is empty"
  | hypCountMismatch expected found =>
    "the worksheet has " ++ toString found ++ " hypothesis steps but the theorem has " ++
      toString expected
  | caretNotOnStep => "the cursor is not positioned on a derivation step"
  | unterminatedProof => "the generated proof is not terminated by '$.'"
  | malformedProof detail => "malformed compressed proof: " ++ detail
  | duplicateProof => "a second generated proof '$=' was found"
  | proofBeforeQed => "the generated proof '$=' appears before the 'qed' step"
  | internal detail => "internal error: " ++ detail

end Cause

/-- A cause with what is known of its context. -/
structure Fault where
  cause : Cause
  theoremLabel : Option Text := none
  step : Option Text := none
  position : Option Position := none
  span : Option Span := none
deriving DecidableEq, Repr, Inhabited

namespace Fault

/-- The known parts of the context: the theorem, the step, the position. -/
def context (f : Fault) : List String :=
  (f.theoremLabel.map ("Theorem " ++ String.ofList ·)).toList ++
    (f.step.map ("Step " ++ String.ofList ·)).toList ++
    (f.position.map fun p => "(" ++ p.describe ++ ")").toList

/-- The fault in one line: code, context, wording. -/
def describe (f : Fault) : String :=
  " ".intercalate (f.cause.code :: f.context) ++ ": " ++ f.cause.message

/-- The message that reports the fault; its code stands apart from the text. -/
def toMessage (f : Fault) : Message :=
  { code := f.cause.code
    text := " ".intercalate f.context ++ ": " ++ f.cause.message
    span := f.span }

end Fault

end ProofSheet
