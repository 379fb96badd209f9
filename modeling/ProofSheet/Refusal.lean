import ProofSheet.Message

set_option autoImplicit false

/-! # Refusals

An operation on a worksheet that has been read either succeeds or is refused. -/

namespace ProofSheet

/-- What is wrong with an edit whose steps all exist. -/
inductive EditDefect where
  /-- The outcome of unification is recorded for a step that is not derived. -/
  | notDerivation (step : Text)
  /-- A derived step would stand before a hypothesis. -/
  | beforeHypothesis (step : Text)
  /-- A `$d` statement would have fewer than two variables. -/
  | tooFewVariables
deriving DecidableEq, Repr, Inhabited

/-- The wording of an edit's defect. -/
def EditDefect.message : EditDefect → String
  | notDerivation step => "step " ++ String.ofList step ++ " is not a derivation step"
  | beforeHypothesis step =>
    "a derived step cannot go before hypothesis steps (before step " ++ String.ofList step ++ ")"
  | tooFewVariables => "a $d statement needs at least two variables"

/-- Why an operation is refused. -/
inductive Refusal where
  /-- The worksheet was not read to its end. -/
  | structurallyBroken
  /-- The step does not exist. -/
  | unknownStep (step : Text)
  /-- The theorem is not in the database. -/
  | unknownTheorem (label : Text)
  /-- The interval of a renumbering is zero. -/
  | zeroInterval
  /-- The greatest new step number would not fit. -/
  | renumberOverflow (interval : Nat)
  /-- The edit cannot be applied. -/
  | invalidEdit (defect : EditDefect)
  /-- The request was called off. -/
  | cancelled
  /-- The processor that should have computed edits failed. -/
  | processorFailed (reason : String)
deriving DecidableEq, Repr, Inhabited

/-- The wording of a refusal. -/
def Refusal.message : Refusal → String
  | structurallyBroken => "the worksheet has structural errors; fix them before continuing"
  | unknownStep step => "step " ++ quoted step ++ " does not exist"
  | unknownTheorem label => "theorem " ++ quoted label ++ " is not in the database"
  | zeroInterval => "renumber interval must be positive"
  | renumberOverflow interval =>
    "renumbering with interval " ++ toString interval ++ " overflows the step number range"
  | invalidEdit defect => "invalid edit: " ++ defect.message
  | cancelled => "the request was cancelled"
  | processorFailed reason => "processor failed: " ++ reason

end ProofSheet
