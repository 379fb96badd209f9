import ProofSheet.Text.Blank

set_option autoImplicit false

/-! # Settings

Every setting has a default. Settings that a user supplies are checked; the first defect that
is found, in the order of the fields, is reported. -/

namespace ProofSheet

/-- Where the caret goes when it is not in any statement. -/
inductive CaretPlacement where
  | firstIncomplete
  | lastIncomplete
  /-- It stays at the offset where it was. -/
  | asIs
deriving DecidableEq, Repr, Inhabited

/-- The settings of a session. -/
structure Settings where
  caretPlacement : CaretPlacement := .firstIncomplete
  renumberInterval : Nat := 1
  /-- The number of candidates that a step search keeps. -/
  selectorMaxResults : Nat := 50
  /-- The type code that formulas of steps begin with. -/
  provableType : Text := ['|', '-']
  /-- The right margin of generated proofs. -/
  proofTextWidth : Nat := 79
  /-- The indent of their continuation lines. -/
  proofIndent : Nat := 4
deriving DecidableEq, Repr, Inhabited

/-- What is wrong with settings. -/
inductive SettingsDefect where
  | zeroRenumberInterval
  | zeroSelectorMaxResults
  | blankProvableType
  | indentBeyondWidth (width : Nat)
deriving DecidableEq, Repr, Inhabited

namespace SettingsDefect

/-- The setting that has the defect. -/
def setting : SettingsDefect → String
  | zeroRenumberInterval => "renumber_interval"
  | zeroSelectorMaxResults => "step_selector_max_results"
  | blankProvableType => "provable_type"
  | indentBeyondWidth _ => "proof_indent"

/-- What the setting ought to be. -/
def demand : SettingsDefect → String
  | zeroRenumberInterval => "must be at least 1"
  | zeroSelectorMaxResults => "must be at least 1"
  | blankProvableType => "must not be blank"
  | indentBeyondWidth width =>
    "must be less than proof_text_width (" ++ toString width ++ ")"

/-- The wording of a defect. -/
def message (d : SettingsDefect) : String :=
  "invalid setting '" ++ d.setting ++ "': " ++ d.demand

end SettingsDefect

namespace Settings

/-- The first defect of the settings. -/
def defect? (s : Settings) : Option SettingsDefect :=
  if s.renumberInterval = 0 then some .zeroRenumberInterval
  else if s.selectorMaxResults = 0 then some .zeroSelectorMaxResults
  else if trim s.provableType = [] then some .blankProvableType
  else if s.proofTextWidth ≤ s.proofIndent then some (.indentBeyondWidth s.proofTextWidth)
  else none

end Settings

end ProofSheet
