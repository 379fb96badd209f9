import ProofSheet.Compressed.Proof
import ProofSheet.Step.Fields

set_option autoImplicit false

/-! # Statements

A worksheet consists of statements. Each keeps its text, so that what is not edited is written
back as it was read, together with what the text says, its content. The text is in two parts:
the lead, which is the first token, and the tail after it, with all line ends up to the next
statement. Edits of a step's fields renew the lead, edits of its formula the tail.
-/

namespace ProofSheet

/-- Names a statement for the life of a worksheet, wherever it moves. Ids are numbered from zero
without an end. A count of 32 bits gives the same ids as long as a worksheet gives fewer than
`2 ^ 32` of them; how many it gives is `Worksheet.nextId_afterCalls`. -/
abbrev StatementId := Nat

/-- A header, `$( <MM> <PROOF_ASST> THEOREM=label LOC_AFTER=label`. -/
structure Header where
  label : Text
  /-- The label after which a new theorem is to stand. -/
  locAfter : Option Text
deriving DecidableEq, Repr, Inhabited

/-- What stands between `$=` and `$.`. -/
inductive ProofBody where
  | compressed (p : CompressedProof)
  /-- Labels in postfix order. -/
  | normal (labels : List Text)
deriving DecidableEq, Repr, Inhabited

/-- What a statement says. -/
inductive Content where
  | header (h : Header)
  | footer
  /-- The text after the `*`, without blanks at the end. -/
  | comment (text : Text)
  /-- Variables that must be pairwise distinct. -/
  | distinctVars (vars : List Text)
  | hypothesis (s : Step)
  | derivation (d : Derivation)
  | proof (body : ProofBody)
deriving DecidableEq, Repr, Inhabited

namespace Content

/-- The common part of a hypothesis or derivation step. -/
def step? : Content → Option Step
  | hypothesis s => some s
  | derivation d => some d.toStep
  | _ => none

/-- The derivation step, if it is one. -/
def derivation? : Content → Option Derivation
  | derivation d => some d
  | _ => none

/-- Changes the common part of a step. -/
def mapStep (f : Step → Step) : Content → Content
  | hypothesis s => hypothesis (f s)
  | derivation d => derivation { d with toStep := f d.toStep }
  | c => c

/-- Changes a derivation step. -/
def mapDerivation (f : Derivation → Derivation) : Content → Content
  | derivation d => derivation (f d)
  | c => c

/-- The first token that a step's fields amount to. -/
def lead? : Content → Option Text
  | hypothesis s => some s.hypothesisLead
  | derivation d => some d.lead
  | _ => none

end Content

/-- A statement with its text and the place where it begins. -/
structure Statement where
  id : StatementId
  content : Content
  lead : Text
  tail : Text
  start : Nat := 0
  position : Position := {}
deriving DecidableEq, Repr, Inhabited

namespace Statement

/-- The text of the statement. -/
def text (s : Statement) : Text := s.lead ++ s.tail

/-- The offset after the statement. -/
def stop (s : Statement) : Nat := s.start + s.text.length

/-- The number of lines that the statement takes. -/
def lineCount (s : Statement) : Nat :=
  let rest := if s.text.getLast?.all (· == '\n') then 0 else 1
  max (lineFeeds s.text + rest) 1

/-- The common part of a proof step. -/
def step? (s : Statement) : Option Step := s.content.step?

/-- The derivation step, if it is one. -/
def derivation? (s : Statement) : Option Derivation := s.content.derivation?

/-- The name of a proof step. -/
def stepId? (s : Statement) : Option StepId := s.step?.map Step.id

/-- The statement is a hypothesis or derivation step. -/
def isStep (s : Statement) : Bool := s.step?.isSome

/-- The statement is the header. -/
def isHeader (s : Statement) : Bool := s.content matches .header _

/-- The statement is the footer. -/
def isFooter (s : Statement) : Bool := s.content matches .footer

/-- The statement is a `$d` statement. -/
def isDistinctVars (s : Statement) : Bool := s.content matches .distinctVars _

/-- The statement is a hypothesis step. -/
def isHypothesis (s : Statement) : Bool := s.content matches .hypothesis _

/-- The statement is the generated proof. -/
def isProof (s : Statement) : Bool := s.content matches .proof _

/-- The statement is a derivation step that needs work. -/
def isIncomplete (s : Statement) : Bool := s.derivation?.any Derivation.isIncomplete

/-- Changes the common part of a proof step, and leaves the text alone. -/
def mapStep (f : Step → Step) (s : Statement) : Statement :=
  { s with content := s.content.mapStep f }

/-- Changes a derivation step, and leaves the text alone. -/
def mapDerivation (f : Derivation → Derivation) (s : Statement) : Statement :=
  { s with content := s.content.mapDerivation f }

/-- Writes the lead of a step anew from its fields. -/
def refreshLead (s : Statement) : Statement := { s with lead := s.content.lead?.getD s.lead }

/-- Writes a new body after the lead. The blanks at the end of the statement stay if they end a
line; otherwise one line feed takes their place. -/
def replaceBody (body : Text) (s : Statement) : Statement :=
  let blanks := trailingBlanks s.tail
  let ending := if blanks.contains '\n' then blanks else ['\n']
  { s with tail := ' ' :: body ++ ending }

end Statement

end ProofSheet
