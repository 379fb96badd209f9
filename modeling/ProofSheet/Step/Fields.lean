import ProofSheet.Step.Basic

set_option autoImplicit false

/-! # The fields of a step

A step begins with a token of three fields, separated by colons: `step:hyps:ref`. A hypothesis
has the letter `h` in front. Fields missing at the end are blank, and there are two short
forms: `h1:ref` is `h1::ref`, and `2:#1` is `2::#1`. The second half of the file writes the
token for given fields.
-/

namespace ProofSheet

/-- The three fields of a step. -/
structure StepFields where
  step : Text
  hyps : Text := []
  ref : Text := []
deriving DecidableEq, Repr, Inhabited

namespace StepFields

/-- The fields of a hypothesis, from its first token without the letter. -/
def ofHypothesis? (t : Text) : Option StepFields :=
  match t.splitOn ':' with
  | [step] => some { step }
  | [step, ref] => some { step, ref }
  | [step, hyps, ref] => some { step, hyps, ref }
  | _ => none

/-- The fields of a derivation step, from its first token. -/
def ofDerivation? (t : Text) : Option StepFields :=
  match t.splitOn ':' with
  | [step] => some { step }
  | [step, field] =>
    if field.head? = some '#' then some { step, ref := field } else some { step, hyps := field }
  | [step, hyps, ref] => some { step, hyps, ref }
  | _ => none

end StepFields

/-- A label field: blank and `?` mean that there is no label. -/
def readLabel (field : Text) : Option Text :=
  let label := trim field
  if label = [] ∨ label = ['?'] then none else some label

/-- Reads one entry of a hypothesis list, already trimmed. A step must be one of the earlier
ones. -/
def readCitation (earlier : List StepId) (entry : Text) : Except Cause Citation :=
  match entry with
  | [] | ['?'] => .ok .unknown
  | ['#'] => .error .emptyLocalRef
  | '#' :: target => .ok (.localRef target)
  | _ =>
    match StepId.read entry with
    | .ok id => if id ∈ earlier then .ok (.step id) else .error (.unknownHypStep entry)
    | .error _ => .error (.unknownHypStep entry)

/-- Reads a hypothesis list. A blank field is the empty list. -/
def readCitations (earlier : List StepId) (field : Text) : Except Cause (List Citation) :=
  if trim field = [] then .ok []
  else ((field.splitOn ',').map trim).mapM (readCitation earlier)

/-- Reads the last field of a derivation step: a label, or the target of a local reference. -/
def readReference (id : StepId) (field : Text) : Except Cause (Option Text × Option Text) :=
  match field with
  | ['#'] => .error .emptyLocalRef
  | '#' :: target => if id.isQed then .error .qedLocalRef else .ok (none, some target)
  | _ => .ok (readLabel field, none)

/-- The first token of a hypothesis, written from its fields. -/
def Step.hypothesisLead (s : Step) : Text :=
  'h' :: s.id.text ++ ':' :: ':' :: s.ref.getD []

/-- The last field of a derivation step. -/
def Derivation.referenceText (d : Derivation) : Text :=
  match d.localRef, d.ref with
  | some target, _ => '#' :: target
  | none, some label => label
  | none, none => []

/-- The first token of a derivation step, written from its fields. -/
def Derivation.lead (d : Derivation) : Text :=
  d.id.text ++ ':' :: joinWith ',' (d.hyps.map Citation.text) ++ ':' :: d.referenceText

end ProofSheet
