import ProofSheet.Note
import ProofSheet.Worksheet.Reading

set_option autoImplicit false

/-! # Local references

A derivation step whose label field is `#x` stands for the first earlier step whose id or
label is `x`. Steps that cite it are made to cite that step, and it is removed. An entry `#x`
in a hypothesis list is resolved in the same way. A local reference may not point at another.

The statements are resolved in one pass. If a reference cannot be resolved, the pass stops, and
the entries that were resolved before stay so, while all leads stay as they were written.
-/

namespace ProofSheet

/-- What a later step can refer to. -/
structure Citable where
  id : StepId
  ref : Option Text
  formula : Option Formula
  isLocalRef : Bool
deriving DecidableEq, Repr, Inhabited

namespace Citable

/-- The id or the label of the step is the target. -/
def isNamed (c : Citable) (target : Text) : Bool := c.id.text == target || c.ref == some target

/-- The first of the earlier steps with the target's name, which may not be a local reference. -/
def find (earlier : List Citable) (target : Text) : Except Cause Citable :=
  match earlier.find? (·.isNamed target) with
  | none => .error (.localRefNotFound target)
  | some c => if c.isLocalRef then .error (.chainedLocalRef target) else .ok c

end Citable

/-- What is known in the middle of the pass. -/
structure Resolution where
  earlier : List Citable := []
  /-- Local references and the steps they stand for. -/
  redirects : List (StepId × StepId) := []
  /-- The statements that are local references. -/
  removed : List StatementId := []
  messages : List Message := []
deriving DecidableEq, Repr, Inhabited

namespace Resolution

/-- Resolves one entry of a hypothesis list. -/
def resolveCitation (r : Resolution) : Citation → Except Cause Citation
  | .localRef target => (Citable.find r.earlier target).map (.step ·.id)
  | .step id => .ok (.step ((r.redirects.lookup id).getD id))
  | .unknown => .ok .unknown

/-- Resolves a hypothesis list up to the first entry that fails, and gives the cause if one
does. -/
def resolveCitations (r : Resolution) : List Citation → List Citation × Option Cause
  | [] => ([], none)
  | entry :: rest =>
    match r.resolveCitation entry with
    | .error cause => (entry :: rest, some cause)
    | .ok entry' =>
      let (rest', failure) := r.resolveCitations rest
      (entry' :: rest', failure)

/-- Remembers a step that later ones can refer to. -/
def remember (r : Resolution) (s : Step) (isLocalRef : Bool) : Resolution :=
  let c : Citable := { id := s.id, ref := s.ref, formula := s.formula, isLocalRef := isLocalRef }
  { r with earlier := r.earlier ++ [c] }

/-- The span that faults of a step's references are reported for: from the start of the step, as
long as its lead is in bytes. -/
def leadSpan (s : Statement) : Span := ⟨s.start, s.start + utf8Length s.lead⟩

/-- The fault of a reference in a derivation step. -/
def fault (s : Statement) (d : Derivation) (cause : Cause) : Fault :=
  { cause := cause, step := some d.id.text, position := some s.position, span := some (leadSpan s) }

/-- Resolves a derivation step that is itself a local reference, if it is one. The formulas of
the step and of what it stands for should not differ. -/
def resolveStep (r : Resolution) (theoremLabel : Option Text) (s : Statement) (d : Derivation) :
    Except Cause Resolution :=
  match d.localRef with
  | none => .ok (r.remember d.toStep false)
  | some target =>
    match Citable.find r.earlier target with
    | .error cause => .error cause
    | .ok found =>
      let differ := d.formula.isSome && found.formula.isSome && d.formula != found.formula
      let message := formulaMismatch theoremLabel d.id found.id (leadSpan s)
      let r :=
        { r with
          redirects := r.redirects ++ [(d.id, found.id)]
          removed := r.removed ++ [s.id]
          messages := if differ then r.messages ++ [message] else r.messages }
      .ok (r.remember d.toStep true)

/-- Resolves one statement. -/
def resolveStatement (r : Resolution) (theoremLabel : Option Text) (s : Statement) :
    Statement × Except Fault Resolution :=
  match s.derivation?, s.step? with
  | some d, _ =>
    let (hyps, failure) := r.resolveCitations d.hyps
    let s' := s.mapDerivation ({ · with hyps := hyps })
    match failure with
    | some cause => (s', .error (fault s d cause))
    | none => (s', (r.resolveStep theoremLabel s d).mapError (fault s d))
  | none, some step => (s, .ok (r.remember step false))
  | none, none => (s, .ok r)

/-- Resolves statements up to the first that fails. -/
def resolveAll (r : Resolution) (theoremLabel : Option Text) :
    List Statement → List Statement × Except Fault Resolution
  | [] => ([], .ok r)
  | s :: rest =>
    match r.resolveStatement theoremLabel s with
    | (s', .error f) => (s' :: rest, .error f)
    | (s', .ok r') =>
      let (rest', outcome) := r'.resolveAll theoremLabel rest
      (s' :: rest', outcome)

end Resolution

namespace Worksheet

/-- Resolves all local references and removes the steps that are local references. The leads of
steps with resolved entries are written anew. -/
def resolveLocalRefs (ws : Worksheet) : Reading :=
  let (resolved, outcome) := Resolution.resolveAll {} ws.theoremLabel ws.statements
  match outcome with
  | .error f => .error { sheet := { ws with statements := resolved }, fault := f }
  | .ok r =>
    let refresh (old new : Statement) := if new.content = old.content then new else new.refreshLead
    let ws :=
      { ws with
        statements := List.zipWith refresh ws.statements resolved
        messages := ws.messages ++ r.messages }
    .ok (ws.respan.remove r.removed)

end Worksheet

end ProofSheet
