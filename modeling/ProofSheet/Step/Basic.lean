import ProofSheet.Step.Formula
import ProofSheet.Step.Id

set_option autoImplicit false

/-! # Proof steps

A hypothesis step states a hypothesis of the theorem. A derivation step cites earlier steps
and names the assertion that justifies it, or stands for an earlier step as a local reference.
-/

namespace ProofSheet

/-- What hypothesis steps and derivation steps have in common. -/
structure Step where
  id : StepId
  /-- The label of the hypothesis or of the justifying assertion. -/
  ref : Option Text
  formula : Option Formula
  /-- The distance from `qed` in the proof tree. -/
  level : Nat := 0
deriving DecidableEq, Repr, Inhabited

/-- An entry in the hypothesis list of a derivation step. -/
inductive Citation where
  /-- An earlier step. -/
  | step (id : StepId)
  /-- Not known yet. -/
  | unknown
  /-- The first earlier step with this id or label; it is resolved while the worksheet is read. -/
  | localRef (target : Text)
deriving DecidableEq, Repr, Inhabited

namespace Citation

/-- The entry as it is written. -/
def text : Citation → Text
  | step id => id.text
  | unknown => ['?']
  | localRef target => '#' :: target

/-- The step that the entry names. -/
def step? : Citation → Option StepId
  | step id => some id
  | _ => none

end Citation

/-- The outcome of unifying a derivation step. -/
inductive Unification where
  | untried
  | proved
  | failed
deriving DecidableEq, Repr, Inhabited

/-- The outcome of checking the distinct-variable restrictions of a derivation step. -/
inductive DistinctCheck where
  | untried
  | satisfied
  /-- Restrictions are missing that further `$d` statements would supply. -/
  | repairable
  | violated
deriving DecidableEq, Repr, Inhabited

/-- A derivation step. -/
structure Derivation extends Step where
  hyps : List Citation
  /-- The target of a local reference, in place of a label; gone once it is resolved. -/
  localRef : Option Text := none
  /-- The proof of the step as labels in postfix order, once it is unified. -/
  proof : Option (List Text) := none
  unification : Unification := .untried
  distinctCheck : DistinctCheck := .untried
  /-- The step was inserted, not read from the text. -/
  derived : Bool := false
  /-- The formula holds a work variable. -/
  hasWorkVars : Bool := false
deriving DecidableEq, Repr, Inhabited

namespace Derivation

/-- The steps that the hypothesis list names, in order. -/
def cited (d : Derivation) : List StepId := d.hyps.filterMap Citation.step?

/-- The step lacks a label, a formula or a hypothesis, or its formula is not settled. -/
def isIncomplete (d : Derivation) : Bool :=
  d.ref.isNone || d.formula.isNone || d.hasWorkVars || d.hyps.any (·.step?.isNone)

end Derivation

end ProofSheet
