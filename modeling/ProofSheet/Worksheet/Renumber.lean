import ProofSheet.Refusal
import ProofSheet.Worksheet.Basic

set_option autoImplicit false

/-! # Renumbering

Renumbering gives the numbered steps the multiples of an interval, in order, and has every
hypothesis list cite the new numbers. The step `qed` keeps its name. All new numbers replace
the old ones at once, so it does not matter that some new number may be an old one too.
-/

namespace ProofSheet

/-- New names for step ids. If an id is listed twice, the last entry counts. -/
abbrev Renaming := List (StepId × StepId)

namespace Renaming

/-- The multiples of an interval for a list of ids. -/
def multiples (interval : Nat) (ids : List StepId) : Renaming :=
  (ids.zipIdx 1).map fun (id, i) => (id, .number (interval * i))

/-- The new name of an id. -/
def apply (r : Renaming) (id : StepId) : StepId := (r.reverse.lookup id).getD id

/-- Renames an entry of a hypothesis list. -/
def applyCitation (r : Renaming) : Citation → Citation
  | .step id => .step (r.apply id)
  | entry => entry

/-- Renames a step and what it cites, and writes its lead anew. -/
def applyStatement (r : Renaming) (s : Statement) : Statement :=
  ((s.mapStep fun step => { step with id := r.apply step.id }).mapDerivation fun d =>
    { d with hyps := d.hyps.map r.applyCitation }).refreshLead

end Renaming

namespace Worksheet

/-- The names of the numbered steps, in order. -/
def numberedIds (ws : Worksheet) : List StepId := ws.stepIds.filter (!·.isQed)

/-- Renumbers the steps, and also gives the number of statements whose text changed. -/
def renumber (ws : Worksheet) (interval : Nat) : Except Refusal (Worksheet × Nat) :=
  let greatest := interval * ws.numberedIds.length
  if interval = 0 then .error .zeroInterval
  else if ws.broken then .error .structurallyBroken
  else if StepId.maxNumber < greatest then .error (.renumberOverflow interval)
  else
    let newNames := Renaming.multiples interval ws.numberedIds
    let renamed := ws.statements.map newNames.applyStatement
    let changed := (ws.statements.zip renamed).countP fun (old, new) => new.lead != old.lead
    .ok ({ ws with statements := renamed, greatestStep := greatest }.respan, changed)

end Worksheet

end ProofSheet
