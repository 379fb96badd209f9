import ProofSheet.Compressed.Layout
import ProofSheet.Refusal
import ProofSheet.Settings
import ProofSheet.Worksheet.Level

set_option autoImplicit false

/-! # Edits

A unifier or a proof search reads a worksheet and answers with edits; only this file applies
them. Edits are applied in order. The first one that is refused ends the application, and the
edits before it stay. A broken worksheet takes no edits.
-/

namespace ProofSheet

/-- A change to a worksheet. -/
inductive Edit where
  /-- Sets the label of a step. -/
  | setRef (step : StepId) (label : Text)
  /-- Sets the formula of a step. -/
  | setFormula (step : StepId) (formula : Formula)
  /-- Records the outcome of unifying a derivation step. -/
  | setStatus (step : StepId) (unification : Unification) (distinctCheck : DistinctCheck)
      (proof : Option (List Text))
  /-- Inserts a derivation step with the next free number in front of a step. -/
  | insertStep (before : StepId) (hyps : List StepId) (ref : Option Text) (formula : Formula)
  /-- Adds a `$d` statement in front of the generated proof or the footer. -/
  | insertDistinctVars (vars : List Text)
  /-- Adds a generated proof in front of the footer, or in the place of the one there is. -/
  | insertProof (proof : CompressedProof)
  /-- Moves the cursor to a field of a step. -/
  | placeCursor (step : StepId) (field : Field)
deriving DecidableEq, Repr, Inhabited

namespace Worksheet

/-- The index of a step that has to exist. -/
def requireStep (ws : Worksheet) (step : StepId) : Except Refusal Nat :=
  match ws.stepIndex? step with
  | some index => .ok index
  | none => .error (.unknownStep step.text)

/-- The index of the generated proof, or of the footer if there is none. -/
def proofSlot (ws : Worksheet) : Nat :=
  let footer :=
    match ws.statements.reverse.findIdx? Statement.isFooter with
    | some i => ws.statements.length - 1 - i
    | none => ws.statements.length
  (ws.statements.findIdx? Statement.isProof).getD footer

/-- Sets the label of a step, which is no local reference any more. -/
def setRef (ws : Worksheet) (step : StepId) (label : Text) : Except Refusal Worksheet := do
  let index ← ws.requireStep step
  let change (s : Statement) : Statement :=
    ((s.mapDerivation ({ · with localRef := none })).mapStep
      ({ · with ref := some label })).refreshLead
  .ok (ws.modifyAt index change).respan

/-- Sets the formula of a step. -/
def setFormula (ws : Worksheet) (step : StepId) (formula : Formula) :
    Except Refusal Worksheet := do
  let index ← ws.requireStep step
  let change (s : Statement) : Statement :=
    ((s.replaceBody formula.text).mapDerivation
      ({ · with hasWorkVars := formula.hasWorkVars })).mapStep
      ({ · with formula := some formula })
  .ok (ws.modifyAt index change).respan

/-- Records the outcome of unifying a derivation step. -/
def setStatus (ws : Worksheet) (step : StepId) (unification : Unification)
    (distinctCheck : DistinctCheck) (proof : Option (List Text)) : Except Refusal Worksheet := do
  let index ← ws.requireStep step
  if (ws.statements[index]?.bind Statement.derivation?).isNone then
    .error (.invalidEdit (.notDerivation step.text))
  else
    let change (d : Derivation) : Derivation :=
      { d with unification := unification, distinctCheck := distinctCheck, proof := proof }
    .ok (ws.modifyAt index (·.mapDerivation change))

/-- Inserts a derivation step. All hypotheses of the worksheet stay before it, and it cites only
steps before it. -/
def insertStep (ws : Worksheet) (before : StepId) (hyps : List StepId) (ref : Option Text)
    (formula : Formula) : Except Refusal Worksheet := do
  let index ← ws.requireStep before
  if (ws.statements.drop index).any Statement.isHypothesis then
    .error (.invalidEdit (.beforeHypothesis before.text))
  else
    let earlier := (ws.statements.take index).filterMap Statement.stepId?
    match hyps.find? (!earlier.contains ·) with
    | some missing => .error (.unknownStep missing.text)
    | none =>
      let d : Derivation :=
        { id := .number ws.nextStepNumber
          ref := ref
          formula := some formula
          hyps := hyps.map Citation.step
          derived := true
          hasWorkVars := formula.hasWorkVars }
      let text := d.lead ++ ' ' :: formula.text ++ ['\n']
      .ok { ws.insert index (.derivation d) text with greatestStep := ws.nextStepNumber }

/-- Adds a `$d` statement. -/
def insertDistinctVars (ws : Worksheet) (vars : List Text) : Except Refusal Worksheet :=
  if vars.length < 2 then .error (.invalidEdit .tooFewVariables)
  else
    let text := Keyword.distinctVars ++ ' ' :: joinWith ' ' vars ++ ['\n']
    let inserted := ws.insert ws.proofSlot (.distinctVars vars) text
    .ok { inserted with distinctVars := ws.distinctVars ++ [ws.nextId] }

/-- Adds a generated proof, or replaces the one there is. -/
def insertProof (st : Settings) (ws : Worksheet) (proof : CompressedProof) : Worksheet :=
  let slot := ws.proofSlot
  let old := (ws.statements[slot]?.filter Statement.isProof).map Statement.id
  let text := proof.layout st.proofTextWidth st.proofIndent
  (ws.remove old.toList).insert slot (.proof (.compressed proof)) text

/-- Moves the cursor to a field of a step. -/
def moveCursor (ws : Worksheet) (step : StepId) (field : Field) : Except Refusal Worksheet := do
  let index ← ws.requireStep step
  match ws.statements[index]? with
  | some s =>
    .ok { ws with cursor := ws.cursor.moveTo (.statement s.id field index ws.generation) }
  | none => .error (.unknownStep step.text)

/-- Applies one edit. -/
def applyEdit (st : Settings) (ws : Worksheet) : Edit → Except Refusal Worksheet
  | .setRef step label => ws.setRef step label
  | .setFormula step formula => ws.setFormula step formula
  | .setStatus step unification distinctCheck proof =>
    ws.setStatus step unification distinctCheck proof
  | .insertStep before hyps ref formula => ws.insertStep before hyps ref formula
  | .insertDistinctVars vars => ws.insertDistinctVars vars
  | .insertProof proof => .ok (ws.insertProof st proof)
  | .placeCursor step field => ws.moveCursor step field

/-- Applies edits up to the first that is refused, and gives its refusal. -/
def applyInOrder (st : Settings) (ws : Worksheet) : List Edit → Worksheet × Option Refusal
  | [] => (ws, none)
  | e :: rest =>
    match ws.applyEdit st e with
    | .ok ws' => ws'.applyInOrder st rest
    | .error r => (ws, some r)

/-- Applies edits to a worksheet that is not broken. The levels are measured anew once all edits
are applied. -/
def applyEdits (st : Settings) (ws : Worksheet) (edits : List Edit) :
    Worksheet × Option Refusal :=
  if ws.broken then (ws, some .structurallyBroken)
  else
    match ws.applyInOrder st edits with
    | (ws', none) => (ws'.measureLevels, none)
    | refused => refused

/-- Lets a processor compute edits and applies them, unless the request was called off. -/
def applyProcessor (st : Settings) (ws : Worksheet) (cancelled : Bool)
    (process : Worksheet → Except String (List Edit)) : Worksheet × Option Refusal :=
  if ws.broken then (ws, some .structurallyBroken)
  else if cancelled then (ws, some .cancelled)
  else
    match process ws with
    | .ok edits => ws.applyEdits st edits
    | .error reason => (ws, some (.processorFailed reason))

end Worksheet

end ProofSheet
