import ProofSheet.Worksheet.Caret
import ProofSheet.Worksheet.Level
import ProofSheet.Worksheet.LocalRef

set_option autoImplicit false

/-! # Loading a worksheet

Loading reads a text and then settles what depends on the worksheet as a whole: a requested
step search, the local references, the `$d` index, the number of hypotheses, the levels, the
cursor. It always gives a worksheet. If there was a structural fault, the worksheet is marked
as broken, holds what was read up to the fault, and reports the fault in its last message.
-/

namespace ProofSheet

/-- What the editor asks for when it loads a worksheet. -/
structure Request where
  /-- The offset of the caret. -/
  caret : Option Nat := none
  /-- Candidates are wanted for the step in which the caret is. -/
  selectStep : Bool := false
deriving DecidableEq, Repr, Inhabited

namespace Worksheet

/-- Selects the derivation step that the cursor is bound to. -/
def selectStep (ws : Worksheet) : Reading :=
  match ws.cursor.statement?.bind ws.find? with
  | some s =>
    if s.derivation?.isSome then .ok { ws with selected := some s.id }
    else .error { sheet := ws, fault := { cause := .caretNotOnStep } }
  | none => .error { sheet := ws, fault := { cause := .caretNotOnStep } }

/-- The last proof step is the one that was read as `qed`. -/
def checkQed (ws : Worksheet) : Reading :=
  if ws.qed.isSome ∧ ws.steps.getLast?.map Statement.id = ws.qed then .ok ws
  else
    let cause := Cause.internal "the qed step is missing or is not the last proof step"
    .error { sheet := ws, fault := { cause := cause } }

/-- Indexes the `$d` statements. -/
def indexDistinctVars (ws : Worksheet) : Worksheet :=
  { ws with distinctVars := (ws.statements.filter Statement.isDistinctVars).map Statement.id }

/-- A theorem that the database has needs as many hypotheses as it has there. A mismatch is
reported at the header, which names the theorem. -/
def checkHypothesisCount (db : Database) (ws : Worksheet) : Reading :=
  match ws.theoremLabel.bind db.find? with
  | none => .ok ws
  | some info =>
    if info.hypotheses.length = ws.hypothesisCount then .ok ws
    else
      let header := ws.statements.head?
      .error
        { sheet := ws
          fault :=
            { cause := .hypCountMismatch info.hypotheses.length ws.hypothesisCount
              position := header.map Statement.position
              span := header.map fun h => ⟨h.start, h.start + h.lead.length⟩ } }

/-- Settles what depends on the worksheet as a whole. -/
def settle (db : Database) (st : Settings) (selecting : Bool) (ws : Worksheet) : Reading := do
  let ws ← if selecting then ws.selectStep else .ok ws
  let ws ← ws.resolveLocalRefs
  let ws ← ws.checkQed
  let ws ← ws.indexDistinctVars.checkHypothesisCount db
  .ok (ws.measureLevels.placeCursor st.caretPlacement)

/-- Marks a worksheet as broken by a fault. -/
def breakBy (ws : Worksheet) (f : Fault) : Worksheet :=
  let f := { f with theoremLabel := f.theoremLabel.or ws.theoremLabel }
  { ws with messages := ws.messages ++ [f.toMessage], broken := true }

/-- The worksheet that an outcome of reading amounts to. -/
def ofReading : Reading → Worksheet
  | .ok ws => ws
  | .error stop => stop.sheet.breakBy stop.fault

/-- Loads a text. -/
def load (db : Database) (st : Settings) (request : Request) (text : Text) : Worksheet :=
  let start : Worksheet := { cursor := { caret := request.caret } }
  ofReading do (← readText db st start text).settle db st request.selectStep

end Worksheet

end ProofSheet
