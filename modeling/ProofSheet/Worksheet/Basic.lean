import ProofSheet.Cursor
import ProofSheet.Message

set_option autoImplicit false

/-! # Worksheets

A worksheet is its list of statements, together with what is indexed from them: the theorem
and its place, the step `qed`, the `$d` statements, the greatest step number and the number of
hypotheses. It carries its messages, the mark of a reading that stopped, the cursor, and the
step for which a search was requested. Its generation changes whenever statements are added or
removed, and a new statement gets an id that no other has had. Both are counted without an end. Ids
of 32 bits are the same as long as fewer than `2 ^ 32` of them are given, and generations of 64 bits
as long as there are fewer than `2 ^ 64` changes.
-/

namespace ProofSheet

/-- A proof worksheet. -/
structure Worksheet where
  theoremLabel : Option Text := none
  locAfter : Option Text := none
  /-- The database does not have the theorem. -/
  isNew : Bool := true
  statements : List Statement := []
  greatestStep : Nat := 0
  hypothesisCount : Nat := 0
  qed : Option StatementId := none
  /-- The `$d` statements. -/
  distinctVars : List StatementId := []
  /-- The reading stopped at a structural fault. -/
  broken : Bool := false
  messages : List Message := []
  cursor : Cursor := {}
  /-- The step for which candidates are wanted. -/
  selected : Option StatementId := none
  /-- The number of ids given so far, and the id of the next new statement. -/
  nextId : StatementId := 0
  generation : Nat := 0
deriving DecidableEq, Repr, Inhabited

/-- Statements laid out one after the other from an offset and a line on. -/
def respanFrom (offset line : Nat) : List Statement → List Statement
  | [] => []
  | s :: rest =>
    { s with start := offset, position := ⟨line, 0⟩ } ::
      respanFrom (offset + s.text.length) (line + lineFeeds s.text) rest

namespace Worksheet

/-- The text of the worksheet: the texts of its statements. -/
def output (ws : Worksheet) : Text := ws.statements.flatMap Statement.text

/-- The proof steps, in order. -/
def steps (ws : Worksheet) : List Statement := ws.statements.filter Statement.isStep

/-- The names of the proof steps, in order. -/
def stepIds (ws : Worksheet) : List StepId := ws.statements.filterMap Statement.stepId?

/-- The statement with an id. -/
def find? (ws : Worksheet) (id : StatementId) : Option Statement :=
  ws.statements.find? (·.id == id)

/-- The index of the statement with an id. -/
def indexOf? (ws : Worksheet) (id : StatementId) : Option Nat :=
  ws.statements.findIdx? (·.id == id)

/-- The index of the first step with a name. -/
def stepIndex? (ws : Worksheet) (step : StepId) : Option Nat :=
  ws.statements.findIdx? (·.stepId? == some step)

/-- The variables of each `$d` statement in the index. -/
def distinctVarLists (ws : Worksheet) : List (List Text) :=
  ws.distinctVars.filterMap fun id =>
    match (ws.find? id).map Statement.content with
    | some (.distinctVars vars) => some vars
    | _ => none

/-- The generated proof, if there is one. -/
def proof? (ws : Worksheet) : Option ProofBody :=
  ws.statements.findSome? fun s =>
    match s.content with
    | .proof body => some body
    | _ => none

/-- The derivation steps that need work. -/
def incomplete (ws : Worksheet) : List Statement := ws.statements.filter Statement.isIncomplete

/-- The number that an inserted step would get; it stays at the greatest possible one. -/
def nextStepNumber (ws : Worksheet) : Nat := min (ws.greatestStep + 1) StepId.maxNumber

/-- Recomputes where each statement begins from the texts. -/
def respan (ws : Worksheet) : Worksheet := { ws with statements := respanFrom 0 0 ws.statements }

/-- Removes statements, and all mention of them. -/
def remove (ws : Worksheet) (ids : List StatementId) : Worksheet :=
  if ids.isEmpty then ws
  else
    respan
      { ws with
        statements := ws.statements.filter (!ids.contains ·.id)
        cursor := ids.foldl Cursor.forget ws.cursor
        distinctVars := ws.distinctVars.filter (!ids.contains ·)
        selected := ws.selected.filter (!ids.contains ·)
        generation := ws.generation + 1 }

/-- Inserts a new statement before an index. Its lead reaches up to its first blank. -/
def insert (ws : Worksheet) (index : Nat) (content : Content) (text : Text) : Worksheet :=
  let s : Statement :=
    { id := ws.nextId
      content := content
      lead := text.takeWhile (!isBlank ·)
      tail := text.dropWhile (!isBlank ·) }
  respan
    { ws with
      statements := ws.statements.take index ++ s :: ws.statements.drop index
      nextId := ws.nextId + 1
      generation := ws.generation + 1 }

/-- Changes the statement at an index. -/
def modifyAt (ws : Worksheet) (index : Nat) (f : Statement → Statement) : Worksheet :=
  { ws with statements := ws.statements.modify index f }

end Worksheet

end ProofSheet
