import ProofSheet.Settings
import ProofSheet.Worksheet.Basic

set_option autoImplicit false

/-! # Placing and finding the cursor

A cursor that no statement took while the worksheet was read is placed in a step that needs
work, or else in the label of `qed`. The location of a cursor is an offset in the text of the
worksheet as it now is, with its line and column.
-/

namespace ProofSheet

/-- The field in which an incomplete step needs work first. -/
def Derivation.openField (d : Derivation) : Field :=
  if d.ref.isNone then .ref
  else if d.formula.isNone || d.hasWorkVars then .formula
  else .hyps

namespace Worksheet

/-- The derivation steps that need work, with their indices. -/
def incompleteAt (ws : Worksheet) : List (Statement × Nat) :=
  ws.statements.zipIdx.filter (·.1.isIncomplete)

/-- The target in an incomplete step. -/
def openTarget (ws : Worksheet) (s : Statement) (index : Nat) : CursorTarget :=
  let field := (s.derivation?.map Derivation.openField).getD .text
  .statement s.id field index ws.generation

/-- The target in the label of `qed`. -/
def qedTarget? (ws : Worksheet) : Option CursorTarget := do
  let id ← ws.qed
  let index ← ws.indexOf? id
  some (.statement id .ref index ws.generation)

/-- The target for a cursor that is not set, by the wanted placement. -/
def placement? (ws : Worksheet) (placement : CaretPlacement) : Option CursorTarget :=
  let chosen : Option CursorTarget :=
    match placement with
    | .firstIncomplete => ws.incompleteAt.head?.map fun (s, i) => ws.openTarget s i
    | .lastIncomplete => ws.incompleteAt.getLast?.map fun (s, i) => ws.openTarget s i
    | .asIs => ws.cursor.caret.map .offset
  chosen.or ws.qedTarget?

/-- Places the cursor, unless it is set. -/
def placeCursor (ws : Worksheet) (placement : CaretPlacement) : Worksheet :=
  match ws.placement? placement with
  | some target => { ws with cursor := ws.cursor.offer target }
  | none => ws

/-- The statement that a target names: at the index kept with it while the generation is the same,
and otherwise wherever it is. -/
def targetStatement? (ws : Worksheet) (id : StatementId) (index generation : Nat) :
    Option Statement :=
  let kept := if generation = ws.generation then ws.statements[index]? else none
  (kept.filter (·.id == id)).or (ws.find? id)

/-- The offset of the cursor in the worksheet, before it is limited to the text. -/
def cursorOffset? (ws : Worksheet) : Option Nat :=
  match ws.cursor.target with
  | none => none
  | some (.offset n) => some n
  | some (.statement id field index generation) =>
    (ws.targetStatement? id index generation).map fun s => s.start + s.fieldOffset field

/-- The offset of the cursor in the text of the worksheet, and its position. -/
def cursorLocation? (ws : Worksheet) : Option (Nat × Position) :=
  ws.cursorOffset?.map fun offset =>
    let offset := min offset ws.output.length
    (offset, positionOf ws.output offset)

end Worksheet

end ProofSheet
