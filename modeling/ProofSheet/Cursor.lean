import ProofSheet.Statement.Field

set_option autoImplicit false

/-! # The cursor

The cursor of a worksheet remembers where the caret of the editor was, and gets a target: a
field of a statement, or an offset in the text. It takes the first target that it is offered.
A target statement is named by its id. Its index in the worksheet is kept beside the id, with
the generation of the worksheet for which the index holds, so that it is found faster.
-/

namespace ProofSheet

/-- What the cursor is set to. -/
inductive CursorTarget where
  | offset (n : Nat)
  | statement (id : StatementId) (field : Field) (index generation : Nat)
deriving DecidableEq, Repr, Inhabited

/-- A cursor that is set at most once, unless it is moved on purpose. -/
structure Cursor where
  /-- The offset of the caret in the text that was read. -/
  caret : Option Nat := none
  target : Option CursorTarget := none
deriving DecidableEq, Repr, Inhabited

namespace Cursor

/-- The cursor has a target. -/
def isSet (c : Cursor) : Bool := c.target.isSome

/-- Gives the cursor a target, unless it has one. -/
def offer (c : Cursor) (target : CursorTarget) : Cursor :=
  { c with target := c.target.or (some target) }

/-- Moves the cursor to a target. -/
def moveTo (c : Cursor) (target : CursorTarget) : Cursor := { c with target := some target }

/-- The statement that the cursor is bound to. -/
def statement? (c : Cursor) : Option StatementId :=
  match c.target with
  | some (.statement id _ _ _) => some id
  | _ => none

/-- The field that the cursor is bound to. -/
def field? (c : Cursor) : Option Field :=
  match c.target with
  | some (.statement _ field _ _) => some field
  | _ => none

/-- Unsets the cursor if it is bound to the statement. -/
def forget (c : Cursor) (id : StatementId) : Cursor :=
  if c.statement? = some id then { c with target := none } else c

end Cursor

end ProofSheet
