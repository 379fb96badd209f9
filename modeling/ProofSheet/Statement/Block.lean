import ProofSheet.Statement.Basic
import ProofSheet.Text.Token

set_option autoImplicit false

/-! # Blocks

A statement reaches from a token in the first column up to the next such token. The tokens
of a text are therefore grouped into blocks: a head, and the tokens of its body.
-/

namespace ProofSheet

/-- The tokens of one statement. -/
structure Block where
  head : Token
  body : List Token
deriving DecidableEq, Repr, Inhabited

namespace Block

/-- Groups tokens into the ones before the first statement and the statements. -/
def group : List Token → List Token × List Block
  | [] => ([], [])
  | t :: rest =>
    let (body, blocks) := group rest
    if t.startsStatement then ([], { head := t, body := body } :: blocks)
    else (t :: body, blocks)

/-- The text after the head: its gap, and the tokens of the body with theirs. -/
def tail (b : Block) : Text := b.head.gap ++ b.body.flatMap Token.written

/-- The statement that a block is, for a given content. -/
def toStatement (b : Block) (id : StatementId) (content : Content) : Statement :=
  { id := id
    content := content
    lead := b.head.text
    tail := b.tail
    start := b.head.start
    position := b.head.place.position }

/-- The texts of the tokens in the body. -/
def words (b : Block) : List Text := b.body.map Token.text

end Block

/-- Grouping keeps all tokens in order. -/
theorem group_tokens (ts : List Token) :
    (Block.group ts).1 ++ (Block.group ts).2.flatMap (fun b => b.head :: b.body) = ts := by
  induction ts with
  | nil => rfl
  | cons t rest ih =>
    by_cases h : t.startsStatement = true <;> simp [Block.group, h, ih]

end ProofSheet
