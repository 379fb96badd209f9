import ProofSheet.Text.Basic

set_option autoImplicit false

/-! # Lines and columns

A position is a line and a column, both counted from zero; shown to a user they count from
one. `positionOf` finds the position of a character offset. A line ends at a line feed, a
carriage return, the pair of the two, a vertical tab, a form feed, a next-line character, a
line separator or a paragraph separator. The offset between the two characters of the pair
is still on the line that the pair ends.
-/

namespace ProofSheet

/-- A line and a column, counted from zero. -/
structure Position where
  line : Nat := 0
  column : Nat := 0
deriving DecidableEq, Repr, Inhabited

namespace Position

/-- The position is the first one of its line. -/
def startsLine (p : Position) : Bool := p.column == 0

/-- Positions in reading order: by line, then by column. -/
def precedes (p q : Position) : Bool :=
  p.line < q.line || (p.line == q.line && p.column ≤ q.column)

/-- Positions sorted into reading order. -/
def sorted (ps : List Position) : List Position := ps.mergeSort precedes

/-- The position as users count it, from one. -/
def describe (p : Position) : String :=
  "line " ++ toString (p.line + 1) ++ ", column " ++ toString (p.column + 1)

end Position

/-- A character that ends a line, except for a carriage return before a line feed. -/
def isLineBreak (c : Char) : Bool :=
  ['\n', '\x0b', '\x0c', '\r', '\u0085', '\u2028', '\u2029'].contains c

/-- A line ends after `c` when `rest` follows. -/
def endsLine (c : Char) (rest : Text) : Bool :=
  isLineBreak c && !(c == '\r' && rest.head? == some '\n')

/-- The position after `offset` characters of a text that begins at `p`; an offset beyond the
end counts as the end. -/
def positionFrom (p : Position) : Text → Nat → Position
  | [], _ => p
  | _, 0 => p
  | c :: rest, offset + 1 =>
    positionFrom (if endsLine c rest then ⟨p.line + 1, 0⟩ else ⟨p.line, p.column + 1⟩) rest offset

/-- The position of a character offset in a text. -/
def positionOf (t : Text) (offset : Nat) : Position := positionFrom {} t offset

end ProofSheet
