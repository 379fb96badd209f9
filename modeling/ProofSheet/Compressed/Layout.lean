import ProofSheet.Compressed.Proof
import ProofSheet.Keyword

set_option autoImplicit false

/-! # The layout of a generated proof

A generated proof is written as `$= ( labels ) codes $.` inside a margin. The words are put
on lines one after the other, separated by single spaces; a word that does not fit begins a
new line. Codes may be broken anywhere, so a run of codes fills each line up to the margin.
Every line after the first is indented.
-/

namespace ProofSheet

/-- The margin of a text: the greatest line length, and the indent of continuation lines. An
indented line has room for two characters at least. -/
structure Margin where
  width : Nat
  indent : Nat
  indent_lt : indent + 2 ≤ width

namespace Margin

/-- The margin for a wanted width, which is raised where the indent leaves too little room. Words of
64 bits give the same margin if they hold `indent + 2`, that is, for every indent below
`2 ^ 64 - 2`. -/
def of (width indent : Nat) : Margin := ⟨max width (indent + 2), indent, by omega⟩

end Margin

/-- A layout in progress: the finished lines, the words of the line being filled, and the number
of characters that this line has so far, its indent included. -/
structure Layout where
  finished : List (List Text) := []
  line : List Text := []
  used : Nat := 0
deriving DecidableEq, Repr, Inhabited

namespace Layout

/-- The width of the space before the next word: none at the front of a line. -/
def gap (l : Layout) : Nat := if l.line.isEmpty then 0 else 1

/-- The number of characters that the next word may have on the current line. -/
def room (m : Margin) (l : Layout) : Nat := m.width - (l.used + l.gap)

/-- Ends the current line and begins an indented one. -/
def newLine (m : Margin) (l : Layout) : Layout :=
  { finished := l.finished ++ [l.line], line := [], used := m.indent }

/-- Adds a word to the current line. -/
def put (l : Layout) (word : Text) : Layout :=
  { l with line := l.line ++ [word], used := l.used + l.gap + word.length }

/-- Adds a word, on a new line if it does not fit on a line that already holds one. -/
def word (m : Margin) (l : Layout) (word : Text) : Layout :=
  if !l.line.isEmpty && l.room m < word.length then (l.newLine m).put word else l.put word

/-- A new line has room. -/
theorem room_newLine_pos (m : Margin) (l : Layout) : 0 < (l.newLine m).room m := by
  have := m.indent_lt
  simp only [newLine, room, gap, List.isEmpty_nil, if_true]
  omega

/-- The layout on which the next piece of a run goes: a new line if the current one is full. -/
def withRoom (m : Margin) (l : Layout) : Layout := if l.room m = 0 then l.newLine m else l

theorem room_withRoom_pos (m : Margin) (l : Layout) : 0 < (l.withRoom m).room m := by
  unfold withRoom
  split
  · exact room_newLine_pos m l
  · exact Nat.pos_of_ne_zero ‹_›

/-- Adds a run that may be broken anywhere, filling each line. -/
def run (m : Margin) (l : Layout) (codes : Text) : Layout :=
  if codes = [] then l
  else
    let fits := (l.withRoom m).room m
    ((l.withRoom m).word m (codes.take fits)).run m (codes.drop fits)
termination_by codes.length
decreasing_by
  have := room_withRoom_pos m l
  have := List.length_pos_iff.mpr ‹¬codes = []›
  simp only [List.length_drop]
  omega

/-- All lines of the layout, as lists of words. -/
def lines (l : Layout) : List (List Text) := l.finished ++ [l.line]

/-- The lines as text: the words of a line are separated by spaces, every line but the first
is indented, and each ends with a line feed. -/
def render (m : Margin) (l : Layout) : Text :=
  let written := l.lines.map (joinWith ' ')
  let indented := (written.drop 1).map (List.replicate m.indent ' ' ++ ·)
  (written.take 1 ++ indented).flatMap (· ++ ['\n'])

/-- The layout of a generated proof. -/
def ofProof (m : Margin) (p : CompressedProof) : Layout :=
  let labels := Keyword.proof :: Keyword.openLabels :: p.labels ++ [Keyword.closeLabels]
  ((labels.foldl (word m) {}).run m p.codeText).word m Keyword.proofEnd

end Layout

/-- The text of a generated proof, wrapped at `width` columns and indented by `indent`. -/
def CompressedProof.layout (p : CompressedProof) (width indent : Nat) : Text :=
  let m := Margin.of width indent
  (Layout.ofProof m p).render m

end ProofSheet
