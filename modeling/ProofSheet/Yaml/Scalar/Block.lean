import ProofSheet.Yaml.Scalar.Gap

set_option autoImplicit false

/-! # Block scalars

A block scalar is made of the indented lines that follow its header. The header is a bar if the
ends of lines count as they are, or `>` if a single one between two lines that begin without a
space counts as a space; it may give the indentation, and say with a minus that no end of a line
counts at the end of the scalar, or with a plus that all do. Otherwise exactly the end of
the last line counts that has something in it.
-/

namespace ProofSheet.Yaml

/-- Which ends of lines count at the end of a block scalar. -/
inductive Chomp where
  | strip
  | clip
  | keep
deriving DecidableEq, Repr, Inhabited

/-- The header of a block scalar. -/
structure BlockHeader where
  folded : Bool
  chomp : Chomp := .clip
  /-- How much further the lines are indented than what contains the scalar, if it is said. -/
  indent? : Option Nat := none
deriving DecidableEq, Repr, Inhabited

/-- How a header treats ends of lines at the end, by its sign. -/
def Chomp.ofSign? (c : Char) : Option Chomp :=
  if c = '-' then some .strip else if c = '+' then some .keep else none

/-- An indentation that a header gives, from one to nine. -/
def indentOfDigit? (c : Char) : Option Nat := (digit? 10 c).filter (0 < ·)

/-- The header with the signs that follow its first character: at most one of either kind. -/
def BlockHeader.ofSigns? (folded : Bool) : Text → Option BlockHeader
  | [] => some { folded := folded }
  | [c] =>
    match Chomp.ofSign? c with
    | some chomp => some { folded := folded, chomp := chomp }
    | none => do some { folded := folded, indent? := ← indentOfDigit? c }
  | [c, d] =>
    match Chomp.ofSign? c with
    | some chomp => do some { folded := folded, chomp := chomp, indent? := ← indentOfDigit? d }
    | none => do
      some { folded := folded, chomp := ← Chomp.ofSign? d, indent? := ← indentOfDigit? c }
  | _ => none

/-- Reads the rest of a header line, and gives the text of the lines below it. -/
def cutBlockHeader (folded : Bool) (cs : Text) : Option (BlockHeader × Text) := do
  let isSign := fun c : Char => c == '+' || c == '-' || c.isDigit
  let header ← BlockHeader.ofSigns? folded (cs.takeWhile isSign)
  let rest := (cs.dropWhile isSign).dropWhile isSpace
  let rest := if rest.head? = some '#' then rest.dropWhile (!isBreak ·) else rest
  if rest.head?.all isBreak then some (header, rest.drop 1) else none

/-- The greatest indentation of the blank lines that a text begins with and of the line after
them. A tab there is an error. -/
def leadingIndent (cs : Text) : Option Nat :=
  let spaces := (cs.takeWhile (· == ' ')).length
  match _h : cs.drop spaces with
  | [] => some spaces
  | c :: rest =>
    if isBreak c then do some (max spaces (← leadingIndent rest))
    else if c = '\t' then none
    else some spaces
termination_by cs.length
decreasing_by
  have := congrArg List.length _h
  simp only [List.length_drop, List.length_cons] at this
  omega

/-- A line of a block scalar without its indentation, and the character that ends it. -/
structure BlockLine where
  content : Text
  ending : Text
deriving DecidableEq, Repr, Inhabited

/-- Cuts off the lines of a text that are blank or have an indentation. A tab in the
indentation is an error. -/
def cutBlockLines (indent : Nat) (cs : Text) : Option (List BlockLine × Text) :=
  let spaces := min (cs.takeWhile (· == ' ')).length indent
  match _h : cs.drop spaces with
  | [] => some ([], [])
  | c :: rest =>
    if isBreak c then do
      let (lines, after) ← cutBlockLines indent rest
      some (⟨[], [c]⟩ :: lines, after)
    else if spaces < indent then
      if c = '\t' then none else some ([], cs)
    else do
      let below := rest.dropWhile (!isBreak ·)
      let (lines, after) ← cutBlockLines indent (below.drop 1)
      some (⟨c :: rest.takeWhile (!isBreak ·), below.take 1⟩ :: lines, after)
termination_by cs.length
decreasing_by
  · have := congrArg List.length _h
    simp only [List.length_drop, List.length_cons] at this
    omega
  · have := congrArg List.length _h
    have := (List.dropWhile_sublist (fun c => !isBreak c) (l := rest)).length_le
    simp only [List.length_drop, List.length_cons] at *
    omega

/-- The text of lines of a block scalar, given the last line before them that was not blank, and
the ends of the blank lines since then. -/
def BlockHeader.text (h : BlockHeader) (last : BlockLine) (blank : Text) :
    List BlockLine → Text
  | [] =>
    match h.chomp with
    | .strip => []
    | .clip => last.ending
    | .keep => last.ending ++ blank
  | line :: more =>
    if line.content.isEmpty then h.text last (blank ++ line.ending) more
    else
      let indented := last.content.head?.any isSpace || line.content.head?.any isSpace
      let between :=
        if h.folded && last.ending == ['\n'] && !indented then
          if blank.isEmpty then [' '] else blank
        else last.ending ++ blank
      between ++ line.content ++ h.text line [] more

/-- Cuts a block scalar off a text that begins after the first character of the header: its text,
and the rest from the line after it. Given is the leftmost column of its lines. -/
def cutBlockScalar (folded : Bool) (margin : Nat) (cs : Text) : Option (Text × Text) := do
  let (header, below) ← cutBlockHeader folded cs
  let margin := max margin 1
  let indent ←
    match header.indent? with
    | some n => pure (margin - 1 + n)
    | none => do pure (max margin (← leadingIndent below))
  let (lines, after) ← cutBlockLines indent below
  some (header.text ⟨[], []⟩ [] lines, after)

end ProofSheet.Yaml
