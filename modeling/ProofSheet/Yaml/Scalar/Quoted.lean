import ProofSheet.Yaml.Scalar.Gap

set_option autoImplicit false

/-! # Quoted scalars

In single quotes every character stands for itself, and two quotes stand for one. In double
quotes a backslash begins an escape: a letter that names a character, the code of a character
in two, four or eight hexadecimal digits after `x`, `u` or `U`, or the end of a line, which
joins the lines.
-/

namespace ProofSheet.Yaml

/-- The characters that stand for a character after a backslash. -/
def namedEscapes : List (Char × Char) :=
  [('0', '\x00'), ('a', '\x07'), ('b', '\x08'), ('t', '\t'), ('\t', '\t'), ('n', '\n'),
    ('v', '\x0b'), ('f', '\x0c'), ('r', '\r'), ('e', '\x1b'), (' ', ' '),
    (doubleQuote, doubleQuote), ('/', '/'), (backslash, backslash), ('N', '\u0085'),
    ('_', '\u00a0'), ('L', '\u2028'), ('P', '\u2029')]

/-- The letters that announce a code, and the number of its digits. -/
def codedEscapes : List (Char × Nat) := [('x', 2), ('u', 4), ('U', 8)]

/-- The character that an escape stands for, and the number of characters that the escape has
after its backslash. -/
def escape? : Text → Option (Char × Nat)
  | [] => none
  | c :: rest =>
    match namedEscapes.lookup c with
    | some d => some (d, 1)
    | none => do
      let width ← codedEscapes.lookup c
      let digits := rest.take width
      let code ← digits? 16 digits
      if digits.length = width ∧ code.isValidChar then some (Char.ofNat code, width + 1) else none

/-- Reads a quoted scalar in a text that begins after the opening quote: its text, and the number
of characters up to the closing quote and with it. Given are the gap before the text and whether
a line begins there. -/
def readQuoted (quote : Char) (gap : Gap) (startsLine : Bool) (cs : Text) : Option (Text × Nat) :=
  match cs with
  | [] => none
  | c :: rest =>
    if isGap c then do
      let (text, size) ← readQuoted quote (gap.push c) (isBreak c) rest
      some (text, size + 1)
    else if startsLine && atDocumentMark (c :: rest) then none
    else if c == quote then
      if quote == singleQuote && rest.head? == some quote then do
        let (more, size) ← readQuoted quote {} false (rest.drop 1)
        some (gap.text ++ quote :: more, size + 2)
      else some (gap.text, 1)
    else if quote == doubleQuote && c == backslash then
      if rest.head?.any isBreak then do
        let (more, size) ← readQuoted quote { joined := true } true (rest.drop 1)
        some (gap.text ++ more, size + 2)
      else do
        let (d, width) ← escape? rest
        let (more, size) ← readQuoted quote {} false (rest.drop width)
        some (gap.text ++ d :: more, size + width + 1)
    else do
      let (more, size) ← readQuoted quote {} false rest
      some (gap.text ++ c :: more, size + 1)
termination_by cs.length

end ProofSheet.Yaml
