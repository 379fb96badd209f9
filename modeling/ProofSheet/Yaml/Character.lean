import ProofSheet.Text.Position

set_option autoImplicit false

/-! # Characters of a YAML text

The classes of characters that the parts of a YAML text are told apart by. A text is read
with all its ends of lines made alike: the pair of a carriage return and a line feed, either
of them alone, and a next-line character are all line feeds. Line and paragraph separators
end lines too, but stay what they are.
-/

namespace ProofSheet.Yaml

/-- The quote of scalars that are written as they are. -/
def singleQuote : Char := '\x27'

/-- The quote of scalars that may have escapes in them. -/
def doubleQuote : Char := '\x22'

/-- The character that begins an escape. -/
def backslash : Char := '\x5c'

/-- The character that tells the order of bytes. -/
def byteOrderMark : Char := '\ufeff'

/-- A space or a tab. -/
def isSpace (c : Char) : Bool := c == ' ' || c == '\t'

/-- A character that ends a line, in a text whose ends of lines are alike. -/
def isBreak (c : Char) : Bool := ['\n', '\u2028', '\u2029'].contains c

/-- A space, or the end of a line. -/
def isGap (c : Char) : Bool := isSpace c || isBreak c

/-- The text is at its end, or at a gap. -/
def atGap (cs : Text) : Bool := cs.head?.all isGap

/-- The characters that structure a flow sequence or mapping. -/
def isFlowSign (c : Char) : Bool := [',', '[', ']', '\x7b', '\x7d'].contains c

/-- The characters that no plain scalar begins with. -/
def isIndicator (c : Char) : Bool :=
  isFlowSign c ||
    ['#', '&', '*', '!', '|', '>', '%', '@', '\x60', singleQuote, doubleQuote].contains c

/-- Three dashes begin a document. -/
def atDocumentStart (cs : Text) : Bool := cs.take 3 == ['-', '-', '-'] && atGap (cs.drop 3)

/-- Three dots end a document. -/
def atDocumentEnd (cs : Text) : Bool := cs.take 3 == ['.', '.', '.'] && atGap (cs.drop 3)

/-- The text is at a mark that begins or ends a document, if that is where a line begins. -/
def atDocumentMark (cs : Text) : Bool := atDocumentStart cs || atDocumentEnd cs

/-- A YAML text has no control characters, except for tabs and ends of lines. -/
def isAllowed (c : Char) : Bool :=
  let n := c.toNat
  ['\t', '\n', '\r', '\u0085'].contains c || (0x20 ≤ n && n ≤ 0x7e) || (0xa0 ≤ n && n ≤ 0xfffd) ||
    0x10000 ≤ n

/-- A text with line feeds for all its ends of lines but separators. -/
def unifyBreaks : Text → Text
  | [] => []
  | '\r' :: '\n' :: rest => '\n' :: unifyBreaks rest
  | c :: rest => (if c = '\r' ∨ c = '\u0085' then '\n' else c) :: unifyBreaks rest

/-- The value of a digit in a base of at most sixteen. -/
def digit? (base : Nat) (c : Char) : Option Nat :=
  let value? : Option Nat :=
    if c.isDigit then some (c.toNat - '0'.toNat)
    else if 'a' ≤ c.toLower ∧ c.toLower ≤ 'f' then some (c.toLower.toNat - 'a'.toNat + 10)
    else none
  value?.filter (· < base)

/-- Reads a nonempty run of digits in a base. -/
def digits? (base : Nat) (t : Text) : Option Nat :=
  if t.isEmpty then none
  else do some ((← t.mapM (digit? base)).foldl (fun n d => base * n + d) 0)

end ProofSheet.Yaml
