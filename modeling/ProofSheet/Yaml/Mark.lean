import ProofSheet.Yaml.Tag

set_option autoImplicit false

/-! # Marks of a YAML text

A text is first cut into marks. Some stand in the text: scalars, brackets, commas, the dash of an
entry, the colon before a value, names, tags, and what is said about the document. Others follow
from how the text is laid out: where a block sequence or mapping begins and ends, and that a
node is a key.
-/

namespace ProofSheet.Yaml

/-- How a scalar is written. -/
inductive Style where
  | plain
  | quoted
  | literal
  | folded
deriving DecidableEq, Repr, Inhabited

/-- A mark. -/
inductive Mark where
  /-- The version of YAML that a document is written in. -/
  | version (major minor : Nat)
  /-- A handle, and what it stands for in the tags of a document. -/
  | handle (name meaning : Text)
  | documentStart
  | documentEnd
  | blockSequence
  | blockMapping
  | blockEnd
  | openSequence
  | closeSequence
  | openMapping
  | closeMapping
  | entry
  | comma
  | key
  | value
  /-- The name of the node that follows. -/
  | anchor (name : Text)
  /-- The node that has a name. -/
  | aliasOf (name : Text)
  | tag (t : Tag)
  | scalar (text : Text) (style : Style)
deriving DecidableEq, Repr, Inhabited

/-- Passes what may follow a directive in its line. -/
def endDirective (m : Mark) (cs : Text) : Option (Mark × Text) :=
  let rest := cs.dropWhile isSpace
  let rest := if rest.head? = some '#' then rest.dropWhile (!isBreak ·) else rest
  if rest.head?.all isBreak then some (m, rest.drop 1) else none

/-- Reads a number of at most nine digits at the beginning of a text. -/
def cutVersionNumber (cs : Text) : Option (Nat × Text) := do
  let word := cs.takeWhile Char.isDigit
  let number ← digits? 10 word
  if word.length ≤ 9 then some (number, cs.dropWhile Char.isDigit) else none

/-- Cuts a directive off a text that begins after its percent sign: a version, or a handle and its
meaning. -/
def cutDirective (cs : Text) : Option (Mark × Text) :=
  let rest := cs.dropWhile isWordChar
  let rest' := rest.dropWhile isSpace
  if !atGap rest then none
  else if cs.takeWhile isWordChar = ['Y', 'A', 'M', 'L'] then do
    let (major, after) ← cutVersionNumber rest'
    if after.head? = some '.' then do
      let (minor, after) ← cutVersionNumber (after.drop 1)
      endDirective (.version major minor) after
    else none
  else if cs.takeWhile isWordChar = ['T', 'A', 'G'] then
    match rest' with
    | '!' :: named => do
      let (name, after) := cutHandle named
      let (meaning, ended) ← cutTagChars true (after.dropWhile isSpace)
      if name.getLast? = some '!' ∧ after.head?.any isSpace ∧ !meaning.isEmpty ∧ atGap ended then
        endDirective (.handle name meaning) ended
      else none
    | _ => none
  else none

/-- Cuts the name of a node off a text. -/
def cutName (cs : Text) : Option (Text × Text) :=
  let name := cs.takeWhile isWordChar
  let after := cs.dropWhile isWordChar
  let ends := fun c : Char => isGap c || ['?', ':', ',', ']', '\x7d', '%', '@', '\x60'].contains c
  if name.isEmpty || !after.head?.all ends then none else some (name, after)

end ProofSheet.Yaml
