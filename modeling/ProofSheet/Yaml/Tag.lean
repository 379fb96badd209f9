import ProofSheet.Yaml.Character

set_option autoImplicit false

/-! # Tags of a YAML text

A tag says what kind of value a node is. It is written as a handle and a suffix: the handle is
an exclamation mark, two of them, or a word between two, and stands for a text that precedes
the suffix. A tag in angle brackets has no handle. Characters of a suffix may be written as the
octets of their UTF-8 form, each in two hexadecimal digits after a percent sign.
-/

namespace ProofSheet.Yaml

/-- The characters of names: ASCII letters and digits, underlines, dashes. -/
def isWordChar (c : Char) : Bool := c.isAlphanum || c == '_' || c == '-'

/-- The characters of a tag, with those that structure a flow sequence only in angle brackets
and directives. -/
def isTagChar (wide : Bool) (c : Char) : Bool :=
  isWordChar c ||
    [';', '/', '?', ':', '@', '&', '=', '+', '$', '.', '%', '!', '~', '*', '(', ')',
      singleQuote].contains c ||
    (wide && [',', '[', ']'].contains c)

/-- The octet that a percent sign and two digits at the beginning of a text stand for. -/
def octet? : Text → Option Nat
  | '%' :: c :: d :: _ => digits? 16 [c, d]
  | _ => none

/-- The number of octets of a character in UTF-8, by the first of them. -/
def octetCount? (first : Nat) : Option Nat :=
  if first < 0x80 then some 1
  else if first / 0x20 = 0x06 then some 2
  else if first / 0x10 = 0x0e then some 3
  else if first / 0x08 = 0x1e then some 4
  else none

/-- The part of a first octet that belongs to the code of the character. -/
def octetValue (count first : Nat) : Nat :=
  if count = 1 then first else first % (1 <<< (7 - count))

/-- The character whose octets are at the beginning of a text, and the number of characters that
it is written with. -/
def octetsChar? (cs : Text) : Option (Char × Nat) := do
  let first ← octet? cs
  let count ← octetCount? first
  let others ← (List.range (count - 1)).mapM fun i =>
    (octet? (cs.drop (3 * (i + 1)))).filter (· / 0x40 = 2)
  let code := others.foldl (fun n o => 0x40 * n + o % 0x40) (octetValue count first)
  some (Char.ofNat code, 3 * count)

/-- Cuts the characters of a tag off a text. -/
def cutTagChars (wide : Bool) (cs : Text) : Option (Text × Text) :=
  match cs with
  | [] => some ([], [])
  | c :: rest =>
    if c = '%' then do
      let (d, size) ← octetsChar? (c :: rest)
      let (more, after) ← cutTagChars wide (rest.drop (size - 1))
      some (d :: more, after)
    else if isTagChar wide c then do
      let (more, after) ← cutTagChars wide rest
      some (c :: more, after)
    else some ([], cs)
termination_by cs.length

/-- Cuts a handle off a text that begins after its first exclamation mark. -/
def cutHandle (cs : Text) : Text × Text :=
  let word := cs.takeWhile isWordChar
  match cs.dropWhile isWordChar with
  | '!' :: after => ('!' :: word ++ ['!'], after)
  | after => ('!' :: word, after)

/-- A tag as it is written. The handle of a tag in angle brackets is empty. -/
structure Tag where
  handle : Text
  suffix : Text
deriving DecidableEq, Repr, Inhabited

/-- Cuts a tag off a text that begins after its first exclamation mark. A word that no second
exclamation mark follows belongs to the suffix; an exclamation mark alone is a tag itself. -/
def cutTag (cs : Text) : Option (Tag × Text) :=
  match cs with
  | '<' :: rest => do
    let (name, after) ← cutTagChars true rest
    if name.isEmpty || after.head? != some '>' then none else some (⟨[], name⟩, after.drop 1)
  | _ =>
    let (handle, rest) := cutHandle cs
    if 1 < handle.length && handle.getLast? == some '!' then do
      let (suffix, after) ← cutTagChars false rest
      if suffix.isEmpty then none else some (⟨handle, suffix⟩, after)
    else do
      let (more, after) ← cutTagChars false rest
      let suffix := handle.drop 1 ++ more
      some (if suffix.isEmpty then ⟨[], ['!']⟩ else ⟨['!'], suffix⟩, after)

/-- What the kinds of values that every text knows begin with. -/
def coreTags : Text := "tag:yaml.org,2002:".toList

/-- The handles that need no directive. -/
def defaultHandles : List (Text × Text) := [(['!'], ['!']), (['!', '!'], coreTags)]

/-- The tag of whole numbers. -/
def integerTag : Text := coreTags ++ ['i', 'n', 't']

/-- The text that a tag stands for, if its handle is known. -/
def Tag.resolve? (handles : List (Text × Text)) (t : Tag) : Option Text :=
  if t.handle.isEmpty then some t.suffix
  else (handles.lookup t.handle).map (· ++ t.suffix)

end ProofSheet.Yaml
