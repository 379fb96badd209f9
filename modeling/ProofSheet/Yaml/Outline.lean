import ProofSheet.Yaml.Mark
import ProofSheet.Yaml.Scalar.Block
import ProofSheet.Yaml.Scalar.Plain
import ProofSheet.Yaml.Scalar.Quoted

set_option autoImplicit false

/-! # The outline of a YAML text

How a text is cut into its marks. Outside brackets, columns tell the structure: a block sequence
or mapping begins where an entry or a key is right of all that is open, and ends before whatever
begins left of it. A node is known to be a key only from the colon that follows it in its line,
so that the place of a possible key is kept until there is a colon or there can be none.
-/

namespace ProofSheet.Yaml

/-- Where a node begins that is a key if a colon follows. -/
structure PossibleKey where
  position : Position
  /-- Nothing but a key can begin here. -/
  required : Bool
  /-- The number of marks before the node. -/
  index : Nat
deriving DecidableEq, Repr, Inhabited

/-- A key and its colon are in one line, at most 1024 characters apart. -/
def PossibleKey.reaches (k : PossibleKey) (p : Position) : Bool :=
  k.position.line == p.line && p.column ≤ k.position.column + 1024

/-- What has been found in a text so far. -/
structure Outline where
  position : Position := {}
  /-- The columns of the open block sequences and mappings, the innermost first. -/
  columns : List Nat := []
  /-- A key may begin here. -/
  keyAllowed : Bool := true
  key? : Option PossibleKey := none
  /-- The possible keys outside each of the open brackets. -/
  outerKeys : List (Option PossibleKey) := []
  /-- The marks, the last one first. -/
  marks : List Mark := []
  /-- The number of marks. -/
  count : Nat := 0
deriving Repr, Inhabited

namespace Outline

/-- The place is inside brackets. -/
def inFlow (o : Outline) : Bool := !o.outerKeys.isEmpty

/-- The leftmost column for what belongs to the innermost block sequence or mapping. -/
def margin (o : Outline) : Nat := o.columns.head?.elim 0 (· + 1)

/-- An outline with one more mark. -/
def add (o : Outline) (m : Mark) : Outline := { o with marks := m :: o.marks, count := o.count + 1 }

/-- An outline with a mark after the first `index` ones. -/
def addAt (o : Outline) (index : Nat) (m : Mark) : Outline :=
  let later := o.count - index
  { o with marks := o.marks.take later ++ m :: o.marks.drop later, count := o.count + 1 }

/-- An outline with another possibility for keys at its place. -/
def allow (o : Outline) (keyAllowed : Bool) : Outline := { o with keyAllowed := keyAllowed }

/-- Outside brackets, begins a block sequence or mapping in a column, before the mark at an index,
unless one is open there. -/
def openBlock (o : Outline) (column index : Nat) (m : Mark) : Outline :=
  if !o.inFlow && o.margin ≤ column then
    { o with columns := column :: o.columns }.addAt index m
  else o

/-- Outside brackets, ends the block sequences and mappings whose columns satisfy a condition. -/
def closeBlocks (o : Outline) (ends : Nat → Bool) : Outline :=
  if o.inFlow then o
  else
    let closed := (o.columns.takeWhile ends).length
    { o with
      columns := o.columns.drop closed
      marks := List.replicate closed .blockEnd ++ o.marks
      count := o.count + closed }

/-- There is no key at the last place for one. -/
def dropKey? (o : Outline) : Option Outline :=
  if o.key?.any PossibleKey.required then none else some { o with key? := none }

/-- Forgets the places of possible keys that no colon can follow any more. -/
def dropStaleKeys? (o : Outline) : Option Outline :=
  let isStale := fun k : PossibleKey => !k.reaches o.position
  if (o.key? :: o.outerKeys).any fun k? => k?.any fun k => k.required && isStale k then none
  else
    some
      { o with
        key? := o.key?.filter (!isStale ·)
        outerKeys := o.outerKeys.map fun k? => k?.filter (!isStale ·) }

/-- Notes that the node that begins here may be a key. -/
def noteKey? (o : Outline) : Option Outline :=
  if o.keyAllowed then do
    let o ← o.dropKey?
    let required := !o.inFlow && o.columns.head? == some o.position.column
    some { o with key? := some ⟨o.position, required, o.count⟩ }
  else some o

/-- Adds a mark that begins or is a node which may be a key. No key begins right after it. -/
def addNode? (o : Outline) (m : Mark) : Option Outline := do
  some ((← o.noteKey?).add m |>.allow false)

/-- Adds an opening bracket. -/
def openBrackets? (o : Outline) (m : Mark) : Option Outline := do
  let o ← o.noteKey?
  some ({ o with key? := none, outerKeys := o.key? :: o.outerKeys }.add m |>.allow true)

/-- Adds a closing bracket. -/
def closeBrackets? (o : Outline) (m : Mark) : Option Outline := do
  let o ← o.dropKey?
  let o :=
    match o.outerKeys with
    | [] => o
    | k? :: more => { o with key? := k?, outerKeys := more }
  some (o.add m |>.allow false)

/-- Adds a comma. -/
def addComma? (o : Outline) : Option Outline := do
  some ((← o.dropKey?).add .comma |>.allow true)

/-- Adds the dash of an entry. -/
def addEntry? (o : Outline) : Option Outline :=
  if !o.inFlow && !o.keyAllowed then none
  else do
    let o ← (o.openBlock o.position.column o.count .blockSequence).dropKey?
    some (o.add .entry |>.allow true)

/-- Adds the question mark of a key. -/
def addKey? (o : Outline) : Option Outline :=
  if !o.inFlow && !o.keyAllowed then none
  else do
    let o ← (o.openBlock o.position.column o.count .blockMapping).dropKey?
    some (o.add .key |>.allow !o.inFlow)

/-- Adds the colon of a value, and the mark of the key if the key has none. -/
def addValue? (o : Outline) : Option Outline :=
  match o.key? with
  | some k =>
    let o := (o.addAt k.index .key).openBlock k.position.column k.index .blockMapping
    some ({ o with key? := none }.add .value |>.allow false)
  | none =>
    if !o.inFlow && !o.keyAllowed then none
    else
      let o := o.openBlock o.position.column o.count .blockMapping
      some (o.add .value |>.allow !o.inFlow)

/-- Adds a mark about the document, which ends all blocks. -/
def addDocumentMark? (o : Outline) (m : Mark) : Option Outline := do
  some ((← (o.closeBlocks fun _ => true).dropKey?).add m |>.allow false)

/-- Adds the mark that a text begins with, and gives the number of characters that it takes. The
place is still that of the mark. -/
def addMark? (o : Outline) (c : Char) (rest : Text) : Option (Outline × Nat) :=
  let startsLine := o.position.column == 0
  let sizeBefore := fun after : Text => rest.length + 1 - after.length
  if startsLine && c == '%' then do
    let (m, after) ← cutDirective rest
    some (← o.addDocumentMark? m, sizeBefore after)
  else if startsLine && atDocumentStart (c :: rest) then do
    some (← o.addDocumentMark? .documentStart, 3)
  else if startsLine && atDocumentEnd (c :: rest) then do
    some (← o.addDocumentMark? .documentEnd, 3)
  else if c = '[' then do some (← o.openBrackets? .openSequence, 1)
  else if c = '\x7b' then do some (← o.openBrackets? .openMapping, 1)
  else if c = ']' then do some (← o.closeBrackets? .closeSequence, 1)
  else if c = '\x7d' then do some (← o.closeBrackets? .closeMapping, 1)
  else if c = ',' then do some (← o.addComma?, 1)
  else if c = '-' ∧ atGap rest then do some (← o.addEntry?, 1)
  else if c = '?' ∧ (o.inFlow ∨ atGap rest) then do some (← o.addKey?, 1)
  else if c = ':' ∧ (o.inFlow ∨ atGap rest) then do some (← o.addValue?, 1)
  else if c = '*' then do
    let (name, after) ← cutName rest
    some (← o.addNode? (.aliasOf name), sizeBefore after)
  else if c = '&' then do
    let (name, after) ← cutName rest
    some (← o.addNode? (.anchor name), sizeBefore after)
  else if c = '!' then do
    let (t, after) ← cutTag rest
    if atGap after || (o.inFlow && after.head? == some ',') then
      some (← o.addNode? (.tag t), sizeBefore after)
    else none
  else if (c = '|' ∨ c = '>') ∧ !o.inFlow then do
    let (text, after) ← cutBlockScalar (c == '>') o.margin rest
    let style := if c = '>' then Style.folded else Style.literal
    some ((← o.dropKey?).add (.scalar text style) |>.allow true, sizeBefore after)
  else if c = singleQuote ∨ c = doubleQuote then do
    let (text, size) ← readQuoted c {} false rest
    some (← o.addNode? (.scalar text .quoted), size + 1)
  else if isIndicator c then none
  else do
    let (text, size) ← readPlain o.inFlow o.margin {} o.position.column (c :: rest)
    some (← o.addNode? (.scalar text .plain), size)

/-- The outline after some characters of the text. -/
def advance (o : Outline) (t : Text) : Outline :=
  { o with position := positionFrom o.position t t.length }

/-- Outside brackets, a key may begin in a new line. -/
def newLine (o : Outline) : Outline := o.allow (o.keyAllowed || !o.inFlow)

/-- What has to hold, and ends, where a mark begins. -/
def atMark? (o : Outline) : Option Outline := do
  some ((← o.dropStaleKeys?).closeBlocks (o.position.column < ·))

/-- Adds the marks of a text. The fuel bounds the number of steps. A tab where a key may begin is
an error outside brackets. A mark of the byte order at the beginning of a line takes a column,
but means nothing. -/
def addMarks? (fuel : Nat) (o : Outline) (cs : Text) : Option Outline :=
  match fuel, cs with
  | _, [] => do (← (← o.atMark?).closeBlocks (fun _ => true) |>.dropKey?)
  | 0, _ => none
  | fuel + 1, c :: rest =>
    if isBreak c then addMarks? fuel (o.advance [c]).newLine rest
    else if c = byteOrderMark ∧ o.position.column = 0 then addMarks? fuel (o.advance [c]) rest
    else if c = '\t' ∧ o.keyAllowed ∧ !o.inFlow then none
    else if isSpace c then addMarks? fuel (o.advance [c]) rest
    else if c = '#' then
      addMarks? fuel (o.advance (c :: rest.takeWhile (!isBreak ·))) (rest.dropWhile (!isBreak ·))
    else do
      let (o, size) ← (← o.atMark?).addMark? c rest
      let passed := (c :: rest).take size
      let o := o.advance passed
      let ended := (passed.reverse.takeWhile isGap).any isBreak
      addMarks? fuel (if ended then o.newLine else o) ((c :: rest).drop size)

end Outline

/-- The marks of a text. -/
def marks? (text : Text) : Option (List Mark) :=
  if text.all isAllowed then do
    let cs := unifyBreaks text
    some (← Outline.addMarks? (cs.length + 1) {} cs).marks.reverse
  else none

end ProofSheet.Yaml
