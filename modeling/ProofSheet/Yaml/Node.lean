import ProofSheet.Yaml.Outline

set_option autoImplicit false

/-! # Nodes of a YAML text

Marks make up nodes: scalars, sequences, mappings. A node may have a name, and an alias is another
place for a named node. A name has the number of different names before it, and its alias is for
the last node of the text whose name has that number. A tag is kept with a scalar only, since it
makes no difference to what a sequence or mapping is read as. A missing value is an empty plain
scalar, and so is an empty document.
-/

namespace ProofSheet.Yaml

/-- A node. An alias gives the number of its name. -/
inductive Node where
  | scalar (text : Text) (style : Style) (tag : Option Text)
  | sequence (items : List Node)
  | mapping (entries : List (Node × Node))
  | aliasOf (number : Nat)
deriving Repr, Inhabited

/-- The node that stands for a missing value. -/
def Node.missing : Node := .scalar [] .plain none

/-- What is left of a text, and what has been named in it. -/
structure Source where
  marks : List Mark
  handles : List (Text × Text) := defaultHandles
  /-- The names and their numbers, the last given one first. -/
  names : List (Text × Nat) := []
  /-- The named nodes that are complete, by their place in the order of all named nodes. -/
  named : List (Nat × Node) := []
  /-- How many scalars and aliases there are, and beginnings and ends of other nodes. -/
  events : Nat := 0
deriving Inhabited

/-- Reads part of a text, or finds an error in it. -/
abbrev Reader := StateT Source Option

namespace Reader

/-- The next mark. -/
def peek : Reader (Option Mark) := do return (← get).marks.head?

/-- Passes the next mark. -/
def skip : Reader Unit := modify fun s => { s with marks := s.marks.drop 1 }

/-- The next mark is one of some. -/
def isAt (ms : List Mark) : Reader Bool := do return (← peek).any ms.contains

/-- Passes the next mark if it is the given one. -/
def accept (m : Mark) : Reader Bool := do
  if ← isAt [m] then
    skip
    return true
  else return false

/-- Passes a mark that has to be next. -/
def expect (m : Mark) : Reader Unit := do
  if ← accept m then return else failure

/-- Passes the name of a node if one is next. -/
def acceptName : Reader (Option Text) := do
  match ← peek with
  | some (.anchor name) =>
    skip
    return some name
  | _ => return none

/-- Passes a tag if one is next. Its handle has to be known. -/
def acceptTag : Reader (Option Text) := do
  match ← peek with
  | some (.tag t) =>
    skip
    return some (← t.resolve? (← get).handles)
  | _ => return none

/-- Notes the name of a node that begins, and gives its place in the order of named nodes. -/
def noteName (name : Text) : Reader Nat := do
  let names := (← get).names
  let number := (names.map Prod.fst).eraseDups.length
  modify fun s => { s with names := (name, number) :: names }
  return names.length

/-- Counts what a text has been read as. -/
def count (events : Nat) : Reader Unit := modify fun s => { s with events := s.events + events }

/-- Another place for a node that has a name. -/
def aliasOf (name : Text) : Reader Node := do
  count 1
  return .aliasOf (← (← get).names.lookup name)

/-- A node that is missing. -/
def missing : Reader Node := do
  count 1
  return .missing

mutual

/-- Reads a node. A block sequence or mapping may be refused, and a sequence as far left as the
key that it belongs to accepted. -/
def node (fuel : Nat) (block flush : Bool) : Reader Node :=
  match fuel with
  | 0 => failure
  | fuel + 1 => do
    match ← peek with
    | some (.aliasOf name) =>
      skip
      aliasOf name
    | _ =>
      let before ← acceptName
      let tag ← acceptTag
      let name := before.or (← if before.isNone then acceptName else pure none)
      let place? ← name.mapM noteName
      let n ← content fuel block flush (name.isSome || tag.isSome) tag
      count (if n matches .scalar _ _ _ then 1 else 2)
      modify fun s => { s with named := place?.toList.map (·, n) ++ s.named }
      return n

/-- Reads a node after its name and its tag. -/
def content (fuel : Nat) (block flush mayBeMissing : Bool) (tag : Option Text) : Reader Node :=
  match fuel with
  | 0 => failure
  | fuel + 1 => do
    match ← peek with
    | some (.scalar text style) =>
      skip
      return .scalar text style (tag.filter (· ≠ ['!']))
    | some .openSequence =>
      skip
      return .sequence (← flowItems fuel true)
    | some .openMapping =>
      skip
      return .mapping (← flowEntries fuel true)
    | next =>
      if flush && next == some .entry then return .sequence (← flushItems fuel)
      else if block && next == some .blockSequence then
        skip
        return .sequence (← blockItems fuel)
      else if block && next == some .blockMapping then
        skip
        return .mapping (← blockEntries fuel)
      else if mayBeMissing then return .scalar [] .plain tag
      else failure

/-- Reads a node that is missing if one of some marks is next. -/
def nodeUnless (fuel : Nat) (ends : List Mark) (block flush : Bool) : Reader Node :=
  match fuel with
  | 0 => failure
  | fuel + 1 => do
    if ← isAt ends then missing else node fuel block flush

/-- Reads the items of a block sequence and its end. -/
def blockItems (fuel : Nat) : Reader (List Node) :=
  match fuel with
  | 0 => failure
  | fuel + 1 => do
    if ← accept .entry then
      let item ← nodeUnless fuel [.entry, .blockEnd] true false
      return item :: (← blockItems fuel)
    else
      expect .blockEnd
      return []

/-- Reads the items of a block sequence that is in the column of the mapping around it. -/
def flushItems (fuel : Nat) : Reader (List Node) :=
  match fuel with
  | 0 => failure
  | fuel + 1 => do
    if ← accept .entry then
      let item ← nodeUnless fuel [.entry, .key, .value, .blockEnd] true false
      return item :: (← flushItems fuel)
    else return []

/-- Reads the entries of a block mapping and its end. -/
def blockEntries (fuel : Nat) : Reader (List (Node × Node)) :=
  match fuel with
  | 0 => failure
  | fuel + 1 => do
    if ← accept .key then
      let key ← nodeUnless fuel [.key, .value, .blockEnd] true true
      let value ←
        if ← accept .value then nodeUnless fuel [.key, .value, .blockEnd] true true
        else missing
      return (key, value) :: (← blockEntries fuel)
    else
      expect .blockEnd
      return []

/-- Reads the items of a sequence in brackets and the closing bracket. An item with the mark of a
key is a mapping of one entry; where its key is missing, the mark that shows this is passed. -/
def flowItems (fuel : Nat) (first : Bool) : Reader (List Node) :=
  match fuel with
  | 0 => failure
  | fuel + 1 => do
    if ← accept .closeSequence then return []
    if !first then expect .comma
    if ← accept .key then
      let key ←
        if ← isAt [.value, .comma, .closeSequence] then
          skip
          missing
        else node fuel false false
      let value ←
        if ← accept .value then nodeUnless fuel [.comma, .closeSequence] false false
        else missing
      count 2
      return .mapping [(key, value)] :: (← flowItems fuel false)
    else if ← accept .closeSequence then return []
    else
      let item ← node fuel false false
      return item :: (← flowItems fuel false)

/-- Reads the entries of a mapping in braces and the closing brace. -/
def flowEntries (fuel : Nat) (first : Bool) : Reader (List (Node × Node)) :=
  match fuel with
  | 0 => failure
  | fuel + 1 => do
    if ← accept .closeMapping then return []
    if !first then expect .comma
    if ← accept .key then
      let key ← nodeUnless fuel [.value, .comma, .closeMapping] false false
      let value ←
        if ← accept .value then nodeUnless fuel [.comma, .closeMapping] false false
        else missing
      return (key, value) :: (← flowEntries fuel false)
    else if ← accept .closeMapping then return []
    else
      let key ← node fuel false false
      return (key, ← missing) :: (← flowEntries fuel false)

end

/-- Reads the directives of a document: at most one version, which is 1.1 or 1.2, and handles
that are all different. Tells whether there are any. -/
def directives (fuel : Nat) (version : Bool) (handles : List (Text × Text)) : Reader Bool :=
  match fuel with
  | 0 => failure
  | fuel + 1 => do
    match ← peek with
    | some (.version major minor) =>
      if version || major ≠ 1 || (minor ≠ 1 && minor ≠ 2) then failure
      skip
      directives fuel true handles
    | some (.handle name meaning) =>
      if (handles.lookup name).isSome then failure
      skip
      directives fuel version ((name, meaning) :: handles)
    | _ =>
      modify fun s => { s with handles := handles ++ s.handles }
      return version || !handles.isEmpty

/-- Reads a document. One without directives needs no mark at its beginning. -/
def document (fuel : Nat) : Reader Node := do
  let directed ← directives fuel false []
  let started ← accept .documentStart
  if directed && !started then failure
  let more := match ← peek with
    | none | some .documentStart | some (.version _ _) | some (.handle _ _) => false
    | some .documentEnd => !started
    | _ => true
  if more then node fuel true false else missing

end Reader

/-- A document. -/
structure Document where
  root : Node
  /-- The node that is meant by each number of a name. -/
  named : List (Nat × Node)
  /-- How many aliases may be followed in reading the document. -/
  aliasLimit : Nat
deriving Inhabited

/-- For each number of a name, the last node with it. -/
def Source.meaning (s : Source) : List (Nat × Node) :=
  s.names.zipIdx.filterMap fun ((_, number), later) =>
    (s.named.lookup (s.names.length - 1 - later)).map (number, ·)

/-- The document of a text that has just one. Marks that end it may follow it. For all that it
consists of, a hundred aliases may be followed. -/
def Document.ofText? (text : Text) : Option Document := do
  let marks ← marks? text
  let (root, s) ← (Reader.document (4 * marks.length + 4)).run { marks := marks }
  if s.marks.all (· = .documentEnd) then some ⟨root, s.meaning, 100 * s.events⟩ else none

end ProofSheet.Yaml
