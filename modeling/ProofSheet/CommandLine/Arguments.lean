import ProofSheet.Step.Id

set_option autoImplicit false

/-! # Command-line arguments

A command line names one of three commands and gives its arguments. Three options may stand
before or after the name of the command: a settings file, a file with a theorem table, and
the offset of the caret. An option given after the command counts more than one given before
it, and none may be given twice on the same side. A value is joined to its option by `=` or
is the next argument, which then does not begin with a dash. After `--` nothing is an option.
-/

namespace ProofSheet

/-- The options of all commands. -/
structure Options where
  settings : Option Text := none
  theorems : Option Text := none
  caret : Option Nat := none
deriving DecidableEq, Repr, Inhabited

/-- A command and its arguments. -/
inductive Command where
  /-- Loads each file and reports what was found. -/
  | check (files : List Text)
  /-- Prints a worksheet with its steps renumbered. -/
  | renumber (interval : Option Nat) (file : Text)
  /-- Prints a fresh worksheet for a known theorem. -/
  | skeleton (label : Text)
deriving DecidableEq, Repr, Inhabited

/-- A command line that can be carried out. -/
structure Invocation where
  options : Options
  command : Command
deriving DecidableEq, Repr, Inhabited

/-- What a single argument looks like. -/
inductive Argument where
  /-- The argument `--`. -/
  | escape
  /-- An option, `--name` or `--name=value`. -/
  | option (name : Text) (value : Option Text)
  /-- A single dash with something after it; no option is written so. -/
  | dashed
  | word (w : Text)
deriving DecidableEq, Repr, Inhabited

/-- Tells what an argument looks like. -/
def Argument.of : Text → Argument
  | ['-', '-'] => .escape
  | '-' :: '-' :: rest =>
    match rest.dropWhile (· != '=') with
    | [] => .option rest none
    | _ :: value => .option (rest.takeWhile (· != '=')) (some value)
  | ['-'] => .word ['-']
  | '-' :: _ => .dashed
  | w => .word w

/-- The options and the other words on one side of a command's name. -/
structure Side where
  options : List (Text × Text) := []
  words : List Text := []
deriving DecidableEq, Repr, Inhabited

namespace Side

/-- Adds an option in front, if it is a known one that is not given yet. -/
def addOption (known : List String) (name value : Text) (s : Side) : Option Side :=
  if known.contains (String.ofList name) ∧ (s.options.lookup name).isNone then
    some { s with options := (name, value) :: s.options }
  else none

/-- Reads the arguments after the name of a command. -/
def ofArguments? (known : List String) : List Text → Option Side
  | [] => some {}
  | argument :: rest =>
    match Argument.of argument with
    | .escape => some { words := rest }
    | .dashed => none
    | .word w => (ofArguments? known rest).map fun s => { s with words := w :: s.words }
    | .option name (some value) => (ofArguments? known rest).bind (addOption known name value)
    | .option name none =>
      match rest with
      | [] => none
      | value :: rest =>
        match Argument.of value with
        | .word value => (ofArguments? known rest).bind (addOption known name value)
        | _ => none

/-- Reads the arguments up to the name of a command; the words are that name and all that
follows. -/
def ofLeading? (known : List String) : List Text → Option Side
  | [] => some {}
  | argument :: rest =>
    match Argument.of argument with
    | .escape | .dashed => none
    | .word _ => some { words := argument :: rest }
    | .option name (some value) => (ofLeading? known rest).bind (addOption known name value)
    | .option name none =>
      match rest with
      | [] => none
      | value :: rest =>
        match Argument.of value with
        | .word value => (ofLeading? known rest).bind (addOption known name value)
        | _ => none

/-- Reads the value of an option, if it is given. -/
def value? {α : Type} (s : Side) (name : String) (read : Text → Option α) : Option (Option α) :=
  match s.options.lookup name.toList with
  | none => some none
  | some value => (read value).map some

end Side

/-- A path is not empty. -/
def readPath (t : Text) : Option Text := if t.isEmpty then none else some t

/-- Reads a number up to a greatest one; a plus sign may precede it. -/
def readUnsigned (greatest : Nat) (t : Text) : Option Nat :=
  let digits := if t.head? = some '+' then t.drop 1 else t
  (readDecimal digits).filter (· ≤ greatest)

namespace Options

/-- The names of the options of all commands. -/
def names : List String := ["settings", "theorems", "cursor"]

/-- The options on one side of a command's name. -/
def ofSide? (s : Side) : Option Options := do
  some
    { settings := ← s.value? "settings" readPath
      theorems := ← s.value? "theorems" readPath
      caret := ← s.value? "cursor" (readUnsigned 0xFFFFFFFFFFFFFFFF) }

/-- The options after the command's name, and for the rest those before it. -/
def orElse (after before : Options) : Options :=
  { settings := after.settings.or before.settings
    theorems := after.theorems.or before.theorems
    caret := after.caret.or before.caret }

end Options

namespace Command

/-- The names of the options that a command takes. -/
def optionNames (name : Text) : List String :=
  if name = "renumber".toList then "interval" :: Options.names else Options.names

/-- The command with a name, for the arguments after it. -/
def ofSide? (name : Text) (s : Side) : Option Command :=
  if name = "check".toList then do
    let files ← s.words.mapM readPath
    if files.isEmpty then none else some (.check files)
  else if name = "renumber".toList then
    match s.words with
    | [file] => do
      some (.renumber (← s.value? "interval" (readUnsigned StepId.maxNumber)) (← readPath file))
    | _ => none
  else if name = "skeleton".toList then
    match s.words with
    | [label] => some (.skeleton label)
    | _ => none
  else none

end Command

/-- Reads a command line. -/
def Invocation.ofArguments? (arguments : List Text) : Option Invocation := do
  let leading ← Side.ofLeading? Options.names arguments
  match leading.words with
  | [] => none
  | name :: rest =>
    let side ← Side.ofArguments? (Command.optionNames name) rest
    let command ← Command.ofSide? name side
    let before ← Options.ofSide? leading
    let after ← Options.ofSide? side
    some { options := after.orElse before, command := command }

end ProofSheet
