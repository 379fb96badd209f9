import ProofSheet.CommandLine.Arguments
import ProofSheet.Worksheet.Renumber
import ProofSheet.Worksheet.Skeleton
import ProofSheet.Yaml.Documents

set_option autoImplicit false

/-! # Carrying out a command

A command reads files and gives what it prints, what it reports as an error, and an exit
status: 0 if every worksheet was loaded without a structural fault, 1 if one was broken or
could not be read or the command failed, 2 if a worksheet shows a fault of the program
itself, or if the command line is not understood.
-/

namespace ProofSheet

/-- Why a file cannot be read. -/
inductive FileError where
  | missing
  | notText
  | other (reason : String)
deriving DecidableEq, Repr, Inhabited

/-- The wording of a file error. -/
def FileError.message : FileError → String
  | missing => "No such file or directory (os error 2)"
  | notText => "stream did not contain valid UTF-8"
  | other reason => reason

/-- The contents of files, by path. -/
abbrev Files := Text → Except FileError Text

/-- What a command leaves behind. -/
structure Result where
  exit : Nat
  out : String := ""
  err : String := ""
deriving DecidableEq, Repr, Inhabited

/-- The result of a command that fails. -/
def Result.failure (message : String) : Result := { exit := 1, err := "error: " ++ message ++ "\n" }

/-- The result for a command line that is not understood. -/
def Result.usage : Result :=
  { exit := 2
    err :=
      "error: usage: proofsheet [--settings FILE] [--theorems FILE] [--cursor OFFSET] " ++
        "(check FILE... | renumber [--interval N] FILE | skeleton LABEL)\n" }

namespace Worksheet

/-- The exit status that a worksheet stands for. -/
def exitStatus (ws : Worksheet) : Nat :=
  if Message.hasAbort ws.messages then 2 else if ws.broken then 1 else 0

/-- What is reported of a worksheet: its state, its messages, and where the cursor is. -/
def report (path : Text) (ws : Worksheet) : String :=
  let state := if ws.broken then "broken" else "ok"
  let summary :=
    String.ofList path ++ ": " ++ state ++ " (" ++ toString ws.steps.length ++ " steps, " ++
      toString ws.messages.length ++ " messages)\n"
  let messages := ws.messages.map fun m => "  " ++ m.describe ++ "\n"
  let cursor :=
    match ws.cursorLocation? with
    | some (_, p) => "  cursor at " ++ p.describe ++ "\n"
    | none => ""
  summary ++ String.join messages ++ cursor

end Worksheet

/-- The wording of a file that cannot be read. -/
def unreadable (path : Text) (e : FileError) : String :=
  "failed to read " ++ String.ofList path ++ ": " ++ e.message

/-- Checks one file. -/
def checkFile (files : Files) (load : Text → Worksheet) (path : Text) : Result :=
  match files path with
  | .error e =>
    { exit := 1, out := String.ofList path ++ ": unreadable (" ++ unreadable path e ++ ")\n" }
  | .ok text =>
    let ws := load text
    { exit := ws.exitStatus, out := ws.report path }

/-- Checks files one after the other; the worst status counts. -/
def checkFiles (files : Files) (load : Text → Worksheet) (paths : List Text) : Result :=
  let results := paths.map (checkFile files load)
  { exit := (results.map Result.exit).foldl max 0
    out := String.join (results.map Result.out) }

/-- Renumbers the steps of a file, which has to be a sound worksheet. -/
def renumberFile (files : Files) (load : Text → Worksheet) (interval : Nat) (path : Text) :
    Result :=
  match files path with
  | .error e => .failure (unreadable path e)
  | .ok text =>
    let ws := load text
    if ws.broken then { exit := ws.exitStatus, out := ws.report path }
    else
      match ws.renumber interval with
      | .error r => .failure r.message
      | .ok (renumbered, _) =>
        { exit := renumbered.exitStatus, out := String.ofList renumbered.output }

/-- Prints the skeleton for a theorem. -/
def printSkeleton (db : Database) (st : Settings) (label : Text) : Result :=
  match Worksheet.skeleton db st label with
  | .error r => .failure r.message
  | .ok ws => { exit := ws.exitStatus, out := String.ofList ws.output }

/-- The settings of a command: those of the file that it names, or the defaults. -/
def Options.readSettings (files : Files) (o : Options) : Except String Settings :=
  match o.settings with
  | none => .ok {}
  | some path =>
    let failed := "failed to read settings from " ++ String.ofList path ++ ": "
    match files path with
    | .error e => .error (failed ++ "I/O error: " ++ e.message ++ ": " ++ e.message)
    | .ok text => (Settings.ofYaml text).mapError fun e => failed ++ e.message

/-- The theorem table of a command: that of the file that it names, or an empty one. -/
def Options.readTheorems (files : Files) (o : Options) : Except String TheoremTable :=
  match o.theorems with
  | none => .ok {}
  | some path =>
    match files path with
    | .error e => .error (unreadable path e)
    | .ok text =>
      match TheoremTable.ofYaml? text with
      | some table => .ok table
      | none => .error ("invalid theorem table " ++ String.ofList path)

/-- Carries out a command with settings and a theorem table. -/
def Invocation.runWith (i : Invocation) (files : Files) (st : Settings) (table : TheoremTable) :
    Result :=
  let load := Worksheet.load table.database st { caret := i.options.caret }
  match i.command with
  | .check paths => checkFiles files load paths
  | .renumber interval path => renumberFile files load (interval.getD st.renumberInterval) path
  | .skeleton label =>
    if i.options.theorems.isNone then
      .failure "skeleton needs a theorem table (--theorems)"
    else printSkeleton table.database st label

/-- Carries out a command. -/
def Invocation.run (i : Invocation) (files : Files) : Result :=
  match i.options.readSettings files with
  | .error message => .failure message
  | .ok st =>
    match i.options.readTheorems files with
    | .error message => .failure message
    | .ok table => i.runWith files st table

/-- The files that a command may read. -/
def Invocation.paths (i : Invocation) : List Text :=
  let worksheets :=
    match i.command with
    | .check paths => paths
    | .renumber _ path => [path]
    | .skeleton _ => []
  i.options.settings.toList ++ i.options.theorems.toList ++ worksheets

/-- Carries out a command line. -/
def runArguments (arguments : List Text) (files : Files) : Result :=
  match Invocation.ofArguments? arguments with
  | some i => i.run files
  | none => .usage

end ProofSheet
