import ProofSheet.CommandLine.Run

set_option autoImplicit false

/-! # The program

Reads the files that a command line names, and prints the result of the command. -/

open ProofSheet

/-- Reads a file as text. -/
def readFileText (path : Text) : IO (Except FileError Text) := do
  try
    let bytes ← IO.FS.readBinFile (String.ofList path)
    match String.fromUTF8? bytes with
    | some text => return .ok text.toList
    | none => return .error .notText
  catch
    | .noFileOrDirectory .. => return .error .missing
    | e => return .error (.other (toString e))

def main (args : List String) : IO UInt32 := do
  let arguments := args.map String.toList
  let paths := ((Invocation.ofArguments? arguments).map Invocation.paths).getD []
  let contents ← paths.mapM fun path => return (path, ← readFileText path)
  let files : Files := fun path => (contents.lookup path).getD (.error .missing)
  let result := runArguments arguments files
  (← IO.getStdout).putStr result.out
  (← IO.getStderr).putStr result.err
  return result.exit.toUInt32
