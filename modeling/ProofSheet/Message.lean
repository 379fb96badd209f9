import ProofSheet.Text.Basic

set_option autoImplicit false

/-! # Messages

A message has a code, a text, and the span of characters it refers to, if any. The first
letter of the code is the severity: `I` informs, `A` reports a fault of the program itself,
and anything else is an error for the user to mend. The messages of a worksheet form a list
in the order in which they were made.
-/

namespace ProofSheet

/-- A half-open range of characters in a worksheet text. -/
structure Span where
  start : Nat
  stop : Nat
deriving DecidableEq, Repr, Inhabited

/-- How grave a message is. -/
inductive Severity where
  | info
  | error
  | abort
deriving DecidableEq, Repr, Inhabited

/-- The severity that the first letter of a code stands for. -/
def Severity.ofCode (code : String) : Severity :=
  match code.toList with
  | 'I' :: _ => .info
  | 'A' :: _ => .abort
  | _ => .error

/-- A coded message. -/
structure Message where
  code : String
  text : String
  span : Option Span := none
deriving DecidableEq, Repr, Inhabited

namespace Message

/-- The severity of a message follows from its code. -/
def severity (m : Message) : Severity := Severity.ofCode m.code

/-- A message counts as an error unless it merely informs. -/
def isError (m : Message) : Bool := m.severity != .info

/-- The message as it is shown. -/
def describe (m : Message) : String := m.code ++ " " ++ m.text

/-- The number of messages that count as errors. -/
def errorCount (ms : List Message) : Nat := ms.countP isError

/-- Some message reports a fault of the program itself. -/
def hasAbort (ms : List Message) : Bool := ms.any (·.severity == .abort)

/-- The first message with the code. -/
def find? (ms : List Message) (code : String) : Option Message := ms.find? (·.code == code)

/-- All messages, one a line. -/
def describeAll (ms : List Message) : String := String.join (ms.map fun m => m.describe ++ "\n")

end Message

/-- A word of the worksheet in single quotes, as messages show it. -/
def quoted (t : Text) : String := "'" ++ String.ofList t ++ "'"

end ProofSheet
