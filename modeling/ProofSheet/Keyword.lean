import ProofSheet.Text.Basic

set_option autoImplicit false

/-! # The fixed words of a worksheet

Reading and writing share these words: the ones that open and close a worksheet and its
statements, and the fields of the header. -/

namespace ProofSheet.Keyword

/-- Opens the header. -/
def header : Text := ['$', '(']

/-- The footer. -/
def footer : Text := ['$', ')']

/-- Opens a `$d` statement. -/
def distinctVars : Text := ['$', 'd']

/-- Opens the generated proof. -/
def proof : Text := ['$', '=']

/-- Ends the generated proof. -/
def proofEnd : Text := ['$', '.']

/-- Opens the label list of a compressed proof. -/
def openLabels : Text := ['(']

/-- Closes the label list of a compressed proof. -/
def closeLabels : Text := [')']

/-- The first field of a header. -/
def metamath : Text := ['<', 'M', 'M', '>']

/-- The second field of a header. -/
def proofAssistant : Text := ['<', 'P', 'R', 'O', 'O', 'F', '_', 'A', 'S', 'S', 'T', '>']

/-- What the label of the theorem follows in the third field of a header. -/
def theoremKey : Text := ['T', 'H', 'E', 'O', 'R', 'E', 'M', '=']

/-- What the label of the preceding statement follows in the last field of a header. -/
def locAfterKey : Text := ['L', 'O', 'C', '_', 'A', 'F', 'T', 'E', 'R', '=']

end ProofSheet.Keyword
