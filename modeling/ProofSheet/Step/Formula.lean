import ProofSheet.Text.Blank

set_option autoImplicit false

/-! # Formulas

A formula is a list of math symbols, of which the first is its type code. A work variable, such
as `&W1`, stands for a part of a formula that is not known yet. -/

namespace ProofSheet

/-- A formula, as the list of its symbols. -/
structure Formula where
  symbols : List Text
deriving DecidableEq, Repr, Inhabited

/-- An ampersand, a capital letter and a number of one digit or more. -/
def isWorkVar : Text → Bool
  | '&' :: letter :: number => letter.isUpper && !number.isEmpty && number.all Char.isDigit
  | _ => false

namespace Formula

/-- The symbols of a text are its words. -/
def ofText (t : Text) : Formula := ⟨words t⟩

/-- The symbols separated by single spaces. -/
def text (f : Formula) : Text := joinWith ' ' f.symbols

/-- The type code: the first symbol. -/
def typeCode (f : Formula) : Option Text := f.symbols.head?

/-- Some symbol is a work variable. -/
def hasWorkVars (f : Formula) : Bool := f.symbols.any isWorkVar

end Formula

end ProofSheet
