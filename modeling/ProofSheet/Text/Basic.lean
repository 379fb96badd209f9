set_option autoImplicit false

/-! # Texts

A text is the list of its characters, and every offset, span and column of the library
counts characters. The one exception is `utf8Length`, the size a text has when it is
stored. The file also fixes how a step number is written: in decimal, without a sign.
-/

namespace ProofSheet

/-- A text, as the list of its characters. -/
abbrev Text := List Char

/-- The number of bytes of a text in UTF-8. -/
def utf8Length : Text → Nat
  | [] => 0
  | c :: t => c.utf8Size + utf8Length t

@[simp] theorem utf8Length_nil : utf8Length [] = 0 := rfl

@[simp] theorem utf8Length_cons (c : Char) (t : Text) :
    utf8Length (c :: t) = c.utf8Size + utf8Length t := rfl

theorem utf8Length_append (s t : Text) : utf8Length (s ++ t) = utf8Length s + utf8Length t := by
  induction s with
  | nil => simp
  | cons c s ih => rw [List.cons_append, utf8Length_cons, utf8Length_cons, ih, Nat.add_assoc]

/-- The number of line feeds in a text. -/
def lineFeeds (t : Text) : Nat := t.count '\n'

@[simp] theorem lineFeeds_append (s t : Text) :
    lineFeeds (s ++ t) = lineFeeds s + lineFeeds t := by
  simp [lineFeeds, List.count_append]

/-- Pieces of text joined by a separating character. -/
def joinWith (separator : Char) (pieces : List Text) : Text := [separator].intercalate pieces

/-- Equality up to the case of ASCII letters. -/
def sameLetters (s t : Text) : Bool := s.map Char.toLower == t.map Char.toLower

/-- The decimal text of a number, without leading zeros. -/
def decimal (n : Nat) : Text := Nat.toDigits 10 n

/-- Reads a nonempty run of ASCII digits; leading zeros are allowed. -/
def readDecimal (t : Text) : Option Nat :=
  if t ≠ [] ∧ t.all Char.isDigit then some (Nat.ofDigitChars 10 t 0) else none

/-- A number is read back from its decimal text. -/
theorem readDecimal_decimal (n : Nat) : readDecimal (decimal n) = some n := by
  have digits : ∀ c ∈ Nat.toDigits 10 n, c.isDigit = true :=
    fun c hc => Nat.isDigit_of_mem_toDigits (by decide) (by decide) hc
  simpa [readDecimal, decimal, Nat.toDigits_ne_nil] using digits

end ProofSheet
