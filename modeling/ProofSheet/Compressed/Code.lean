import ProofSheet.Text.Blank

set_option autoImplicit false

/-! # The codes of a compressed proof

The code section of a compressed proof is a run of letters. A number is written with one
low digit, `A` to `T` for 0 to 19, preceded by any high digits, `U` to `Y` for 1 to 5, of
which each counts five times the next. So `A` is 0, `T` is 19, `UA` is 20 and `UUA` is 120.
Since no high digit stands for zero, a number has exactly one spelling. `Z` saves the step
just written for later use, and `?` stands for an unknown step.
-/

namespace ProofSheet

/-- One element of a code section. -/
inductive Code where
  /-- A number: mandatory hypotheses come first, then the listed labels, then saved steps. -/
  | index (i : Nat)
  /-- The preceding step is saved. -/
  | save
  /-- An unknown step. -/
  | unknown
deriving DecidableEq, Repr, Inhabited

/-- Why a code section cannot be read. -/
inductive CodeError where
  /-- A character that is neither a letter from `A` to `Z` nor `?`. -/
  | invalidCharacter (c : Char)
  /-- A `Z` that does not directly follow a number. -/
  | misplacedSave
  /-- A `?` after high digits. -/
  | misplacedUnknown
  /-- High digits without a low digit at the end. -/
  | danglingDigits
  /-- A number of `indexLimit` or more. -/
  | overflow
deriving DecidableEq, Repr, Inhabited

namespace CodeError

/-- The wording of a code error. -/
def message : CodeError → String
  | invalidCharacter c => "invalid character '" ++ c.toString ++ "' in compressed proof"
  | misplacedSave => "'Z' must follow a complete step"
  | misplacedUnknown => "'?' cannot appear inside a number"
  | danglingDigits => "compressed proof ends in the middle of a number"
  | overflow => "compressed proof number is too large"

end CodeError

namespace Code

/-- The number of low digits. -/
def lowBase : Nat := 20

/-- The number of high digits. -/
def highBase : Nat := 5

/-- Numbers are smaller than this. -/
def indexLimit : Nat := 0x10000000000000000

/-- The letter of a low digit, for a value below 20. -/
def lowDigit (d : Nat) : Char := Char.ofNat ('A'.toNat + d)

/-- The letter of a high digit that counts `d + 1`, for `d` below 5. -/
def highDigit (d : Nat) : Char := Char.ofNat ('U'.toNat + d)

/-- The high digits of a number whose low digit is already split off. -/
def highDigits : Nat → Text
  | 0 => []
  | n + 1 => highDigits (n / highBase) ++ [highDigit (n % highBase)]
termination_by n => n
decreasing_by exact Nat.lt_succ_of_le (Nat.div_le_self n highBase)

/-- The spelling of a number. -/
def encode (i : Nat) : Text := highDigits (i / lowBase) ++ [lowDigit (i % lowBase)]

/-- The text of one code. -/
def text : Code → Text
  | index i => encode i
  | save => ['Z']
  | unknown => ['?']

/-- The text of a list of codes, without spaces. -/
def textOf (codes : List Code) : Text := codes.flatMap text

/-- The value of a low digit. -/
def lowValue? (c : Char) : Option Nat :=
  if 'A' ≤ c ∧ c ≤ 'T' then some (c.toNat - 'A'.toNat) else none

/-- What a high digit counts. -/
def highValue? (c : Char) : Option Nat :=
  if 'U' ≤ c ∧ c ≤ 'Y' then some (c.toNat - 'U'.toNat + 1) else none

/-- Reads codes when the high digits so far amount to `value`, which is zero exactly when there
are none, and when a `Z` is allowed next iff `saveable` holds. -/
def decodeFrom (value : Nat) (saveable : Bool) : Text → Except CodeError (List Code)
  | [] => if value = 0 then .ok [] else .error .danglingDigits
  | c :: rest =>
    match lowValue? c, highValue? c with
    | some d, _ =>
      let i := value * lowBase + d
      if i < indexLimit then (decodeFrom 0 true rest).map (index i :: ·) else .error .overflow
    | none, some d =>
      let v := value * highBase + d
      if v < indexLimit then decodeFrom v false rest else .error .overflow
    | none, none =>
      if c = 'Z' then
        if saveable then (decodeFrom value false rest).map (save :: ·)
        else .error .misplacedSave
      else if c = '?' then
        if value = 0 then (decodeFrom 0 false rest).map (unknown :: ·)
        else .error .misplacedUnknown
      else .error (.invalidCharacter c)

/-- Reads a code section; blanks are skipped. -/
def decode (t : Text) : Except CodeError (List Code) := decodeFrom 0 false (t.filter (!isBlank ·))

end Code

end ProofSheet
