import ProofSheet.Text.Position

set_option autoImplicit false

/-! # Tokens

A token is a maximal run of characters that are not separators. It keeps the separators that
follow it, its gap, so that a list of tokens still holds the whole text apart from separators
at the very front (`written_tokens`). It also keeps its place; a place counts only line feeds
as line ends. A token in the first column starts a statement.
-/

namespace ProofSheet

/-- The characters between tokens: space, tab, line feed, carriage return, form feed. -/
def isSeparator (c : Char) : Bool := [' ', '\t', '\n', '\r', '\x0c'].contains c

/-- A place in a text: the characters and the bytes before it, and its line and column. -/
structure Place where
  offset : Nat := 0
  byte : Nat := 0
  position : Position := {}
deriving DecidableEq, Repr, Inhabited

namespace Place

/-- The place after one more character. -/
def next (p : Place) (c : Char) : Place :=
  { offset := p.offset + 1
    byte := p.byte + c.utf8Size
    position :=
      if c = '\n' then ⟨p.position.line + 1, 0⟩ else ⟨p.position.line, p.position.column + 1⟩ }

/-- The place after a text. -/
def after (p : Place) (t : Text) : Place := t.foldl next p

theorem after_append (p : Place) (s t : Text) : p.after (s ++ t) = (p.after s).after t := by
  simp [after]

theorem offset_after (p : Place) (t : Text) : (p.after t).offset = p.offset + t.length := by
  induction t generalizing p with
  | nil => rfl
  | cons c t ih =>
    have step : (p.after (c :: t)).offset = ((p.next c).after t).offset := rfl
    rw [step, ih, List.length_cons]
    simp only [next]
    omega

end Place

/-- A token, the gap after it, and the place of its first character. -/
structure Token where
  text : Text
  gap : Text
  place : Place
deriving DecidableEq, Repr, Inhabited

namespace Token

/-- The offset of the first character. -/
def start (t : Token) : Nat := t.place.offset

/-- The offset after the last character. -/
def stop (t : Token) : Nat := t.place.offset + t.text.length

/-- The token begins in the first column, which makes it the start of a statement. -/
def startsStatement (t : Token) : Bool := t.place.position.startsLine

/-- The token and its gap, as they stand in the text. -/
def written (t : Token) : Text := t.text ++ t.gap

end Token

/-- Taking a word and its gap off the front of a nonempty text shortens it. -/
theorem length_after_token_lt {cs : Text} (h : cs ≠ []) :
    ((cs.dropWhile (!isSeparator ·)).dropWhile isSeparator).length < cs.length := by
  cases cs with
  | nil => exact absurd rfl h
  | cons c cs =>
    by_cases hc : isSeparator c = true
    · have := (List.dropWhile_sublist isSeparator (l := cs)).length_le
      simp [hc]
      omega
    · have h₁ := (List.dropWhile_sublist (!isSeparator ·) (l := cs)).length_le
      have h₂ := (List.dropWhile_sublist isSeparator
        (l := cs.dropWhile (!isSeparator ·))).length_le
      simp [hc] at h₁ h₂ ⊢
      omega

/-- The tokens of a text that begins at place `p` with a token. -/
def tokensFrom (p : Place) (cs : Text) : List Token :=
  if cs = [] then []
  else
    let word := cs.takeWhile (!isSeparator ·)
    let gap := (cs.dropWhile (!isSeparator ·)).takeWhile isSeparator
    { text := word, gap := gap, place := p } ::
      tokensFrom ((p.after word).after gap)
        ((cs.dropWhile (!isSeparator ·)).dropWhile isSeparator)
termination_by cs.length
decreasing_by exact length_after_token_lt ‹_›

/-- The tokens of a text, in order. -/
def tokens (cs : Text) : List Token :=
  tokensFrom (Place.after {} (cs.takeWhile isSeparator)) (cs.dropWhile isSeparator)

theorem written_tokensFrom (p : Place) (cs : Text) :
    (tokensFrom p cs).flatMap Token.written = cs := by
  fun_induction tokensFrom p cs with
  | case1 => rfl
  | case2 p cs h word gap ih =>
    rw [List.flatMap_cons, ih]
    simp only [Token.written, List.append_assoc, word, gap, List.takeWhile_append_dropWhile]

/-- Nothing of a text is lost but the separators at its front. -/
theorem written_tokens (cs : Text) :
    (tokens cs).flatMap Token.written = cs.dropWhile isSeparator :=
  written_tokensFrom _ _

end ProofSheet
