import ProofSheet.Proofs.Blocks
import Mathlib.Data.List.DropRight

set_option autoImplicit false

/-! # Scanning a text

The tokens of a text can be found by a scanner that reads one character after the other and counts
as it goes (`Scanner`). It passes over separators in one loop and over a word in another, and then
the word is cut out of the whole text by the numbers of bytes before and after it (`cutBytes?`).

Each character moves all the counters of a place, and they stay exact (`Place.IsAfter.next`), so
they are exact at both ends of every word. The cut never goes through a character, and the scanner
finds what the tokens say (`scan_eq`).
-/

namespace ProofSheet

/-! ## What a place counts -/

/-- The place counts what stands before it: the characters, the bytes, the line feeds, and the
characters since the last line feed. -/
structure Place.IsAfter (p : Place) (before : Text) : Prop where
  offset : p.offset = before.length
  byte : p.byte = utf8Length before
  line : p.position.line = lineFeeds before
  column : p.position.column = (before.rtakeWhile (· != '\n')).length

namespace Place

theorem isAfter_nil : ({} : Place).IsAfter [] where
  offset := rfl
  byte := rfl
  line := rfl
  column := rfl

variable {p : Place} {before : Text}

/-- One more character keeps the counters exact. -/
theorem IsAfter.next (h : p.IsAfter before) (c : Char) : (p.next c).IsAfter (before ++ [c]) where
  offset := by
    rw [List.length_append, List.length_singleton, ← h.offset]
    rfl
  byte := by
    rw [utf8Length_append, utf8Length_cons, utf8Length_nil, Nat.add_zero, ← h.byte]
    rfl
  line := by
    rw [lineFeeds_append, ← h.line]
    by_cases hc : c = '\n'
    · simp [Place.next, hc, lineFeeds]
    · simp [Place.next, hc, lineFeeds]
  column := by
    by_cases hc : c = '\n'
    · simp [Place.next, hc]
    · have hcount : (c != '\n') = true := bne_iff_ne.mpr hc
      rw [List.rtakeWhile_concat_pos (· != '\n') _ _ hcount, List.length_append, ← h.column,
        Place.next, if_neg hc]
      rfl

/-- The counters are exact after every text. -/
theorem IsAfter.after (h : p.IsAfter before) (t : Text) : (p.after t).IsAfter (before ++ t) := by
  induction t generalizing p before with
  | nil => rwa [List.append_nil]
  | cons c t ih =>
      have hrest := ih (h.next c)
      rwa [List.append_assoc] at hrest

/-- A place is in the first column exactly at the beginning of the text and after a line feed. -/
theorem IsAfter.startsLine_iff (h : p.IsAfter before) :
    p.position.startsLine = true ↔ before = [] ∨ before.getLast? = some '\n' := by
  rw [Position.startsLine, beq_iff_eq, h.column, List.length_eq_zero_iff]
  rcases List.eq_nil_or_concat before with rfl | ⟨front, last, rfl⟩
  · simp
  · rw [List.concat_eq_append, List.rtakeWhile_concat]
    by_cases hlast : last = '\n'
    · simp [hlast]
    · simp [hlast]

end Place

/-! ## Cutting a text by bytes -/

/-- Cuts a text in two after some bytes, unless they end within a character or are too many. -/
def splitBytes? : Text → Nat → Option (Text × Text)
  | t, 0 => some ([], t)
  | [], _ + 1 => none
  | c :: t, n + 1 =>
    if c.utf8Size ≤ n + 1 then
      (splitBytes? t (n + 1 - c.utf8Size)).map fun (front, rest) => (c :: front, rest)
    else none

/-- The text between two numbers of bytes, if there is one. -/
def cutBytes? (t : Text) (first last : Nat) : Option Text :=
  if first ≤ last then
    (splitBytes? t first).bind fun parts => (splitBytes? parts.2 (last - first)).map Prod.fst
  else none

/-- The bytes of a text can be cut off wherever it stands in front. -/
theorem splitBytes?_append (s t : Text) : splitBytes? (s ++ t) (utf8Length s) = some (s, t) := by
  induction s with
  | nil => rw [List.nil_append, utf8Length_nil, splitBytes?]
  | cons c s ih =>
      -- every character has a byte, so the bytes do not run out before it
      have hpos : 0 < c.utf8Size := c.utf8Size_pos
      obtain ⟨n, hn⟩ : ∃ n, c.utf8Size + utf8Length s = n + 1 :=
        Nat.exists_eq_add_one.mpr (by omega)
      have hrest : n + 1 - c.utf8Size = utf8Length s := by omega
      rw [List.cons_append, utf8Length_cons, hn, splitBytes?, if_pos (by omega), hrest, ih]
      rfl

/-- Numbers of bytes between characters cut a text where the characters are. -/
theorem cutBytes?_append (before word after : Text) :
    cutBytes? (before ++ (word ++ after)) (utf8Length before) (utf8Length (before ++ word)) =
      some word := by
  have hle : utf8Length before ≤ utf8Length before + utf8Length word := Nat.le_add_right _ _
  rw [cutBytes?, utf8Length_append, if_pos hle, splitBytes?_append, Option.bind_some,
    Nat.add_sub_cancel_left, splitBytes?_append]
  rfl

/-! ## The scanner -/

/-- A scanner: what it has still to read of a text, and where it stands. -/
structure Scanner where
  rest : Text
  place : Place := {}
deriving DecidableEq, Repr, Inhabited

/-- What a scanner finds: where the word begins, the offset after it, and what is cut out of the
text for it. -/
structure Lexeme where
  text : Option Text
  place : Place
  stop : Nat
deriving DecidableEq, Repr, Inhabited

/-- The token as a scanner should find it. -/
def Token.lexeme (t : Token) : Lexeme := { text := some t.text, place := t.place, stop := t.stop }

namespace Scanner

/-- Reads one character after the other as long as they pass the test. -/
def readWhile (test : Char → Bool) : Text → Place → Scanner
  | [], place => { rest := [], place := place }
  | c :: rest, place =>
    if test c then readWhile test rest (place.next c) else { rest := c :: rest, place := place }

/-- Finds the next word of the text: one loop passes over separators and another over the word. -/
def next? (text : Text) (s : Scanner) : Option (Lexeme × Scanner) :=
  let first := readWhile isSeparator s.rest s.place
  if first.rest = [] then none
  else
    let last := readWhile (!isSeparator ·) first.rest first.place
    let word := cutBytes? text first.place.byte last.place.byte
    some ({ text := word, place := first.place, stop := last.place.offset }, last)

theorem readWhile_eq (test : Char → Bool) (t : Text) (place : Place) :
    readWhile test t place =
      { rest := t.dropWhile test, place := place.after (t.takeWhile test) } := by
  induction t generalizing place with
  | nil => rfl
  | cons c t ih =>
      by_cases hc : test c = true
      · rw [readWhile, if_pos hc, ih, List.dropWhile_cons_of_pos hc, List.takeWhile_cons_of_pos hc]
        rfl
      · rw [readWhile, if_neg hc, List.dropWhile_cons_of_neg hc, List.takeWhile_cons_of_neg hc]
        rfl

/-- A word that is found shortens what is still to be read. -/
theorem length_lt_of_next? {text : Text} {s s' : Scanner} {l : Lexeme}
    (h : s.next? text = some (l, s')) : s'.rest.length < s.rest.length := by
  simp only [next?, readWhile_eq] at h
  split at h
  · cases h
  · next hne =>
      cases h
      obtain ⟨c, cs, hcs⟩ := List.exists_cons_of_ne_nil hne
      have hc : (!isSeparator c) = true := by
        rw [beginsWord_dropWhile s.rest c (by rw [hcs]; rfl)]
        rfl
      calc ((s.rest.dropWhile isSeparator).dropWhile (!isSeparator ·)).length
          = (cs.dropWhile (!isSeparator ·)).length := by
            rw [hcs, List.dropWhile_cons_of_pos (p := fun c => !isSeparator c) hc]
        _ ≤ cs.length := (List.dropWhile_sublist _).length_le
        _ < (s.rest.dropWhile isSeparator).length := by
            rw [hcs, List.length_cons]
            exact Nat.lt_succ_self _
        _ ≤ s.rest.length := (List.dropWhile_sublist _).length_le

/-- Finds all words that are still to be read. -/
def all (text : Text) (s : Scanner) : List Lexeme :=
  match _h : s.next? text with
  | none => []
  | some (l, s') => l :: s'.all text
termination_by s.rest.length
decreasing_by exact length_lt_of_next? _h

end Scanner

/-- Scans a text from its beginning to its end. -/
def scan (text : Text) : List Lexeme := Scanner.all text { rest := text }

/-! ## What the scanner finds -/

namespace Scanner

variable {s s' : Scanner} {l : Lexeme} {text before : Text}

theorem all_of_none (h : s.next? text = none) : s.all text = [] := by
  rw [all]
  split
  · rfl
  · next hsome => cases h.symm.trans hsome

theorem all_of_some (h : s.next? text = some (l, s')) : s.all text = l :: s'.all text := by
  rw [all]
  split
  · next hnone => cases h.symm.trans hnone
  · next hsome =>
      cases h.symm.trans hsome
      rfl

theorem next?_eq_none (hend : s.rest.dropWhile isSeparator = []) : s.next? text = none := by
  simp only [next?, readWhile_eq, hend, if_true]

/-- A scanner that has read the beginning of a text finds the word that comes next. -/
theorem next?_eq_some (htext : text = before ++ s.rest) (hplace : s.place.IsAfter before)
    (hmore : s.rest.dropWhile isSeparator ≠ []) :
    let front := s.rest.takeWhile isSeparator
    let word := (s.rest.dropWhile isSeparator).takeWhile (!isSeparator ·)
    let rest := (s.rest.dropWhile isSeparator).dropWhile (!isSeparator ·)
    text = before ++ front ++ word ++ rest ∧
      ((s.place.after front).after word).IsAfter (before ++ front ++ word) ∧
      s.next? text =
        some (Token.lexeme { text := word, gap := [], place := s.place.after front },
          { rest := rest, place := (s.place.after front).after word }) := by
  intro front word rest
  have hsplit : text = before ++ front ++ word ++ rest := by
    rw [List.append_assoc, List.append_assoc, List.takeWhile_append_dropWhile,
      List.takeWhile_append_dropWhile, htext]
  have hfirst : (s.place.after front).IsAfter (before ++ front) := hplace.after front
  have hlast : ((s.place.after front).after word).IsAfter (before ++ front ++ word) :=
    hfirst.after word
  -- both ends of the word lie between characters
  have hcut : cutBytes? text (s.place.after front).byte ((s.place.after front).after word).byte =
      some word := by
    rw [hfirst.byte, hlast.byte, hsplit, List.append_assoc (before ++ front)]
    exact cutBytes?_append (before ++ front) word rest
  refine ⟨hsplit, hlast, ?_⟩
  simp only [next?, readWhile_eq, if_neg hmore, Token.lexeme, Token.stop]
  rw [hcut, Place.offset_after]

/-- A scanner that has read the beginning of a text finds the tokens of the rest. -/
theorem all_eq (htext : text = before ++ s.rest) (hplace : s.place.IsAfter before) :
    s.all text =
      (tokensFrom (s.place.after (s.rest.takeWhile isSeparator))
        (s.rest.dropWhile isSeparator)).map Token.lexeme := by
  -- a word shortens what is still to be read, and joins what stands before it
  induction hlen : s.rest.length using Nat.strong_induction_on generalizing s before with
  | _ n ih =>
      rw [tokensFrom]
      by_cases hend : s.rest.dropWhile isSeparator = []
      · rw [all_of_none (next?_eq_none hend), if_pos hend]
        rfl
      · obtain ⟨hread, hexact, hnext⟩ := next?_eq_some htext hplace hend
        have hshort := hlen ▸ length_lt_of_next? hnext
        rw [all_of_some hnext, if_neg hend, ih _ hshort hread hexact rfl]
        rfl

end Scanner

/-- Scanning a text finds its tokens. -/
theorem scan_eq (text : Text) : scan text = (tokens text).map Token.lexeme :=
  Scanner.all_eq (List.nil_append text).symm Place.isAfter_nil

end ProofSheet
