import ProofSheet.Proofs.Scanning

set_option autoImplicit false

/-! # Tokens are maximal runs

A run of a text is a stretch of characters that are no separators, with no such character directly
before or after it (`IsRun`). Runs that meet are the same (`IsRun.eq_of_meet`).

What is left of a text where a token begins consists of tokens with exact places (`TokensOf`). So
every token is a run, every character that is no separator belongs to a token, and each token ends
before the next one begins. As a run meets the token of its first character, there is no run that
is not a token (`tokenizes_tokens`).
-/

namespace ProofSheet

/-- The character is not a space, a tab, a line feed, a carriage return or a form feed. -/
def IsWordChar (c : Char) : Prop := c ≠ ' ' ∧ c ≠ '\t' ∧ c ≠ '\n' ∧ c ≠ '\r' ∧ c ≠ '\x0c'

theorem isWordChar_iff {c : Char} : IsWordChar c ↔ isSeparator c = false := by
  simp [IsWordChar, isSeparator]

/-- The text has a character of a word at the offset. -/
def WordCharAt (text : Text) (i : Nat) : Prop := ∃ c, text[i]? = some c ∧ IsWordChar c

/-- The characters from one offset up to another are characters of a word, and those directly before
and after them are not. -/
structure IsRun (text : Text) (start stop : Nat) : Prop where
  nonempty : start < stop
  word : ∀ i, start ≤ i → i < stop → WordCharAt text i
  left : ∀ i, i + 1 = start → ¬ WordCharAt text i
  right : ¬ WordCharAt text stop

/-- A token has the characters of a text from its start up to its stop, its place counts what stands
before it in the text, and it starts a statement exactly if it is at the beginning of the text or
directly after a line feed. -/
structure Token.StandsIn (t : Token) (source : Text) : Prop where
  text : t.text = source.extract t.start t.stop
  place : t.place.IsAfter (source.take t.start)
  startsStatement : t.startsStatement = true ↔
    t.start = 0 ∨ (source.take t.start).getLast? = some '\n'

/-- The tokens are the runs of the text, all of them and in order. -/
structure Tokenizes (ts : List Token) (text : Text) : Prop where
  inOrder : ts.Pairwise fun t u => t.stop < u.start
  runs : ∀ start stop, IsRun text start stop ↔ ∃ t ∈ ts, t.start = start ∧ t.stop = stop
  stands : ∀ t ∈ ts, t.StandsIn text

/-! ## Runs -/

/-- There is no character of a word in a gap. -/
theorem not_wordCharAt_of_gap (before : Text) {gap rest : Text} {i : Nat}
    (hgap : ∀ c ∈ gap, isSeparator c = true) (hstart : before.length ≤ i)
    (hstop : i < before.length + gap.length) : ¬ WordCharAt (before ++ (gap ++ rest)) i := by
  rintro ⟨c, hc, hchar⟩
  rw [List.getElem?_append_right hstart, List.getElem?_append_left (by omega)] at hc
  rw [isWordChar_iff, hgap c (List.mem_of_getElem? hc)] at hchar
  cases hchar

namespace IsRun

variable {text : Text} {a b c d i : Nat}

/-- No run begins within another one. -/
theorem start_le (h : IsRun text a b) (h' : IsRun text c d) (hmeet : c < b) : c ≤ a := by
  by_contra hwithin
  exact h'.left (c - 1) (by omega) (h.word (c - 1) (by omega) (by omega))

/-- No run ends within another one. -/
theorem stop_le (h : IsRun text a b) (h' : IsRun text c d) (hmeet : a ≤ d) : b ≤ d := by
  by_contra hwithin
  exact h'.right (h.word d hmeet (by omega))

/-- Runs that meet are the same. -/
theorem eq_of_meet (h : IsRun text a b) (h' : IsRun text c d) (ha : a ≤ i) (hb : i < b)
    (hc : c ≤ i) (hd : i < d) : a = c ∧ b = d := by
  have hstart : c ≤ a := h.start_le h' (by omega)
  have hstart' : a ≤ c := h'.start_le h (by omega)
  have hstop : b ≤ d := h.stop_le h' (by omega)
  have hstop' : d ≤ b := h'.stop_le h (by omega)
  omega

/-- A word that stands between separators is a run. -/
theorem of_word {before word after : Text} (hne : word ≠ [])
    (solid : ∀ c ∈ word, isSeparator c = false)
    (hleft : ∀ c ∈ before.getLast?, isSeparator c = true)
    (hright : ∀ c ∈ after.head?, isSeparator c = true) :
    IsRun (before ++ (word ++ after)) before.length (before.length + word.length) where
  nonempty := Nat.lt_add_of_pos_right (List.length_pos_iff.mpr hne)
  word i hstart hstop := by
    have hi : i - before.length < word.length := by omega
    refine ⟨word[i - before.length], ?_, isWordChar_iff.mpr (solid _ (List.getElem_mem hi))⟩
    rw [List.getElem?_append_right hstart, List.getElem?_append_left hi,
      List.getElem?_eq_getElem hi]
  left i hi := by
    rintro ⟨c, hc, hchar⟩
    have hlast : before.getLast? = some c := by
      rw [List.getLast?_eq_getElem?, ← hi, Nat.add_sub_cancel, ← hc]
      exact (List.getElem?_append_left (by omega)).symm
    rw [isWordChar_iff, hleft c hlast] at hchar
    cases hchar
  right := by
    rintro ⟨c, hc, hchar⟩
    have hhead : after.head? = some c := by
      rw [← List.append_assoc, ← List.length_append, List.getElem?_append_right (Nat.le_refl _),
        Nat.sub_self] at hc
      rw [List.head?_eq_getElem?, hc]
    rw [isWordChar_iff, hright c hhead] at hchar
    cases hchar

end IsRun

/-! ## The tokens of the rest of a text -/

/-- What is left of a text, after some that stands before it, consists of the tokens. -/
inductive TokensOf : Text → Text → List Token → Prop where
  | nil (before : Text) : TokensOf before [] []
  | cons {before rest : Text} {t : Token} {ts : List Token} (place : t.place.IsAfter before)
      (isWord : IsWord t.text t.gap) (apart : t.gap = [] → rest = [])
      (next : TokensOf (before ++ t.written) rest ts) :
      TokensOf before (t.written ++ rest) (t :: ts)

theorem tokensOf_tokensFrom {p : Place} {before cs : Text} (hplace : p.IsAfter before)
    (hcs : Cut cs) : TokensOf before cs (tokensFrom p cs) := by
  induction hcs generalizing p before with
  | nil =>
      rw [tokensFrom, if_pos rfl]
      exact .nil before
  | @word word gap rest isWord apart next ih =>
      have hrest := ih ((hplace.after word).after gap)
      rw [List.append_assoc] at hrest
      rw [tokensFrom_word p isWord apart next.beginsWord, ← List.append_assoc]
      exact .cons (t := { text := word, gap := gap, place := p }) hplace isWord apart hrest

namespace TokensOf

variable {before rest : Text} {t : Token} {ts : List Token}

theorem eq_nil (h : TokensOf before [] ts) : ts = [] := by
  generalize hrest : ([] : Text) = rest at h
  cases h with
  | nil => rfl
  | @cons _ _ t _ _ isWord _ _ =>
      have hempty := List.append_eq_nil_iff.mp hrest.symm
      exact absurd (List.append_eq_nil_iff.mp hempty.1).1 isWord.nonempty

/-- No token begins before the rest does. -/
theorem le_start (h : TokensOf before rest ts) : ∀ t ∈ ts, before.length ≤ t.start := by
  induction h with
  | nil before => exact fun t ht => (by cases ht)
  | @cons before rest t ts place isWord apart next ih =>
      refine List.forall_mem_cons.mpr ⟨place.offset.ge, fun u hu => ?_⟩
      have hu := ih u hu
      rw [List.length_append] at hu
      omega

/-- Where a token follows there is a gap. -/
theorem gap_ne_nil {u : Token} (apart : t.gap = [] → rest = []) (next : TokensOf before rest ts)
    (hu : u ∈ ts) : t.gap ≠ [] := by
  intro hgap
  rw [apart hgap] at next
  rw [next.eq_nil] at hu
  cases hu

theorem inOrder (h : TokensOf before rest ts) : ts.Pairwise fun t u => t.stop < u.start := by
  induction h with
  | nil before => exact .nil
  | @cons before rest t ts place isWord apart next ih =>
      refine List.pairwise_cons.mpr ⟨fun u hu => ?_, ih⟩
      have hgap : 0 < t.gap.length := List.length_pos_iff.mpr (gap_ne_nil apart next hu)
      calc t.stop = before.length + t.text.length := by rw [Token.stop, place.offset]
        _ < before.length + (t.text.length + t.gap.length) := by omega
        _ = (before ++ t.written).length := by
            rw [Token.written, List.length_append, List.length_append]
        _ ≤ u.start := next.le_start u hu

/-- Every character of a word in the rest belongs to a token. -/
theorem covers (h : TokensOf before rest ts) {i : Nat} (hi : before.length ≤ i)
    (hchar : WordCharAt (before ++ rest) i) : ∃ t ∈ ts, t.start ≤ i ∧ i < t.stop := by
  induction h with
  | nil before =>
      obtain ⟨c, hc, -⟩ := hchar
      rw [List.append_nil, List.getElem?_eq_none hi] at hc
      cases hc
  | @cons before rest t ts place isWord apart next ih =>
      have htoken : (before ++ t.text).length = t.stop := by
        rw [List.length_append, Token.stop, place.offset]
      have hwritten : (before ++ t.written).length = t.stop + t.gap.length := by
        rw [Token.written, ← List.append_assoc, List.length_append, htoken]
      -- the character is in the token, in the gap after it, or further on
      by_cases hword : i < t.stop
      · exact ⟨t, List.mem_cons_self, place.offset.trans_le hi, hword⟩
      by_cases hgap : i < t.stop + t.gap.length
      · rw [Token.written, List.append_assoc, ← List.append_assoc before] at hchar
        exact absurd hchar (not_wordCharAt_of_gap _ isWord.gap (by omega) (by omega))
      · rw [← List.append_assoc] at hchar
        obtain ⟨u, hu, hmem⟩ := ih (by omega) hchar
        exact ⟨u, List.mem_cons_of_mem t hu, hmem⟩

end TokensOf

/-! ## Where a token stands -/

/-- A text consists of what stands before a token, the token, and what comes after it, and what is
next to the token on either side is no part of a word. -/
structure Token.Splits (t : Token) (text before after : Text) : Prop where
  whole : text = before ++ (t.text ++ after)
  place : t.place.IsAfter before
  nonempty : t.text ≠ []
  solid : ∀ c ∈ t.text, isSeparator c = false
  left : ∀ c ∈ before.getLast?, isSeparator c = true
  right : ∀ c ∈ after.head?, isSeparator c = true

/-- Every token of the rest of a text splits it. -/
theorem TokensOf.exists_splits {before rest : Text} {ts : List Token} (h : TokensOf before rest ts)
    (hleft : ∀ c ∈ before.getLast?, isSeparator c = true) :
    ∀ t ∈ ts, ∃ front back, t.Splits (before ++ rest) front back := by
  induction h with
  | nil before => exact fun t ht => (by cases ht)
  | @cons before rest t ts place isWord apart next ih =>
      refine List.forall_mem_cons.mpr ⟨⟨before, t.gap ++ rest, ?_⟩, fun u hu => ?_⟩
      · have hwhole : before ++ (t.written ++ rest) = before ++ (t.text ++ (t.gap ++ rest)) := by
          rw [Token.written, List.append_assoc]
        exact ⟨hwhole, place, isWord.nonempty, isWord.solid, hleft, isWord.head?_gap apart⟩
      · have hgap := TokensOf.gap_ne_nil apart next hu
        rw [← List.append_assoc]
        refine ih (fun c hc => ?_) u hu
        rw [Token.written, ← List.append_assoc, List.getLast?_append_of_ne_nil _ hgap] at hc
        exact isWord.gap c (List.mem_of_getLast? hc)

namespace Token.Splits

variable {t : Token} {text before after : Text}

theorem start (h : t.Splits text before after) : t.start = before.length := h.place.offset

theorem stop (h : t.Splits text before after) : t.stop = before.length + t.text.length := by
  rw [Token.stop, h.place.offset]

theorem isRun (h : t.Splits text before after) : IsRun text t.start t.stop := by
  rw [h.start, h.stop, h.whole]
  exact .of_word h.nonempty h.solid h.left h.right

theorem standsIn (h : t.Splits text before after) : t.StandsIn text where
  text := by
    rw [h.start, h.stop, h.whole, List.extract_eq_take_drop, List.drop_left,
      Nat.add_sub_cancel_left, List.take_left]
  place := by
    rw [h.start, h.whole, List.take_left]
    exact h.place
  startsStatement := by
    rw [h.start, h.whole, List.take_left, List.length_eq_zero_iff]
    exact h.place.startsLine_iff

end Token.Splits

/-! ## The tokens of a text -/

/-- After what stands in front, a text consists of its tokens. -/
theorem tokensOf_tokens (text : Text) :
    TokensOf (text.takeWhile isSeparator) (text.dropWhile isSeparator) (tokens text) :=
  tokensOf_tokensFrom (Place.isAfter_nil.after _) (cut_of_beginsWord (beginsWord_dropWhile text))

theorem exists_splits_of_mem_tokens {text : Text} {t : Token} (ht : t ∈ tokens text) :
    ∃ before after, t.Splits text before after := by
  have hsplit := (tokensOf_tokens text).exists_splits
    (fun c hc => List.mem_takeWhile_imp (List.mem_of_getLast? hc)) t ht
  rwa [List.takeWhile_append_dropWhile] at hsplit

/-- Every character of a word in a text belongs to a token. -/
theorem exists_token_of_wordCharAt {text : Text} {i : Nat} (h : WordCharAt text i) :
    ∃ t ∈ tokens text, t.start ≤ i ∧ i < t.stop := by
  rw [← List.takeWhile_append_dropWhile (p := isSeparator) (l := text)] at h
  refine (tokensOf_tokens text).covers (Nat.not_lt.mp fun hi => ?_) h
  -- there is no token in front of the first one
  have hfront : ∀ c ∈ text.takeWhile isSeparator, isSeparator c = true :=
    fun c hc => List.mem_takeWhile_imp hc
  exact not_wordCharAt_of_gap [] hfront (Nat.zero_le i) (by simpa using hi) h

/-- The tokens of a text are its maximal runs of characters other than separators, in order and with
exact places, and scanning the text finds them. -/
theorem tokenizes_tokens (text : Text) :
    Tokenizes (tokens text) text ∧ scan text = (tokens text).map Token.lexeme := by
  refine ⟨⟨(tokensOf_tokens text).inOrder, fun start stop => ⟨fun hrun => ?_, ?_⟩, fun t ht => ?_⟩,
    scan_eq text⟩
  · -- the run meets the token of its first character
    obtain ⟨t, ht, hstart, hstop⟩ :=
      exists_token_of_wordCharAt (hrun.word start (Nat.le_refl _) hrun.nonempty)
    obtain ⟨before, after, hsplits⟩ := exists_splits_of_mem_tokens ht
    exact ⟨t, ht, hsplits.isRun.eq_of_meet hrun hstart hstop (Nat.le_refl _) hrun.nonempty⟩
  · rintro ⟨t, ht, rfl, rfl⟩
    obtain ⟨before, after, hsplits⟩ := exists_splits_of_mem_tokens ht
    exact hsplits.isRun
  · obtain ⟨before, after, hsplits⟩ := exists_splits_of_mem_tokens ht
    exact hsplits.standsIn

/-- Bytes run ahead of characters, and a no-break space does not end a token. -/
example : (tokens "* φ∀\u00a0ψ\n x".toList).map
    (fun t => (t.start, t.place.byte, t.stop, t.startsStatement)) =
      [(0, 0, 1, true), (2, 2, 6, false), (8, 13, 9, false)] := by decide +kernel

end ProofSheet
