import ProofSheet.Proofs.Blocks
import ProofSheet.Proofs.Leads

set_option autoImplicit false

/-! # Formulas are read back

Any text has the same words as tail of a statement and as text of a formula, as long as all its
blanks are separators (`wordsOf_eq_words`).

The tail of a step is written from its formula, with single spaces between the symbols, and some
separators at the end. As long as the symbols have no blanks, it is laid as a tail should be, and
its words are the symbols again (`Formula.tail_of_solid`). If there are symbols, they are read as
the formula (`Formula.IsPlain`).
-/

namespace ProofSheet

theorem IsSolid.not_separator {t : Text} (h : IsSolid t) : ∀ c ∈ t, isSeparator c = false := by
  intro c hc
  rw [Bool.eq_false_iff]
  intro hsep
  have hblank := isBlank_of_isSeparator hsep
  rw [h c hc] at hblank
  cases hblank

/-- The words of symbols with single spaces between them are the symbols. -/
theorem texts_joinWith (p : Place) {symbols : List Text} (hne : symbols ≠ [])
    (h : ∀ x ∈ symbols, x ≠ [] ∧ IsSolid x) {ending : Text}
    (hending : ∀ c ∈ ending, isSeparator c = true) :
    BeginsWord (joinWith ' ' symbols ++ ending) ∧
      (tokensFrom p (joinWith ' ' symbols ++ ending)).map Token.text = symbols := by
  unfold joinWith
  induction symbols generalizing p with
  | nil => exact absurd rfl hne
  | cons x rest ih =>
      obtain ⟨⟨hx, hsolid⟩, hrest⟩ := List.forall_mem_cons.mp h
      obtain ⟨c, t, hcons⟩ := List.exists_cons_of_ne_nil hx
      have hc : isSeparator c = false :=
        hsolid.not_separator c (by rw [hcons]; exact List.mem_cons_self)
      cases rest with
      | nil =>
          rw [List.intercalate_singleton]
          constructor
          · intro d hd
            rw [hcons] at hd
            cases hd
            exact hc
          · have hword : IsWord x ending := ⟨hx, hsolid.not_separator, hending⟩
            have first : tokensFrom p (x ++ (ending ++ [])) =
                { text := x, gap := ending, place := p } ::
                  tokensFrom ((p.after x).after ending) [] :=
              tokensFrom_word p hword (fun _ => rfl) (fun c hc => (by cases hc))
            rw [List.append_nil] at first
            rw [first, tokensFrom, if_pos rfl]
            rfl
      | cons y rest =>
          obtain ⟨hbegins, -⟩ := ih p (List.cons_ne_nil _ _) hrest
          rw [List.intercalate_cons_cons, List.append_assoc, List.append_assoc]
          constructor
          · intro d hd
            rw [hcons] at hd
            cases hd
            exact hc
          · have hword : IsWord x [' '] := by
              refine ⟨hx, hsolid.not_separator, fun c hc => ?_⟩
              rw [List.mem_singleton.mp hc]
              rfl
            rw [tokensFrom_word p hword (fun hnil => absurd hnil (List.cons_ne_nil _ _)) hbegins,
              List.map_cons, (ih _ (List.cons_ne_nil _ _) hrest).2]

/-! ## Words between blanks -/

theorem words_cons_blank {c : Char} (hc : isBlank c = true) (t : Text) : words (c :: t) = words t :=
  words_append_blank hc [] t

theorem words_blanks_append {gap : Text} (hgap : ∀ c ∈ gap, isBlank c = true) (t : Text) :
    words (gap ++ t) = words t := by
  induction gap with
  | nil => rfl
  | cons c gap ih =>
      obtain ⟨hc, hrest⟩ := List.forall_mem_cons.mp hgap
      rw [List.cons_append, words_cons_blank hc, ih hrest]

theorem words_append_blanks (t : Text) {gap : Text} (hgap : ∀ c ∈ gap, isBlank c = true) :
    words (t ++ gap) = words t := by
  cases gap with
  | nil => rw [List.append_nil]
  | cons c gap =>
      obtain ⟨hc, hrest⟩ := List.forall_mem_cons.mp hgap
      have hnone : words gap = [] := by
        rw [← List.append_nil gap, words_blanks_append hrest]
        rfl
      rw [words_append_blank hc, hnone, List.append_nil]

/-- A text without blanks is one word. -/
theorem IsSolid.words_eq {t : Text} (h : IsSolid t) (hne : t ≠ []) : words t = [t] := by
  rw [words, List.splitOnP_eq_singleton fun c hc => by simp [h c hc]]
  simp [hne]

/-- A text that is not blank has words. -/
theorem words_ne_nil {t : Text} (h : ∃ c ∈ t, isBlank c = false) : words t ≠ [] := by
  obtain ⟨c, hc, hsolid⟩ := h
  induction t with
  | nil => cases hc
  | cons x rest ih =>
      by_cases hx : isBlank x = true
      · rw [words_cons_blank hx]
        refine ih ((List.mem_cons.mp hc).resolve_left ?_)
        rintro rfl
        rw [hsolid] at hx
        cases hx
      · obtain ⟨piece, pieces, hpieces⟩ :=
          List.exists_cons_of_ne_nil (List.splitOnP_ne_nil isBlank rest)
        rw [words, List.splitOnP_cons_eq_if_modifyHead, if_neg hx, hpieces]
        exact List.cons_ne_nil _ _

theorem words_joinWith (pieces : List Text) :
    words (joinWith ' ' pieces) = pieces.flatMap words := by
  unfold joinWith
  induction pieces with
  | nil => rfl
  | cons piece rest ih =>
      cases rest with
      | nil => simp [List.intercalate_singleton]
      | cons next rest =>
          rw [List.intercalate_cons_cons, List.append_assoc, List.singleton_append,
            words_append_blank (by decide), ih]
          rfl

/-- The words of solid pieces with single spaces between them are the pieces. -/
theorem words_joinWith_solid {pieces : List Text} (h : ∀ x ∈ pieces, x ≠ [] ∧ IsSolid x) :
    words (joinWith ' ' pieces) = pieces := by
  rw [words_joinWith]
  induction pieces with
  | nil => rfl
  | cons x rest ih =>
      obtain ⟨⟨hne, hx⟩, hrest⟩ := List.forall_mem_cons.mp h
      rw [List.flatMap_cons, hx.words_eq hne, ih hrest, List.singleton_append]

/-- Words are not empty and have no blanks. -/
theorem solid_of_mem_words {t x : Text} (h : x ∈ words t) : x ≠ [] ∧ IsSolid x := by
  rw [words, List.mem_filter] at h
  obtain ⟨hpiece, hne⟩ := h
  refine ⟨?_, fun c hc => (mem_of_mem_splitOnP hpiece hc).2⟩
  rintro rfl
  cases hne

theorem texts_eq_words (p : Place) {t : Text} (hcut : Cut t)
    (blanks : ∀ c ∈ t, isBlank c = true → isSeparator c = true) :
    (tokensFrom p t).map Token.text = words t := by
  induction hcut generalizing p with
  | nil =>
      rw [tokensFrom, if_pos rfl]
      rfl
  | @word word gap rest isWord apart next ih =>
      have hsolid : IsSolid word := by
        intro c hc
        rw [Bool.eq_false_iff]
        intro hblank
        have hsep := blanks c (List.mem_append_left _ hc) hblank
        rw [isWord.solid c hc] at hsep
        cases hsep
      have hrest : ∀ c ∈ rest, isBlank c = true → isSeparator c = true := fun c hc =>
        blanks c (List.mem_append_right _ (List.mem_append_right _ hc))
      rw [tokensFrom_word p isWord apart next.beginsWord, List.map_cons, ih _ hrest]
      cases gap with
      | nil =>
          rw [apart rfl, List.append_nil, List.append_nil, hsolid.words_eq isWord.nonempty]
          rfl
      | cons g gap =>
          obtain ⟨hg, hgap⟩ := List.forall_mem_cons.mp isWord.gap
          rw [List.cons_append, words_append_blank (isBlank_of_isSeparator hg),
            words_blanks_append fun c hc => isBlank_of_isSeparator (hgap c hc),
            hsolid.words_eq isWord.nonempty, List.singleton_append]

/-- If all blanks of a tail are separators, its words are those that blanks separate. -/
theorem wordsOf_eq_words {t : Text}
    (blanks : ∀ c ∈ t, isBlank c = true → isSeparator c = true) : wordsOf t = words t := by
  have hsplit := List.takeWhile_append_dropWhile (p := isSeparator) (l := t)
  have hgap : ∀ c ∈ t.takeWhile isSeparator, isBlank c = true := fun c hc =>
    isBlank_of_isSeparator (List.mem_takeWhile_imp hc)
  rw [wordsOf_eq {} t, texts_eq_words {} (cut_of_beginsWord (beginsWord_dropWhile t)) fun c hc =>
    blanks c ((List.dropWhile_sublist _).subset hc)]
  conv_rhs => rw [← hsplit, words_blanks_append hgap]

/-- A text after a space, with separators behind it, has the words of the text. -/
theorem wordsOf_tail {t ending : Text} (blanks : ∀ c ∈ t, isBlank c = true → isSeparator c = true)
    (hending : ∀ c ∈ ending, isSeparator c = true) :
    wordsOf (' ' :: t ++ ending) = words t := by
  have hblanks : ∀ c ∈ ending, isBlank c = true := fun c hc =>
    isBlank_of_isSeparator (hending c hc)
  rw [wordsOf_eq_words, words_append_blanks _ hblanks, words_cons_blank (by decide)]
  intro c hc hblank
  rcases List.mem_append.mp hc with hc | hc
  · rcases List.mem_cons.mp hc with rfl | hc
    · rfl
    · exact blanks c hc hblank
  · exact hending c hc

/-! ## Tails of formulas -/

/-- The formula has symbols, and they have no blanks. -/
structure Formula.IsPlain (f : Formula) : Prop where
  nonempty : f.symbols ≠ []
  symbols : ∀ x ∈ f.symbols, x ≠ [] ∧ IsSolid x

instance (f : Formula) : Decidable f.IsPlain :=
  decidable_of_iff (f.symbols ≠ [] ∧ ∀ x ∈ f.symbols, x ≠ [] ∧ IsSolid x)
    ⟨fun ⟨h₁, h₂⟩ => ⟨h₁, h₂⟩, fun ⟨h₁, h₂⟩ => ⟨h₁, h₂⟩⟩

/-- A text in which line feeds are followed by separators only. -/
theorem indented_append {xs ys : Text} (hxs : '\n' ∉ xs) (hys : ∀ c ∈ ys, isSeparator c = true) :
    Indented (xs ++ ys) := by
  refine List.isChain_append.mpr ⟨?_, ?_, ?_⟩
  · refine (List.pairwise_of_forall_mem_list fun a ha b _ heq => ?_).isChain
    exact absurd (heq ▸ ha) hxs
  · refine (List.pairwise_of_forall_mem_list fun a _ b hb _ => ?_).isChain
    exact hys b hb
  · intro a ha b hb heq
    exact absurd (heq ▸ List.mem_of_getLast? ha) hxs

/-- The characters of a formula are not blank, but for the spaces between the symbols. -/
theorem Formula.blank_eq {f : Formula} (solid : ∀ x ∈ f.symbols, IsSolid x) {c : Char}
    (hc : c ∈ f.text) (hblank : isBlank c = true) : c = ' ' := by
  rcases mem_joinWith hc with hspace | ⟨x, hx, hcx⟩
  · exact hspace
  · rw [solid x hx c hcx] at hblank
    cases hblank

/-- A tail that is written from a formula is laid as it should be, and has the symbols as words. -/
theorem Formula.tail_of_solid {f : Formula} (h : ∀ x ∈ f.symbols, x ≠ [] ∧ IsSolid x)
    {ending : Text} (hending : ∀ c ∈ ending, isSeparator c = true)
    (hlast : ending.getLast? = some '\n') :
    let tail := ' ' :: f.text ++ ending
    (∀ x ∈ tail.head?, isSeparator x = true) ∧ Indented tail ∧ tail.getLast? = some '\n' ∧
      (∀ x ∈ tail, isBlank x = true → isSeparator x = true) ∧ wordsOf tail = f.symbols := by
  intro tail
  have blank_eq : ∀ c ∈ f.text, isBlank c = true → c = ' ' := fun c =>
    Formula.blank_eq fun x hx => (h x hx).2
  have blanks : ∀ c ∈ f.text, isBlank c = true → isSeparator c = true := by
    intro c hc hblank
    rw [blank_eq c hc hblank]
    rfl
  refine ⟨?_, ?_, ?_, ?_, ?_⟩
  · intro x hx
    cases hx
    rfl
  · refine indented_append (fun hmem => ?_) hending
    rcases List.mem_cons.mp hmem with heq | hmem
    · exact absurd heq (by decide)
    · exact absurd (blank_eq '\n' hmem (by decide)) (by decide)
  · rw [List.getLast?_append, hlast]
    rfl
  · intro x hx hblank
    rcases List.mem_append.mp hx with hx | hx
    · rcases List.mem_cons.mp hx with rfl | hx
      · rfl
      · exact blanks x hx hblank
    · exact hending x hx
  · show wordsOf (' ' :: f.text ++ ending) = f.symbols
    rw [wordsOf_tail blanks hending]
    exact words_joinWith_solid h

/-- The blanks at the end of a text that ends a line end it too. -/
theorem getLast?_trailingBlanks {t : Text} (hlast : t.getLast? = some '\n') :
    (trailingBlanks t).getLast? = some '\n' := by
  obtain ⟨front, rfl⟩ := List.getLast?_eq_some_iff.mp hlast
  rw [trailingBlanks, List.reverse_append, List.getLast?_reverse]
  rfl

/-- The trailing blanks of a text whose blanks are separators. -/
theorem isSeparator_of_mem_trailingBlanks {t : Text}
    (blanks : ∀ x ∈ t, isBlank x = true → isSeparator x = true) :
    ∀ c ∈ trailingBlanks t, isSeparator c = true := by
  intro c hc
  have hmem : c ∈ t.reverse.takeWhile isBlank := List.mem_reverse.mp hc
  refine blanks c ?_ (List.mem_takeWhile_imp hmem)
  exact List.mem_reverse.mp ((List.takeWhile_sublist _).subset hmem)

/-- A new body leaves the end of a line as it was. -/
theorem Statement.exists_replaceBody {s : Statement} (hlast : s.tail.getLast? = some '\n')
    (blanks : ∀ x ∈ s.tail, isBlank x = true → isSeparator x = true) (body : Text) :
    ∃ ending, s.replaceBody body = { s with tail := ' ' :: body ++ ending } ∧
      (∀ c ∈ ending, isSeparator c = true) ∧ ending.getLast? = some '\n' := by
  have hend := getLast?_trailingBlanks hlast
  refine ⟨trailingBlanks s.tail, ?_, isSeparator_of_mem_trailingBlanks blanks, hend⟩
  have hmem : (trailingBlanks s.tail).contains '\n' = true := by
    simpa using List.mem_of_getLast? hend
  unfold Statement.replaceBody
  dsimp only
  rw [if_pos hmem]

end ProofSheet
