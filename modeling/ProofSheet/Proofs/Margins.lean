import ProofSheet.Compressed.Layout
import ProofSheet.Proofs.Codes
import ProofSheet.Proofs.Formulas
import ProofSheet.Proofs.Grammar

set_option autoImplicit false

/-! # The text of a generated proof

However the margin breaks it, a generated proof keeps its words: its lines are never empty, and
together they are `$=`, the labels between parentheses, pieces of the code section, and `$.`
(`Layout.ofProof_filled`). The text of the lines has the words of the lines as its tokens
(`texts_linesText`), but only an indent keeps the lines after the first away from the first column
(`indented_linesText`).

So the text of a proof is the text of one statement if it is indented or has one line
(`CompressedProof.IsPlain.exists_chunk`). Otherwise a word of the proof begins in the first column
and tears the statement apart (`CompressedProof.IsPlain.exists_torn`).
-/

namespace ProofSheet

/-! ## Filling lines -/

namespace Layout

variable {m : Margin} {l : Layout}

/-- The words of the layout, in order. -/
def words (l : Layout) : List Text := l.lines.flatten

/-- The finished lines have words. -/
def Begun (l : Layout) : Prop := ∀ line ∈ l.finished, line ≠ []

/-- Every line has words. -/
def Filled (l : Layout) : Prop := ∀ line ∈ l.lines, line ≠ []

theorem filled_iff : l.Filled ↔ l.Begun ∧ l.line ≠ [] := by
  simp [Filled, Begun, lines, or_imp, forall_and]

@[simp] theorem words_put (l : Layout) (word : Text) : (l.put word).words = l.words ++ [word] := by
  simp [words, lines, put]

@[simp] theorem words_newLine (m : Margin) (l : Layout) : (l.newLine m).words = l.words := by
  simp [words, lines, newLine]

theorem words_word (m : Margin) (l : Layout) (word : Text) :
    (l.word m word).words = l.words ++ [word] := by
  unfold Layout.word
  split
  · rw [words_put, words_newLine]
  · rw [words_put]

theorem Begun.put (h : l.Begun) (word : Text) : (l.put word).Filled := by
  rw [filled_iff]
  exact ⟨h, by simp [Layout.put]⟩

theorem Filled.newLine (h : l.Filled) (m : Margin) : (l.newLine m).Begun := h

/-- A line is ended only if it has words. -/
theorem Begun.word (h : l.Begun) (m : Margin) (word : Text) : (l.word m word).Filled := by
  unfold Layout.word
  split
  · rename_i hfull
    have hline : l.line ≠ [] := by
      rintro hnil
      simp [hnil] at hfull
    exact ((filled_iff.mpr ⟨h, hline⟩).newLine m).put word
  · exact h.put word

theorem Filled.begun (h : l.Filled) : l.Begun := (filled_iff.mp h).1

theorem words_foldl (m : Margin) (l : Layout) (added : List Text) :
    (added.foldl (word m) l).words = l.words ++ added := by
  induction added generalizing l with
  | nil => simp
  | cons first rest ih => rw [List.foldl_cons, ih, words_word, List.append_assoc]; rfl

theorem Filled.foldl (h : l.Filled) (m : Margin) (added : List Text) :
    (added.foldl (Layout.word m) l).Filled := by
  induction added generalizing l with
  | nil => exact h
  | cons first rest ih => exact ih (h.begun.word m first)

theorem Filled.begun_withRoom (h : l.Filled) (m : Margin) : (l.withRoom m).Begun := by
  unfold withRoom
  split
  · exact h.newLine m
  · exact h.begun

@[simp] theorem words_withRoom (m : Margin) (l : Layout) : (l.withRoom m).words = l.words := by
  unfold withRoom
  split
  · exact words_newLine m l
  · rfl

/-- A run is cut into pieces, of which none is empty. -/
theorem Filled.run (h : l.Filled) (m : Margin) (codes : Text) :
    (l.run m codes).Filled ∧ ∃ pieces, (l.run m codes).words = l.words ++ pieces ∧
      pieces.flatten = codes ∧ ∀ x ∈ pieces, x ≠ [] := by
  fun_induction Layout.run m l codes with
  | case1 l => exact ⟨h, [], by simp, rfl, fun x hx => (by cases hx)⟩
  | case2 l codes hcodes fits ih =>
      obtain ⟨filled, pieces, hpieces, hflatten, hne⟩ := ih ((h.begun_withRoom m).word m _)
      refine ⟨filled, codes.take fits :: pieces, ?_, ?_, List.forall_mem_cons.mpr ⟨?_, hne⟩⟩
      · rw [hpieces, words_word, words_withRoom, List.append_assoc]
        rfl
      · rw [List.flatten_cons, hflatten, List.take_append_drop]
      · -- there is room for one character at least
        have hroom : 0 < fits := room_withRoom_pos m l
        have hpos := List.length_pos_iff.mpr hcodes
        rw [← List.length_pos_iff, List.length_take]
        omega

/-- The layout of a generated proof has all that stands in the proof, in order, and has no empty
line. -/
theorem ofProof_filled (m : Margin) (p : CompressedProof) :
    (ofProof m p).Filled ∧ ∃ pieces,
      (ofProof m p).words =
        Keyword.proof :: Keyword.openLabels ::
          (p.labels ++ Keyword.closeLabels :: (pieces ++ [Keyword.proofEnd])) ∧
      pieces.flatten = p.codeText ∧ ∀ x ∈ pieces, x ≠ [] := by
  have empty : ({} : Layout).Begun := fun line hline => (by cases hline)
  -- `$=`, the labels and the parentheses are filled in first, then the run of codes
  have labelled := ((empty.word m Keyword.proof).foldl m
    (Keyword.openLabels :: p.labels ++ [Keyword.closeLabels]))
  obtain ⟨filled, pieces, hpieces, hflatten, hne⟩ := labelled.run m p.codeText
  refine ⟨filled.begun.word m Keyword.proofEnd, pieces, ?_, hflatten, hne⟩
  have hproof : ofProof m p =
      (Layout.run m ((Keyword.openLabels :: p.labels ++ [Keyword.closeLabels]).foldl (word m)
        (word m {} Keyword.proof)) p.codeText).word m Keyword.proofEnd := rfl
  rw [hproof, words_word, hpieces, words_foldl, words_word]
  simp [words, lines]

end Layout

/-! ## The text of lines -/

/-- The text of lines of words, of which all but the first are indented. -/
def linesText (indent : Nat) : List (List Text) → Text
  | [] => []
  | [line] => joinWith ' ' line ++ ['\n']
  | line :: next :: rest =>
    (joinWith ' ' line ++ '\n' :: List.replicate indent ' ') ++ linesText indent (next :: rest)

theorem Layout.render_eq (m : Margin) (l : Layout) : l.render m = linesText m.indent l.lines := by
  have indented_eq : ∀ (line : List Text) (rest : List (List Text)),
      joinWith ' ' line ++ '\n' :: ((rest.map (joinWith ' ')).map
        (List.replicate m.indent ' ' ++ ·)).flatMap (· ++ ['\n']) =
          linesText m.indent (line :: rest) := by
    intro line rest
    induction rest generalizing line with
    | nil => rfl
    | cons next rest ih =>
        rw [linesText, ← ih next]
        simp
  cases hlines : l.lines with
  | nil => simp [Layout.lines] at hlines
  | cons line rest =>
      rw [← indented_eq line rest, Layout.render, hlines]
      simp

section Lines

variable {indent : Nat} {lines : List (List Text)}

/-- The words of the lines can be told apart. -/
def SolidLines (lines : List (List Text)) : Prop :=
  ∀ line ∈ lines, line ≠ [] ∧ ∀ x ∈ line, x ≠ [] ∧ IsSolid x

theorem newline_notMem_joinWith {line : List Text} (h : ∀ x ∈ line, x ≠ [] ∧ IsSolid x) :
    '\n' ∉ joinWith ' ' line := by
  intro hmem
  rcases mem_joinWith hmem with heq | ⟨x, hx, hmem⟩
  · cases heq
  · have hsolid := (h x hx).2 '\n' hmem
    cases hsolid

theorem isSeparator_of_mem_break {c : Char} (hc : c ∈ '\n' :: List.replicate indent ' ') :
    isSeparator c = true := by
  rcases List.mem_cons.mp hc with rfl | hc
  · rfl
  · rw [List.eq_of_mem_replicate hc]
    rfl

/-- The tokens of the text are the words of the lines. -/
theorem texts_linesText (p : Place) (indent : Nat) (h : SolidLines lines) :
    BeginsWord (linesText indent lines) ∧
      (tokensFrom p (linesText indent lines)).map Token.text = lines.flatten := by
  induction lines generalizing p with
  | nil =>
      refine ⟨fun c hc => (by cases hc), ?_⟩
      rw [linesText, tokensFrom, if_pos rfl]
      rfl
  | cons line rest ih =>
      obtain ⟨⟨hne, hline⟩, hrest⟩ := List.forall_mem_cons.mp h
      cases rest with
      | nil =>
          have hending : ∀ c ∈ ['\n'], isSeparator c = true := by
            intro c hc
            rw [List.mem_singleton.mp hc]
            rfl
          obtain ⟨hbegins, htexts⟩ := texts_joinWith p hne hline hending
          exact ⟨hbegins, by rw [linesText, htexts]; simp⟩
      | cons next rest =>
          -- the line and the break after it are read alone, as the next line begins a word
          let front := joinWith ' ' line ++ '\n' :: List.replicate indent ' '
          have hending : ∀ c ∈ '\n' :: List.replicate indent ' ', isSeparator c = true :=
            fun c hc => isSeparator_of_mem_break hc
          obtain ⟨hbegins, htexts⟩ := texts_joinWith p hne hline hending
          obtain ⟨hnext, hwords⟩ := ih (p.after front) hrest
          have hlast : ∀ c ∈ front.getLast?, isSeparator c = true := by
            intro c hc
            rw [List.getLast?_append_of_ne_nil _ (List.cons_ne_nil _ _)] at hc
            exact isSeparator_of_mem_break (List.mem_of_getLast? hc)
          rw [linesText]
          constructor
          · exact hbegins.append hnext
          · rw [tokensFrom_append p (cut_of_beginsWord hbegins) hlast hnext, List.map_append,
              htexts, hwords]
            rfl

/-- An indent keeps all lines but the first away from the first column. -/
theorem indented_linesText (hindent : 0 < indent ∨ lines.length ≤ 1) (h : SolidLines lines) :
    Indented (linesText indent lines) := by
  induction lines with
  | nil => exact .nil
  | cons line rest ih =>
      obtain ⟨⟨hne, hline⟩, hrest⟩ := List.forall_mem_cons.mp h
      have hjoin := newline_notMem_joinWith hline
      cases rest with
      | nil =>
          exact indented_append hjoin fun c hc => by rw [List.mem_singleton.mp hc]; rfl
      | cons next rest =>
          have hpos : 0 < indent := hindent.resolve_right (by simp)
          rw [linesText, Indented, List.isChain_append]
          refine ⟨indented_append hjoin fun c hc => isSeparator_of_mem_break hc,
            ih (Or.inl hpos) hrest, ?_⟩
          -- the last character in front of the next line is a space
          intro a ha b _ heq
          obtain ⟨n, rfl⟩ : ∃ n, indent = n + 1 := ⟨indent - 1, by omega⟩
          rw [List.replicate_succ', ← List.cons_append, ← List.append_assoc,
            List.getLast?_concat] at ha
          cases ha
          cases heq

theorem getLast?_linesText (indent : Nat) (hne : lines ≠ []) :
    (linesText indent lines).getLast? = some '\n' := by
  induction lines with
  | nil => exact absurd rfl hne
  | cons line rest ih =>
      cases rest with
      | nil => exact List.getLast?_concat
      | cons next rest =>
          have hnext := ih (List.cons_ne_nil _ _)
          rw [linesText, List.getLast?_append, hnext]
          rfl

/-- There are as many line feeds as lines. -/
theorem lineFeeds_linesText (indent : Nat) (h : SolidLines lines) :
    lineFeeds (linesText indent lines) = lines.length := by
  have joined : ∀ line : List Text, (∀ x ∈ line, x ≠ [] ∧ IsSolid x) →
      lineFeeds (joinWith ' ' line) = 0 := by
    intro line hline
    exact List.count_eq_zero.mpr (newline_notMem_joinWith hline)
  induction lines with
  | nil => rfl
  | cons line rest ih =>
      obtain ⟨⟨hne, hline⟩, hrest⟩ := List.forall_mem_cons.mp h
      cases rest with
      | nil =>
          rw [linesText, lineFeeds_append, joined line hline]
          rfl
      | cons next rest =>
          have hbreak : lineFeeds ('\n' :: List.replicate indent ' ') = 1 := by
            rw [lineFeeds, List.count_cons_self, List.count_replicate]
            rfl
          rw [linesText, lineFeeds_append, lineFeeds_append, joined line hline, hbreak, ih hrest]
          simp only [List.length_cons]
          omega

end Lines

/-! ## The text of a proof -/

/-- A text that begins in the first column, is indented and ends a line is one chunk. -/
theorem exists_chunk {t lead : Text} {words : List Text} (hbegins : BeginsWord t)
    (htexts : (tokensFrom {} t).map Token.text = lead :: words) (hindented : Indented t)
    (hends : t.getLast? = some '\n') :
    ∃ c : Chunk, c.text = t ∧ c.lead = lead ∧ wordsOf c.tail = words ∧ c.IsLaid ∧ c.EndsLine := by
  have hne : t ≠ [] := by
    rintro rfl
    cases hends
  let word := t.takeWhile (!isSeparator ·)
  let rest := t.dropWhile (!isSeparator ·)
  have hsplit : word ++ rest = t := List.takeWhile_append_dropWhile
  have solid : ∀ x ∈ word, isSeparator x = false := by
    intro x hx
    simpa using List.mem_takeWhile_imp hx
  rw [tokensFrom, if_neg hne, List.map_cons, List.cons.injEq] at htexts
  obtain ⟨hlead, hwords⟩ := htexts
  -- the text begins with a word, so its first token is not empty
  have hword : word ≠ [] := by
    obtain ⟨c, cs, hcs⟩ := List.exists_cons_of_ne_nil hne
    have hc : (!isSeparator c) = true := by
      rw [hbegins c (by rw [hcs]; rfl)]
      rfl
    show t.takeWhile (!isSeparator ·) ≠ []
    rw [hcs, List.takeWhile_cons_of_pos (p := fun c => !isSeparator c) hc]
    exact List.cons_ne_nil _ _
  refine ⟨⟨word, rest⟩, hsplit, hlead, ?_, ⟨hword, solid, fun x hx => ?_, ?_⟩, ?_⟩
  · exact (wordsOf_eq _ rest).trans hwords
  · have hnot := List.head?_dropWhile_not (!isSeparator ·) t
    rw [Option.mem_def.mp hx] at hnot
    simpa using hnot
  · rw [← hsplit, Indented, List.isChain_append] at hindented
    exact hindented.2.1
  · show rest.getLast? = some '\n'
    rw [← hsplit, List.getLast?_append, Option.or_eq_some_iff] at hends
    refine hends.resolve_right fun h => ?_
    -- a line feed ends no word
    have := solid '\n' (List.mem_of_getLast? h.2)
    cases this

namespace CompressedProof

/-- The proof can be written and read back. -/
structure IsPlain (p : CompressedProof) : Prop where
  labels : ∀ x ∈ p.labels, x ≠ [] ∧ IsSolid x ∧ x ≠ Keyword.closeLabels ∧ x ≠ Keyword.proofEnd
  codes : Code.Valid p.codes

variable {p : CompressedProof}

/-- A piece of the code section is one word, and not the last one of the proof. -/
theorem piece_plain {pieces : List Text} (hflatten : pieces.flatten = p.codeText) {x : Text}
    (hx : x ∈ pieces) : IsSolid x ∧ x ≠ Keyword.proofEnd := by
  have mem_codes : ∀ c ∈ x, c ∈ Code.textOf p.codes := by
    intro c hc
    have hmem : c ∈ pieces.flatten := List.mem_flatten.mpr ⟨x, hx, hc⟩
    rwa [hflatten] at hmem
  refine ⟨fun c hc => Code.isBlank_of_mem_textOf (mem_codes c hc), ?_⟩
  rintro rfl
  have hletter := Code.letter_of_mem_textOf (mem_codes '$' List.mem_cons_self)
  exact absurd hletter (by decide)

/-- The words of a proof whose labels can be told apart can be told apart. -/
theorem solidLines (h : ∀ x ∈ p.labels, x ≠ [] ∧ IsSolid x) (m : Margin) :
    SolidLines (Layout.ofProof m p).lines := by
  obtain ⟨filled, pieces, hwords, hflatten, hne⟩ := Layout.ofProof_filled m p
  rw [Layout.words] at hwords
  refine fun line hline => ⟨filled line hline, fun x hx => ?_⟩
  have hmem : x ∈ (Layout.ofProof m p).lines.flatten := List.mem_flatten.mpr ⟨line, hline, hx⟩
  rw [hwords] at hmem
  simp only [List.mem_cons, List.mem_append, List.not_mem_nil, or_false] at hmem
  rcases hmem with rfl | rfl | hx | rfl | hx | rfl
  · decide
  · decide
  · exact h x hx
  · decide
  · exact ⟨hne x hx, (piece_plain hflatten hx).1⟩
  · decide

/-- The lines of a proof begin with `$=`, and together they spell the proof. -/
theorem IsPlain.lines (h : p.IsPlain) (m : Margin) :
    SolidLines (Layout.ofProof m p).lines ∧ ∃ first rest before,
      (Layout.ofProof m p).lines = (Keyword.proof :: first) :: rest ∧
      first ++ rest.flatten = before ++ [Keyword.proofEnd] ∧ Keyword.proofEnd ∉ before ∧
      SpellsProof (before ++ [Keyword.proofEnd]) (.compressed p) := by
  obtain ⟨filled, pieces, hwords, hflatten, -⟩ := Layout.ofProof_filled m p
  have piece : ∀ x ∈ pieces, IsSolid x ∧ x ≠ Keyword.proofEnd := fun x => piece_plain hflatten
  rw [Layout.words] at hwords
  refine ⟨solidLines (fun x hx => ⟨(h.labels x hx).1, (h.labels x hx).2.1⟩) m, ?_⟩
  let before := Keyword.openLabels :: (p.labels ++ Keyword.closeLabels :: pieces)
  have hbefore : Keyword.openLabels ::
      (p.labels ++ Keyword.closeLabels :: (pieces ++ [Keyword.proofEnd])) =
        before ++ [Keyword.proofEnd] := by
    simp [before]
  have hend : Keyword.proofEnd ∉ p.labels ++ pieces := by
    intro hmem
    rcases List.mem_append.mp hmem with hmem | hmem
    · exact (h.labels _ hmem).2.2.2 rfl
    · exact (piece _ hmem).2 rfl
  -- `$.` is none of the labels and no piece, so it is the last word only
  have open_end : Keyword.proofEnd ∉ before := by
    simp only [before, List.mem_cons, List.mem_append, not_or] at hend ⊢
    exact ⟨by decide, hend.1, by decide, hend.2⟩
  have hcodes : Code.decode pieces.flatten = .ok p.codes := by
    rw [hflatten, codeText, Code.decode_ok, Code.filter_textOf]
    exact ⟨h.codes, rfl⟩
  have spelled : SpellsProof (before ++ [Keyword.proofEnd]) (.compressed p) := by
    rw [← hbefore]
    exact .compressed (fun hmem => (h.labels _ hmem).2.2.1 rfl) hend hcodes
  rw [hbefore] at hwords
  -- the first line is not empty, so it begins with the first word
  cases hlines : (Layout.ofProof m p).lines with
  | nil => simp [Layout.lines] at hlines
  | cons line rest =>
      obtain ⟨w, first, rfl⟩ := List.exists_cons_of_ne_nil
        (filled line (by rw [hlines]; exact List.mem_cons_self))
      rw [hlines, List.flatten_cons, List.cons_append, List.cons.injEq] at hwords
      obtain ⟨rfl, hrest⟩ := hwords
      exact ⟨first, rest, before, rfl, hrest, open_end, spelled⟩

/-- The text of a proof is one chunk if it is indented or has one line. -/
theorem IsPlain.exists_chunk (h : p.IsPlain) {width indent : Nat}
    (hlaid : 0 < indent ∨ lineFeeds (p.layout width indent) = 1) :
    ∃ c : Chunk, c.text = p.layout width indent ∧ c.lead = Keyword.proof ∧
      SpellsProof (wordsOf c.tail) (.compressed p) ∧ c.IsLaid ∧ c.EndsLine := by
  obtain ⟨hsolid, first, rest, before, hlines, hwords, -, spelled⟩ := h.lines (.of width indent)
  have hlayout : p.layout width indent =
      linesText indent (Layout.ofProof (.of width indent) p).lines := Layout.render_eq _ _
  rw [hlayout, lineFeeds_linesText indent hsolid] at hlaid
  rw [hlayout]
  obtain ⟨hbegins, htexts⟩ := texts_linesText {} indent hsolid
  rw [hlines, List.flatten_cons, List.cons_append, hwords, ← hlines] at htexts
  obtain ⟨c, htext, hlead, htail, laid, ends⟩ := ProofSheet.exists_chunk hbegins htexts
    (indented_linesText (hlaid.imp_right Nat.le_of_eq) hsolid)
    (getLast?_linesText indent (by rw [hlines]; exact List.cons_ne_nil _ _))
  refine ⟨c, htext, hlead, ?_, laid, ends⟩
  rw [htail]
  exact spelled

/-- The text of a proof with several lines that are not indented begins with a chunk that does not
reach to the end of the proof. -/
theorem IsPlain.exists_torn (h : p.IsPlain) {width indent : Nat}
    (htorn : ¬ (0 < indent ∨ lineFeeds (p.layout width indent) = 1)) :
    ∃ (c : Chunk) (more : Text), c.text ++ more = p.layout width indent ∧
      c.lead = Keyword.proof ∧ Keyword.proofEnd ∉ wordsOf c.tail ∧ c.IsLaid ∧ c.EndsLine ∧
      BeginsWord more := by
  obtain ⟨hsolid, first, rest, before, hlines, hwords, open_end, -⟩ := h.lines (.of width indent)
  have hlayout : p.layout width indent =
      linesText indent (Layout.ofProof (.of width indent) p).lines := Layout.render_eq _ _
  rw [hlayout, lineFeeds_linesText indent hsolid, hlines, not_or] at htorn
  rw [hlines] at hsolid hlayout
  obtain rfl : indent = 0 := by omega
  cases rest with
  | nil => exact absurd rfl htorn.2
  | cons next rest =>
      obtain ⟨hfirst, hrest⟩ := List.forall_mem_cons.mp hsolid
      -- without indent the first line is a text of its own, which the chunk is made of
      have hsolid₁ : SolidLines [Keyword.proof :: first] := by
        intro line hline
        rw [List.mem_singleton.mp hline]
        exact hfirst
      obtain ⟨hbegins, htexts⟩ := texts_linesText {} 0 hsolid₁
      rw [List.flatten_cons, List.flatten_nil, List.append_nil] at htexts
      obtain ⟨c, htext, hlead, htail, laid, ends⟩ := ProofSheet.exists_chunk hbegins htexts
        (indented_linesText (Or.inr (Nat.le_refl 1)) hsolid₁)
        (getLast?_linesText 0 (List.cons_ne_nil _ _))
      obtain ⟨hmore, -⟩ := texts_linesText {} 0 hrest
      refine ⟨c, linesText 0 (next :: rest), ?_, hlead, ?_, laid, ends, hmore⟩
      · rw [htext, hlayout]
        rfl
      · -- the last word is on a later line
        rw [htail]
        intro hmem
        -- lines are not empty, so there are words on the later lines
        have hlater : (next :: rest).flatten ≠ [] := by
          rw [List.flatten_cons]
          simp [(hrest next List.mem_cons_self).1]
        obtain ⟨words, last, hsplit⟩ := (List.eq_nil_or_concat _).resolve_left hlater
        rw [List.concat_eq_append] at hsplit
        rw [hsplit, ← List.append_assoc] at hwords
        obtain ⟨hbefore, -⟩ := List.append_inj' hwords rfl
        rw [← hbefore] at open_end
        exact open_end (List.mem_append_left _ hmem)

end CompressedProof

end ProofSheet
