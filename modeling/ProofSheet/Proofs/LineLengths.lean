import ProofSheet.Proofs.Margins

set_option autoImplicit false

/-! # Generated proofs stay inside the margin

While a layout is filled, `used` is the length of its current line, and all its lines are within the
margin (`Layout.Within`). A word is put where there is room for it, or on a new line, which has room
for every word but a long label; a piece of a run is cut to the room there is. So a line can only be
too long if it holds nothing but a label.

The text of the layout has these lines, and the words of the layout. Since the words have no blanks,
no line ends with a space, and every line after the first begins with the indent and no more
(`CompressedProof.layout_isWrapped`).
-/

namespace ProofSheet

/-! ## Rows -/

/-- The lines of a layout as they are written: all but the first are indented. -/
def rows (indent : Nat) : List (List Text) → List Text
  | [] => []
  | first :: rest =>
    joinWith ' ' first :: rest.map (List.replicate indent ' ' ++ joinWith ' ' ·)

/-- A row is within the margin, unless it has an indent and a label that leave no other choice. -/
def Margin.Holds (m : Margin) (labels : List Text) (row : Text) : Prop :=
  row.length ≤ m.width ∨
    ∃ label ∈ labels, row = List.replicate m.indent ' ' ++ label ∧
      m.width - m.indent < label.length

namespace Layout

variable {m : Margin} {l : Layout} {labels : List Text}

/-- The current line as it is written. -/
def row (m : Margin) (l : Layout) : Text :=
  (if l.finished = [] then [] else List.replicate m.indent ' ') ++ joinWith ' ' l.line

theorem render_rows (m : Margin) (l : Layout) :
    l.render m = (rows m.indent l.lines).flatMap (· ++ ['\n']) := by
  unfold render
  cases hlines : l.lines with
  | nil => rfl
  | cons first rest => simp [rows, Function.comp_def]

theorem rows_lines (m : Margin) (l : Layout) :
    rows m.indent l.lines = rows m.indent l.finished ++ [l.row m] := by
  unfold lines row
  cases l.finished with
  | nil => rfl
  | cons first rest => simp [rows]

/-- The number of characters is counted as it should be, and the lines are within the margin. -/
structure Within (m : Margin) (labels : List Text) (l : Layout) : Prop where
  used : l.used = (l.row m).length
  finished : ∀ row ∈ rows m.indent l.finished, m.Holds labels row
  current : m.Holds labels (l.row m)

theorem row_put (m : Margin) (l : Layout) (word : Text) :
    (l.put word).row m = l.row m ++ List.replicate l.gap ' ' ++ word := by
  unfold row put gap
  dsimp only
  cases l.line with
  | nil => simp [joinWith]
  | cons first rest =>
      have hjoin : joinWith ' ' (first :: rest ++ [word]) =
          joinWith ' ' (first :: rest) ++ ' ' :: word := by
        unfold joinWith
        induction rest generalizing first with
        | nil => simp [List.intercalate_cons_cons]
        | cons next rest ih =>
            rw [List.cons_append, List.cons_append, List.intercalate_cons_cons,
              ← List.cons_append, ih, List.intercalate_cons_cons]
            simp
      rw [hjoin]
      simp

/-- A word is within the margin if there is room for it, or if it is a label on a line of its
own. -/
theorem Within.put (h : l.Within m labels) {word : Text}
    (hword : l.used + l.gap + word.length ≤ m.width ∨
      (l.line = [] ∧ l.finished ≠ [] ∧ word ∈ labels)) : (l.put word).Within m labels := by
  have hrow := row_put m l word
  have hused : (l.put word).used = ((l.put word).row m).length := by
    rw [hrow, List.length_append, List.length_append, List.length_replicate, ← h.used]
    rfl
  refine ⟨hused, h.finished, ?_⟩
  rcases hword with hroom | ⟨hline, hfinished, hlabel⟩
  · left
    rw [← hused]
    exact hroom
  · -- the label stands behind the indent
    have halone : (l.put word).row m = List.replicate m.indent ' ' ++ word := by
      rw [hrow, row, gap, if_neg hfinished, hline]
      simp [joinWith]
    by_cases hfits : m.indent + word.length ≤ m.width
    · left
      rw [halone, List.length_append, List.length_replicate]
      exact hfits
    · have hlong : m.width - m.indent < word.length := by
        have := m.indent_lt
        omega
      exact Or.inr ⟨word, hlabel, halone, hlong⟩

/-- A word that is no longer than the room for it is put on the current line. -/
theorem Within.put_of_room (h : l.Within m labels) {word : Text} (hne : word ≠ [])
    (hroom : word.length ≤ l.room m) : (l.put word).Within m labels := by
  have hpos := List.length_pos_iff.mpr hne
  unfold room at hroom
  exact h.put (Or.inl (by omega))

theorem Within.newLine (h : l.Within m labels) : (l.newLine m).Within m labels := by
  have hrow : (l.newLine m).row m = List.replicate m.indent ' ' := by
    simp [row, Layout.newLine, joinWith]
  refine ⟨?_, ?_, ?_⟩
  · rw [hrow, List.length_replicate]
    rfl
  · intro row hrow
    have hmem : row ∈ rows m.indent l.finished ++ [l.row m] := by
      rw [← rows_lines]
      exact hrow
    rcases List.mem_append.mp hmem with hmem | hmem
    · exact h.finished row hmem
    · rw [List.mem_singleton.mp hmem]
      exact h.current
  · left
    have := m.indent_lt
    rw [hrow, List.length_replicate]
    omega

theorem word_of_room {word : Text} (h : word.length ≤ l.room m) : l.word m word = l.put word := by
  have hroom : (!l.line.isEmpty && decide (l.room m < word.length)) = false := by
    rw [decide_eq_false (Nat.not_lt.mpr h), Bool.and_false]
  rw [Layout.word, hroom, if_neg Bool.false_ne_true]

/-- A word goes on a new line if there is no room for it. Only a label may be too long for one. -/
theorem Within.word (h : l.Within m labels) (hline : l.line ≠ []) {word : Text} (hne : word ≠ [])
    (hword : m.indent + word.length ≤ m.width ∨ word ∈ labels) :
    (l.word m word).Within m labels := by
  unfold Layout.word
  split
  · refine h.newLine.put ?_
    rcases hword with hfits | hlabel
    · exact Or.inl hfits
    · exact Or.inr ⟨rfl, by simp [Layout.newLine], hlabel⟩
  · rename_i hroom
    refine h.put_of_room hne ?_
    simpa [hline] using hroom

theorem Within.foldl (h : l.Within m labels) (filled : l.Filled) {added : List Text}
    (hadded : ∀ x ∈ added, x ≠ [] ∧ (m.indent + x.length ≤ m.width ∨ x ∈ labels)) :
    (added.foldl (Layout.word m) l).Within m labels := by
  induction added generalizing l with
  | nil => exact h
  | cons first rest ih =>
      obtain ⟨⟨hne, hfirst⟩, hrest⟩ := List.forall_mem_cons.mp hadded
      exact ih (h.word (filled_iff.mp filled).2 hne hfirst) (filled.begun.word m first) hrest

theorem Within.withRoom (h : l.Within m labels) : (l.withRoom m).Within m labels := by
  unfold Layout.withRoom
  split
  · exact h.newLine
  · exact h

/-- The pieces of a run are no longer than the room for them. -/
theorem Within.run (h : l.Within m labels) (codes : Text) : (l.run m codes).Within m labels := by
  fun_induction Layout.run m l codes with
  | case1 l => exact h
  | case2 l codes hcodes fits ih =>
      have hroom : 0 < (l.withRoom m).room m := room_withRoom_pos m l
      have hlength : (codes.take fits).length ≤ (l.withRoom m).room m := by
        rw [List.length_take]
        exact Nat.min_le_left _ _
      have hpiece : codes.take fits ≠ [] := by
        rw [← List.length_pos_iff, List.length_take]
        exact Nat.lt_min.mpr ⟨hroom, List.length_pos_iff.mpr hcodes⟩
      refine ih ?_
      rw [word_of_room hlength]
      exact h.withRoom.put_of_room hpiece hlength

/-- The lines of a generated proof are within the margin. -/
theorem ofProof_within (m : Margin) (p : CompressedProof) (hlabels : ∀ x ∈ p.labels, x ≠ []) :
    (ofProof m p).Within m p.labels := by
  have hwidth := m.indent_lt
  -- `$=` opens the first line, which is not indented
  have opened : (word m {} Keyword.proof).Within m p.labels := by
    refine ⟨rfl, fun row hrow => (by cases hrow), Or.inl ?_⟩
    exact Nat.le_trans (Nat.le_add_left 2 m.indent) hwidth
  have filled : (word m {} Keyword.proof).Filled :=
    Begun.word (fun line hline => (by cases hline)) m Keyword.proof
  have short : ∀ x ∈ [Keyword.openLabels, Keyword.closeLabels],
      x ≠ [] ∧ (m.indent + x.length ≤ m.width ∨ x ∈ p.labels) := by
    simp only [List.mem_cons, List.not_mem_nil, or_false, forall_eq_or_imp, forall_eq]
    exact ⟨⟨by decide, Or.inl (Nat.le_of_succ_le hwidth)⟩,
      ⟨by decide, Or.inl (Nat.le_of_succ_le hwidth)⟩⟩
  have hadded : ∀ x ∈ Keyword.openLabels :: p.labels ++ [Keyword.closeLabels],
      x ≠ [] ∧ (m.indent + x.length ≤ m.width ∨ x ∈ p.labels) := by
    intro x hx
    simp only [List.cons_append, List.mem_cons, List.mem_append, List.not_mem_nil,
      or_false] at hx short
    rcases hx with hx | hx | hx
    · exact short x (Or.inl hx)
    · exact ⟨hlabels x hx, Or.inr hx⟩
    · exact short x (Or.inr hx)
  have labelled := opened.foldl filled hadded
  have coded := labelled.run p.codeText
  obtain ⟨coded_filled, -⟩ := (filled.foldl m _).run m p.codeText
  exact coded.word (filled_iff.mp coded_filled).2 (by decide) (Or.inl hwidth)

end Layout

/-! ## The lines of the text -/

/-- The lines of a text, of which each ends with a line feed. -/
def textLines (t : Text) : List Text := (t.splitOn '\n').dropLast

theorem splitOn_lines {lines : List Text} (h : ∀ line ∈ lines, '\n' ∉ line) :
    (lines.flatMap (· ++ ['\n'])).splitOn '\n' = lines ++ [[]] := by
  induction lines with
  | nil => rfl
  | cons line rest ih =>
      obtain ⟨hline, hrest⟩ := List.forall_mem_cons.mp h
      rw [List.flatMap_cons, List.append_assoc, List.singleton_append,
        List.splitOn_append_cons_self, List.splitOn_eq_singleton hline, ih hrest]
      rfl

theorem textLines_lines {lines : List Text} (h : ∀ line ∈ lines, '\n' ∉ line) :
    textLines (lines.flatMap (· ++ ['\n'])) = lines := by
  rw [textLines, splitOn_lines h, List.dropLast_concat]

theorem words_lines (lines : List Text) :
    words (lines.flatMap (· ++ ['\n'])) = lines.flatMap words := by
  induction lines with
  | nil => rfl
  | cons line rest ih =>
      rw [List.flatMap_cons, List.append_assoc, List.singleton_append,
        words_append_blank (by decide), ih, List.flatMap_cons]

/-- Words that are joined begin and end with a character that is not blank. -/
theorem ends_joinWith {line : List Text} (hne : line ≠ []) (h : ∀ x ∈ line, x ≠ [] ∧ IsSolid x) :
    joinWith ' ' line ≠ [] ∧ (∀ c ∈ (joinWith ' ' line).head?, isBlank c = false) ∧
      ∀ c ∈ (joinWith ' ' line).getLast?, isBlank c = false := by
  unfold joinWith
  induction line with
  | nil => exact absurd rfl hne
  | cons x rest ih =>
      obtain ⟨⟨hx, hsolid⟩, hrest⟩ := List.forall_mem_cons.mp h
      cases rest with
      | nil =>
          rw [List.intercalate_singleton]
          exact ⟨hx, fun c hc => hsolid c (List.mem_of_mem_head? hc),
            fun c hc => hsolid c (List.mem_of_getLast? hc)⟩
      | cons next rest =>
          obtain ⟨joined, -, last⟩ := ih (List.cons_ne_nil _ _) hrest
          rw [List.intercalate_cons_cons, List.append_assoc]
          refine ⟨List.append_ne_nil_of_left_ne_nil hx _, fun c hc => ?_, fun c hc => ?_⟩
          · rw [List.head?_append_of_ne_nil _ hx] at hc
            exact hsolid c (List.mem_of_mem_head? hc)
          · rw [List.getLast?_append_of_ne_nil _ (List.append_ne_nil_of_right_ne_nil _ joined),
              List.getLast?_append_of_ne_nil _ joined] at hc
            exact last c hc

section Rows

variable {indent : Nat} {lines : List (List Text)}

theorem mem_rows {row : Text} (hrow : row ∈ rows indent lines) :
    ∃ n, ∃ line ∈ lines, row = List.replicate n ' ' ++ joinWith ' ' line := by
  cases lines with
  | nil => cases hrow
  | cons first rest =>
      rcases List.mem_cons.mp hrow with rfl | hrow
      · exact ⟨0, first, List.mem_cons_self, rfl⟩
      · obtain ⟨line, hline, rfl⟩ := List.mem_map.mp hrow
        exact ⟨indent, line, List.mem_cons_of_mem _ hline, rfl⟩

/-- A row ends with a character that is not blank, and holds no line feed. -/
theorem ends_row (h : SolidLines lines) {row : Text} (hrow : row ∈ rows indent lines) :
    '\n' ∉ row ∧ ∃ front c, row = front ++ [c] ∧ isBlank c = false := by
  obtain ⟨n, line, hline, rfl⟩ := mem_rows hrow
  obtain ⟨hne, hsolid⟩ := h line hline
  obtain ⟨joined, -, last⟩ := ends_joinWith hne hsolid
  constructor
  · rw [List.mem_append, not_or]
    refine ⟨fun hmem => ?_, newline_notMem_joinWith hsolid⟩
    exact absurd (List.eq_of_mem_replicate hmem) (by decide)
  · obtain ⟨front, c, hconcat⟩ := (List.eq_nil_or_concat _).resolve_left joined
    refine ⟨List.replicate n ' ' ++ front, c, ?_, last c ?_⟩
    · rw [hconcat, List.concat_eq_append, List.append_assoc]
    · rw [hconcat, List.concat_eq_append, List.getLast?_concat]
      rfl

/-- The indent of a row is followed by a word. -/
theorem takeWhile_row (h : SolidLines lines) {row : Text} (hrow : row ∈ (rows indent lines).tail) :
    row.takeWhile (· == ' ') = List.replicate indent ' ' := by
  cases lines with
  | nil => cases hrow
  | cons first rest =>
      obtain ⟨line, hline, rfl⟩ := List.mem_map.mp hrow
      obtain ⟨hne, hsolid⟩ := h line (List.mem_cons_of_mem _ hline)
      obtain ⟨joined, head, -⟩ := ends_joinWith hne hsolid
      obtain ⟨c, t, hcons⟩ := List.exists_cons_of_ne_nil joined
      have hc : (c == ' ') = false := by
        rw [beq_eq_false_iff_ne]
        rintro rfl
        have hspace := head ' ' (by rw [hcons]; rfl)
        cases hspace
      rw [List.takeWhile_append_of_pos fun x hx => beq_iff_eq.mpr (List.eq_of_mem_replicate hx),
        hcons, List.takeWhile_cons_of_neg (by rw [hc]; decide), List.append_nil]

theorem words_rows (h : SolidLines lines) : (rows indent lines).flatMap words = lines.flatten := by
  have words_line : ∀ n, ∀ line ∈ lines,
      words (List.replicate n ' ' ++ joinWith ' ' line) = line := by
    intro n line hline
    rw [words_blanks_append fun c hc => by rw [List.eq_of_mem_replicate hc]; rfl]
    exact words_joinWith_solid (h line hline).2
  cases lines with
  | nil => rfl
  | cons first rest =>
      have hrest : rest.flatMap
          (fun line => words (List.replicate indent ' ' ++ joinWith ' ' line)) = rest.flatten := by
        rw [← List.flatMap_id]
        exact List.flatMap_congr fun line hline =>
          words_line indent line (List.mem_cons_of_mem _ hline)
      rw [rows, List.flatMap_cons, List.flatMap_map, hrest, List.flatten_cons]
      exact congrArg (· ++ rest.flatten) (words_line 0 first List.mem_cons_self)

end Rows

/-! ## The text of a proof -/

namespace CompressedProof

/-- A text has what stands in a proof, on lines inside a margin. -/
structure IsWrapped (p : CompressedProof) (width indent : Nat) (t : Text) : Prop where
  /-- The words are those of the proof, and the code section is cut into pieces. -/
  content : ∃ pieces, words t = Keyword.proof :: Keyword.openLabels ::
      (p.labels ++ Keyword.closeLabels :: (pieces ++ [Keyword.proofEnd])) ∧
    pieces.flatten = p.codeText
  /-- There is one line feed at the end. -/
  ending : ∃ front c, t = front ++ [c, '\n'] ∧ c ≠ '\n'
  trailing : ∀ line ∈ textLines t, line.getLast? ≠ some ' '
  /-- Every line after the first begins with the indent, and no further space. -/
  indented : ∀ line ∈ (textLines t).tail, line.takeWhile (· == ' ') = List.replicate indent ' '
  /-- Only a label that is too long for a line exceeds the margin, and it does so alone. -/
  bounded : ∀ line ∈ textLines t, line.length ≤ max width (indent + 2) ∨
    ∃ label ∈ p.labels, line = List.replicate indent ' ' ++ label ∧
      max width (indent + 2) - indent < label.length

/-- The text of a proof keeps the content of the proof and the margin. -/
theorem layout_isWrapped (p : CompressedProof) (width indent : Nat)
    (hlabels : ∀ x ∈ p.labels, x ≠ [] ∧ IsSolid x) :
    p.IsWrapped width indent (p.layout width indent) := by
  let m := Margin.of width indent
  let lines := (Layout.ofProof m p).lines
  have hsolid : SolidLines lines := solidLines hlabels m
  have hlayout : p.layout width indent = (rows indent lines).flatMap (· ++ ['\n']) :=
    Layout.render_rows m _
  have hlines : textLines (p.layout width indent) = rows indent lines := by
    rw [hlayout, textLines_lines fun row hrow => (ends_row hsolid hrow).1]
  have within := Layout.ofProof_within m p fun x hx => (hlabels x hx).1
  have hrows : rows indent lines = rows indent _ ++ [_] := Layout.rows_lines m _
  constructor
  case content =>
    obtain ⟨-, pieces, hwords, hflatten, -⟩ := Layout.ofProof_filled m p
    exact ⟨pieces, by rw [hlayout, words_lines, words_rows hsolid]; exact hwords, hflatten⟩
  case ending =>
    obtain ⟨-, front, c, hlast, hblank⟩ :=
      ends_row hsolid (by rw [hrows]; exact List.mem_concat_self)
    refine ⟨(rows indent (Layout.ofProof m p).finished).flatMap (· ++ ['\n']) ++ front, c, ?_, ?_⟩
    · rw [hlayout, hrows, List.flatMap_append, hlast]
      simp
    · rintro rfl
      cases hblank
  case trailing =>
    intro line hline hspace
    rw [hlines] at hline
    obtain ⟨-, front, c, rfl, hblank⟩ := ends_row hsolid hline
    rw [List.getLast?_concat] at hspace
    cases hspace
    cases hblank
  case indented =>
    rw [hlines]
    exact fun line hline => takeWhile_row hsolid hline
  case bounded =>
    intro line hline
    rw [hlines, hrows] at hline
    rcases List.mem_append.mp hline with hline | hline
    · exact within.finished line hline
    · rw [List.mem_singleton.mp hline]
      exact within.current

theorem layout_isWrapped_long :
    let p : CompressedProof := ⟨["ax-mp-long".toList, "b".toList], [.index 120, .save, .unknown]⟩
    let t := "$= (\n  ax-mp-long\n  b ) UU\n  AZ? $.\n".toList
    (∀ x ∈ p.labels, x ≠ [] ∧ IsSolid x) ∧ p.layout 8 2 = t ∧ p.IsWrapped 8 2 t := by
  intro p t
  have hlabels : ∀ x ∈ p.labels, x ≠ [] ∧ IsSolid x := by decide
  have hlayout : p.layout 8 2 = t := by decide +kernel
  exact ⟨hlabels, hlayout, hlayout ▸ layout_isWrapped p 8 2 hlabels⟩

end CompressedProof

end ProofSheet
