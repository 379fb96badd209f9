import ProofSheet.Proofs.Tiling

set_option autoImplicit false

/-! # Two ways to count lines

A statement keeps the line at which it begins, and that counts line feeds only. The line index of a
worksheet (`positionOf`) also counts vertical tabs, form feeds, lone carriage returns, next-line
characters and the two Unicode separators. So the two agree about a statement exactly if no line
before it ends in another way than by a line feed (`Worksheet.positionOf_start_iff`); otherwise the
line index is ahead by the number of the other line ends.
-/

namespace ProofSheet

/-- The number of lines of a text that end in another way than by a line feed. -/
def otherBreaks : Text → Nat
  | [] => 0
  | c :: rest => (if endsLine c rest && c != '\n' then 1 else 0) + otherBreaks rest

/-- Every line that ends in the text ends with a line feed. -/
def BreaksAtLineFeeds (t : Text) : Prop :=
  ∀ c rest, c :: rest <:+ t → endsLine c rest = true → c = '\n'

theorem otherBreaks_eq_zero_iff {t : Text} : otherBreaks t = 0 ↔ BreaksAtLineFeeds t := by
  induction t with
  | nil => simp [otherBreaks, BreaksAtLineFeeds]
  | cons c t ih =>
      have suffixes : BreaksAtLineFeeds (c :: t) ↔
          (endsLine c t = true → c = '\n') ∧ BreaksAtLineFeeds t := by
        simp only [BreaksAtLineFeeds, List.suffix_cons_iff, List.cons.injEq]
        constructor
        · exact fun h => ⟨h c t (Or.inl ⟨rfl, rfl⟩), fun c' rest hsuffix => h c' rest (Or.inr hsuffix)⟩
        · rintro ⟨first, later⟩ c' rest (⟨rfl, rfl⟩ | hsuffix)
          · exact first
          · exact later c' rest hsuffix
      rw [suffixes, ← ih, otherBreaks, Nat.add_eq_zero_iff]
      simp

@[simp] theorem positionFrom_zero (p : Position) (t : Text) : positionFrom p t 0 = p := by
  cases t <;> rfl

/-- A line feed ends a line, whatever follows. -/
@[simp] theorem endsLine_lineFeed (rest : Text) : endsLine '\n' rest = true := rfl

/-- Whether a character ends a line depends on the next character only. -/
theorem endsLine_append (c : Char) {t : Text} (hne : t ≠ []) (rest : Text) :
    endsLine c (t ++ rest) = endsLine c t := by
  rw [endsLine, endsLine, List.head?_append_of_ne_nil _ hne]

/-- After a text that ends with a line feed a line begins, and every line feed and every other
line end of the text has been counted. -/
theorem positionFrom_endsLine (p : Position) {t : Text} (h : t.getLast? = some '\n')
    (rest : Text) :
    positionFrom p (t ++ rest) t.length = ⟨p.line + lineFeeds t + otherBreaks t, 0⟩ := by
  induction t generalizing p with
  | nil => cases h
  | cons c t ih =>
      rw [List.cons_append, List.length_cons, positionFrom]
      by_cases hne : t = []
      · subst hne
        obtain rfl : c = '\n' := by simpa using h
        simp [lineFeeds, otherBreaks]
      · have hlast : t.getLast? = some '\n' := by
          rwa [List.getLast?_cons_of_ne_nil hne] at h
        rw [endsLine_append c hne rest, ih _ hlast, otherBreaks]
        -- the character ends a line as a line feed, or in another way, or not at all
        by_cases hfeed : c = '\n'
        · subst hfeed
          simp only [endsLine_lineFeed, lineFeeds, List.count_cons_self, bne_self_eq_false,
            Bool.and_false, Bool.false_eq_true, if_true, if_false]
          congr 1
          omega
        · have hcount : lineFeeds (c :: t) = lineFeeds t := List.count_cons_of_ne hfeed
          have hother : (c != '\n') = true := by simpa using hfeed
          rw [hcount, hother, Bool.and_true]
          cases endsLine c t with
          | true =>
              simp only [if_true]
              congr 1
              omega
          | false =>
              simp only [Bool.false_eq_true, if_false]
              congr 1
              omega

namespace Worksheet

variable {ws : Worksheet} {db : Database} {st : Settings}

/-- What stands before a statement is nothing or ends with a line feed. -/
theorem Laid.before_endsLine (h : ws.Laid) {before after : List Statement} {s : Statement}
    (hss : ws.statements = before ++ s :: after) :
    before.flatMap Statement.text = [] ∨
      (before.flatMap Statement.text).getLast? = some '\n' := by
  rcases List.eq_nil_or_concat before with rfl | ⟨front, t, rfl⟩
  · exact Or.inl rfl
  · have hends := h.ends
    rw [List.concat_eq_append] at hss ⊢
    rw [hss, List.append_assoc, List.map_append, List.cons_append, List.map_cons,
      endLines_split] at hends
    have ends := t.text_getLast? (hends.2.1 (by simp))
    rw [List.flatMap_append, List.getLast?_append]
    exact Or.inr (by simp [ends])

/-- The line index puts a statement in the first column of the line that all line ends before it
count to. -/
theorem Laid.positionOf_start (h : ws.Laid) {s : Statement} (hs : s ∈ ws.statements) :
    positionOf ws.output s.start =
      ⟨s.position.line + otherBreaks (ws.output.take s.start), 0⟩ := by
  obtain ⟨before, after, hss⟩ := List.append_of_mem hs
  obtain ⟨houtput, hstart, hposition⟩ := h.place hss
  rw [houtput, hstart, hposition, List.take_left]
  rcases h.before_endsLine hss with hnil | hends
  · rw [hnil, List.length_nil, positionOf, positionFrom_zero]
    rfl
  · rw [positionOf, positionFrom_endsLine {} hends, Nat.zero_add]

/-- After any calls on a worksheet that loads cleanly, the line index is ahead of the position of a
statement by the lines before it that do not end with a line feed; so the two agree exactly if
there are none. -/
theorem positionOf_start_iff {request : Request} {text : Text}
    (clean : (load db st request text).broken = false) (calls : List Call) {s : Statement}
    (hs : s ∈ ((load db st request text).afterCalls calls).statements) :
    let ws := (load db st request text).afterCalls calls
    positionOf ws.output s.start =
        ⟨s.position.line + otherBreaks (ws.output.take s.start), s.position.column⟩ ∧
      (positionOf ws.output s.start = s.position ↔
        BreaksAtLineFeeds (ws.output.take s.start)) := by
  intro ws
  have laid : ws.Laid := laid_afterCalls clean calls
  obtain ⟨before, after, hss⟩ := List.append_of_mem hs
  obtain ⟨-, -, hposition⟩ := laid.place hss
  have hcolumn : s.position.column = 0 := by rw [hposition]
  have hplace := laid.positionOf_start hs
  refine ⟨by rw [hplace, hcolumn], ?_⟩
  have hself : s.position = ⟨s.position.line, 0⟩ := by rw [← hcolumn]
  rw [hplace, ← otherBreaks_eq_zero_iff, hself, Position.mk.injEq]
  simp

theorem positionOf_start_shortText :
    (load .empty {} {} shortText).broken = false ∧
      let ws := (load .empty {} {} shortText).afterCalls oddCalls
      ∃ s ∈ ws.statements, s.isFooter = true ∧
        positionOf ws.output s.start =
            ⟨s.position.line + otherBreaks (ws.output.take s.start), s.position.column⟩ ∧
          (positionOf ws.output s.start = s.position ↔
            BreaksAtLineFeeds (ws.output.take s.start)) := by
  obtain ⟨s, hs, hfooter⟩ :
      ∃ s ∈ ((load .empty {} {} shortText).afterCalls oddCalls).statements,
        s.isFooter = true := by
    decide +kernel
  exact ⟨shortText_loads, s, hs, hfooter, positionOf_start_iff shortText_loads oddCalls hs⟩

/-- A worksheet with a form feed in a comment. -/
def formFeedText : Text :=
  "$( <MM> <PROOF_ASST> THEOREM=t LOC_AFTER=?\n* a\x0cb\nqed::ax |- p\n$)\n".toList

/-- After the form feed the line index is one line ahead. -/
theorem formFeed_misplaces :
    (load .empty {} {} formFeedText).broken = false ∧
      ∃ s ∈ (load .empty {} {} formFeedText).statements,
        positionOf (load .empty {} {} formFeedText).output s.start ≠ s.position := by
  decide +kernel

end Worksheet

end ProofSheet
