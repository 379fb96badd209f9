import ProofSheet.Proofs.Findings

set_option autoImplicit false

/-! # What the spans of messages underline

The span of a message is that of a token of the text that is loaded. The messages about local
references that are resolved are left aside, since they speak of leads that are written anew.

There is one other exception. That the number of hypotheses is wrong is found out last, when the
worksheet has been laid out without the separators at the front of the text, and the span reported
is that of the header in the layout. So it underlines the header exactly if the text begins with it
(`Worksheet.underlines_iff`).
-/

namespace ProofSheet

/-- The codes of the messages about local references that are resolved. -/
def localRefCodes : List String := ["E-PA-0301", "E-PA-0302", "E-PA-0603"]

/-- The code of the message that the number of hypotheses is wrong. -/
def countCode : String := "E-PA-0401"

/-- The span of a message is that of a token of the text, and the span of the message that the
number of hypotheses is wrong is that of the opening of the header. -/
structure Message.Underlines (text : Text) (m : Message) : Prop where
  token : m.code ∉ localRefCodes → ∀ span, m.span = some span → ∃ t ∈ tokens text, span = t.span
  header : m.code = countCode →
    ∃ t, (tokens text).head? = some t ∧ t.text = Keyword.header ∧ m.span = some t.span

/-- The message that the number of hypotheses is wrong, with the span of a header that stands at the
very front. -/
structure Message.IsCount (text : Text) (m : Message) : Prop where
  code : m.code = countCode
  span : m.span = some ⟨0, Keyword.header.length⟩
  header : ∃ t, (tokens text).head? = some t ∧ t.text = Keyword.header

/-! ## The first token -/

/-- The first token stands after the separators at the front of the text. -/
theorem start_of_head? {text : Text} {t : Token} (h : (tokens text).head? = some t) :
    t.start = (text.takeWhile isSeparator).length := by
  rw [tokens, tokensFrom.eq_1] at h
  split at h
  · cases h
  · cases h
    exact (Place.offset_after {} _).trans (Nat.zero_add _)

/-- The first token stands at the very front exactly if the text begins with it. -/
theorem beginsWord_iff_start {text : Text} {t : Token} (h : (tokens text).head? = some t) :
    BeginsWord text ↔ t.start = 0 := by
  rw [beginsWord_iff_takeWhile, start_of_head? h, List.length_eq_zero_iff]

/-! ## The codes -/

/-- Only the wrong number of hypotheses has its code. -/
theorem Cause.code_ne_countCode {c : Cause}
    (h : ∀ expected found, c ≠ .hypCountMismatch expected found) : c.code ≠ countCode := by
  cases c with
  | hypCountMismatch expected found => exact absurd rfl (h expected found)
  | _ => simp [Cause.code, countCode]

theorem Cause.code_mem_localRefCodes {c : Cause} (h : c.isUnresolved = true) :
    c.code ∈ localRefCodes := by
  cases c with
  | localRefNotFound target => exact List.mem_cons_self
  | chainedLocalRef target => exact List.mem_cons_of_mem _ List.mem_cons_self
  | _ => cases h

theorem Note.code_ne_countCode (n : Note) : n.code ≠ countCode := by
  cases n with
  | _ => simp [Note.code, countCode]

/-! ## Remarks and faults -/

section Messages

variable {text : Text} {m : Message} {f : Fault}

theorem Message.underlines_of_ne (hcode : m.code ≠ countCode)
    (token : m.code ∉ localRefCodes → ∀ span, m.span = some span → ∃ t ∈ tokens text, span = t.span) :
    m.code ≠ countCode ∧ m.Underlines text :=
  ⟨hcode, token, fun h => absurd h hcode⟩

theorem Message.IsRemark.underlines (h : m.IsRemark (tokens text)) :
    m.code ≠ countCode ∧ m.Underlines text := by
  cases h with
  | note h =>
      obtain ⟨n, label, t, ht, rfl⟩ := h
      refine underlines_of_ne n.code_ne_countCode fun _ span hspan => ?_
      exact ⟨t, ht, (Option.some.inj hspan).symm⟩
  | mismatch label step target span =>
      refine underlines_of_ne (by simp [formulaMismatch, countCode]) fun hcode => ?_
      exact absurd (by simp [formulaMismatch, localRefCodes]) hcode

theorem Fault.IsFound.underlines (h : f.IsFound (tokens text)) :
    f.toMessage.code ≠ countCode ∧ f.toMessage.Underlines text ∨ f.toMessage.IsCount text := by
  cases h with
  | read h =>
      refine Or.inl (Message.underlines_of_ne (Cause.code_ne_countCode ?_) fun _ => h.span)
      intro expected found heq
      exact absurd h.cause (by rw [heq]; exact Bool.false_ne_true)
  | search cause span =>
      refine Or.inl (Message.underlines_of_ne (Cause.code_ne_countCode ?_) fun _ s hspan => ?_)
      · intro expected found heq
        cases cause.symm.trans heq
      · cases span.symm.trans hspan
  | unresolved cause =>
      refine Or.inl (Message.underlines_of_ne (Cause.code_ne_countCode ?_) fun hcode => ?_)
      · intro expected found heq
        exact absurd cause (by rw [heq]; exact Bool.false_ne_true)
      · exact absurd (Cause.code_mem_localRefCodes cause) hcode
  | count cause first header span =>
      refine Or.inr ⟨?_, ?_, ⟨_, first, header⟩⟩
      · show f.cause.code = countCode
        rw [cause]
        rfl
      · rw [← header]
        exact span

/-- The message about the number of hypotheses underlines the header exactly if the header stands at
the very front. -/
theorem Message.IsCount.underlines_iff_beginsWord (h : m.IsCount text) :
    m.Underlines text ↔ BeginsWord text := by
  obtain ⟨t, hfirst, htext⟩ := h.header
  rw [beginsWord_iff_start hfirst]
  constructor
  · intro underlines
    obtain ⟨t', hfirst', -, hspan⟩ := underlines.header h.code
    obtain rfl : t' = t := Option.some.inj (hfirst'.symm.trans hfirst)
    rw [h.span] at hspan
    exact (congrArg Span.start (Option.some.inj hspan)).symm
  · intro hstart
    have hspan : m.span = some t.span := by
      have hoffset : t.place.offset = 0 := hstart
      rw [h.span, Token.span, Token.stop, Token.start, hoffset, htext, Nat.zero_add]
    refine ⟨fun _ span hsome => ⟨t, List.mem_of_head? hfirst, ?_⟩, fun _ => ⟨t, hfirst, htext, hspan⟩⟩
    exact Option.some.inj (hsome.symm.trans hspan)

end Messages

/-! ## All messages -/

namespace Worksheet

variable {db : Database} {st : Settings} {request : Request} {text : Text} {m : Message}

theorem underlines_or_isCount (hm : m ∈ (load db st request text).messages) :
    m.code ≠ countCode ∧ m.Underlines text ∨ m.IsCount text := by
  obtain ⟨remarks, hremarks, ⟨-, hmessages⟩ | ⟨-, f, hfound, hmessages⟩⟩ :=
    load_reports db st request text
  · rw [hmessages] at hm
    exact Or.inl (hremarks m hm).underlines
  · rw [hmessages, List.mem_append, List.mem_singleton] at hm
    rcases hm with hm | rfl
    · exact Or.inl (hremarks m hm).underlines
    · exact hfound.underlines

/-- A message of a load underlines a token of the text, unless it says that the number of hypotheses
is wrong and there are separators at the front of the text. That message has the span of a header at
the very front. -/
theorem underlines_iff (hm : m ∈ (load db st request text).messages) :
    (m.Underlines text ↔ (m.code = countCode → BeginsWord text)) ∧
      (m.code = countCode → m.span = some ⟨0, Keyword.header.length⟩) := by
  rcases underlines_or_isCount hm with ⟨hcode, underlines⟩ | count
  · exact ⟨iff_of_true underlines fun h => absurd h hcode, fun h => absurd h hcode⟩
  · refine ⟨?_, fun _ => count.span⟩
    rw [count.underlines_iff_beginsWord]
    exact ⟨fun h _ => h, fun h => h count.code⟩

/-- A database with a theorem that has no hypotheses. -/
def axiomDatabase : Database :=
  TheoremTable.database { theorems := [{ label := ['t'], conclusion := "|- q".toList }] }

/-- A worksheet with one hypothesis, below a blank line. -/
def blankLineText : Text := '\n' :: shortText

theorem blankLineText_counted :
    ∃ m ∈ (load axiomDatabase {} {} blankLineText).messages, m.code = countCode := by
  decide +kernel

theorem underlines_iff_blankLineText :
    ∃ m ∈ (load axiomDatabase {} {} blankLineText).messages, m.code = countCode ∧
      (m.Underlines blankLineText ↔ (m.code = countCode → BeginsWord blankLineText)) ∧
      (m.code = countCode → m.span = some ⟨0, Keyword.header.length⟩) := by
  obtain ⟨m, hm, hcode⟩ := blankLineText_counted
  exact ⟨m, hm, hcode, underlines_iff hm⟩

/-- Below the blank line, the message about the number of hypotheses underlines no token. -/
theorem blankLine_shifts :
    ∃ m ∈ (load axiomDatabase {} {} blankLineText).messages, ¬ m.Underlines blankLineText := by
  obtain ⟨m, hm, hcode⟩ := blankLineText_counted
  have count := (underlines_or_isCount hm).resolve_left fun h => h.1 hcode
  refine ⟨m, hm, fun underlines => ?_⟩
  have begins := count.underlines_iff_beginsWord.mp underlines
  exact absurd (begins '\n' rfl) (by decide)

end Worksheet

end ProofSheet
