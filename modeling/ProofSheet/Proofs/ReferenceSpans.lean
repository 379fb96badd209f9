import ProofSheet.Proofs.FailedReferences
import ProofSheet.Proofs.Underlines

set_option autoImplicit false

/-! # The spans of messages about local references

A message about a local reference has the span of the lead of its step, as the text has it. The span
begins with the lead, since the messages are made before anything is laid out anew. But it is as long
as the lead is in bytes, and all other spans count characters. So it is the span of the lead exactly
if all characters of the lead are ASCII characters (`Worksheet.reference_span_iff`).
-/

namespace ProofSheet

/-! ## Sizes in bytes -/

theorem length_le_utf8Length (t : Text) : t.length ≤ utf8Length t := by
  induction t with
  | nil => exact Nat.le_refl 0
  | cons c t ih =>
      have := c.utf8Size_pos
      rw [List.length_cons, utf8Length_cons]
      omega

theorem utf8Size_eq_one_iff_toNat (c : Char) : c.utf8Size = 1 ↔ c.toNat < 128 := by
  rw [Char.utf8Size_eq_one_iff, UInt32.le_iff_toNat_le]
  exact Nat.lt_succ_iff.symm

/-- A text has as many bytes as characters exactly if all of them are ASCII characters. -/
theorem utf8Length_eq_length_iff (t : Text) :
    utf8Length t = t.length ↔ ∀ c ∈ t, c.toNat < 128 := by
  induction t with
  | nil => simp
  | cons c t ih =>
      have hsize := c.utf8Size_pos
      have hrest := length_le_utf8Length t
      rw [List.forall_mem_cons, ← ih, ← utf8Size_eq_one_iff_toNat, utf8Length_cons,
        List.length_cons]
      omega

/-! ## Messages about local references -/

/-- The message is about a local reference in the step with a name: it cannot be resolved, or the
formulas of the step and of what it stands for differ. -/
inductive Message.Names (step : StepId) : Message → Prop where
  | unresolved {f : Fault} (cause : f.cause.isUnresolved = true)
      (named : f.step = some step.text) : Names step f.toMessage
  | mismatch (label : Option Text) (target : StepId) (span : Span) :
      Names step (formulaMismatch label step target span)

/-- The message is about a local reference in one of the statements, and has the span of its lead. -/
def Message.IsAboutReference (ss : List Statement) (m : Message) : Prop :=
  ∃ s ∈ ss, ∃ d, s.content = .derivation d ∧ m.Names d.id ∧
    m.span = some (Resolution.leadSpan s)

theorem Resolution.MismatchIn.isAboutReference {ss : List Statement} {m : Message}
    (h : MismatchIn ss m) : m.IsAboutReference ss := by
  obtain ⟨s, hs, label, d, target, hd, rfl⟩ := h
  exact ⟨s, hs, d, hd, .mismatch label target _, rfl⟩

theorem Note.code_not_mem_localRefCodes (n : Note) : n.code ∉ localRefCodes := by
  cases n <;> simp [Note.code, localRefCodes]

theorem Cause.code_not_mem_localRefCodes {c : Cause} (h : c.isUnresolved = false) :
    c.code ∉ localRefCodes := by
  cases c with
  | localRefNotFound target | chainedLocalRef target => cases h
  | _ => simp [Cause.code, localRefCodes]

theorem Message.IsNoteOn.code_not_mem {ts : List Token} {m : Message} (h : m.IsNoteOn ts) :
    m.code ∉ localRefCodes := by
  obtain ⟨n, label, t, -, rfl⟩ := h
  exact n.code_not_mem_localRefCodes

namespace Worksheet

variable {db : Database} {st : Settings} {request : Request} {text : Text} {m : Message}
  {ws read chosen : Worksheet}

/-! ## Where the messages come from -/

/-- A message about a local reference comes before the fault that ends a load, unless the fault is
one. -/
theorem mem_messages_of_breakBy {f : Fault} (hm : m ∈ (ws.breakBy f).messages)
    (hcode : m.code ∈ localRefCodes) (hcause : f.cause.isUnresolved = false) : m ∈ ws.messages := by
  rw [breakBy, List.mem_append, List.mem_singleton] at hm
  rcases hm with hm | rfl
  · exact hm
  · exact absurd hcode (Cause.code_not_mem_localRefCodes hcause)

/-- Reading makes no messages about local references. -/
theorem code_not_mem_readText
    (hread : readText db st { cursor := { caret := request.caret } } text = .ok read)
    (hm : m ∈ read.messages) : m.code ∉ localRefCodes := by
  have reported := reports_readText db st { cursor := { caret := request.caret } } text
  rw [hread] at reported
  obtain ⟨notes, hmessages, hall⟩ := reported
  rw [hmessages] at hm
  exact (hall m hm).code_not_mem

/-- Once the local references are resolved, there may be messages about them. -/
theorem isAboutReference_resolved {selecting : Bool}
    (hread : readText db st { cursor := { caret := request.caret } } text = .ok read)
    (hselect : (if selecting then read.selectStep else .ok read) = .ok chosen)
    (hresolve : chosen.resolveLocalRefs = .ok ws) (hm : m ∈ ws.messages)
    (hcode : m.code ∈ localRefCodes) : m.IsAboutReference read.statements := by
  obtain ⟨selected, rfl⟩ := selecting_ok hselect
  obtain ⟨-, ms, hms, hmismatch⟩ := (reports_resolveLocalRefs _).1 ws hresolve
  rw [hms] at hm
  rcases List.mem_append.mp hm with hm | hm
  · exact absurd hcode (code_not_mem_readText hread hm)
  · exact (hmismatch m hm).isAboutReference

/-- A message about a local reference is made by the pass over the statements that were read. -/
theorem isAboutReference_load (hm : m ∈ (load db st request text).messages)
    (hcode : m.code ∈ localRefCodes) :
    ∃ read, readText db st { cursor := { caret := request.caret } } text = .ok read ∧
      m.IsAboutReference read.statements := by
  have loads := loads_load db st request text
  generalize load db st request text = ws at hm loads
  cases loads with
  | unread fault =>
      have reported := reports_readText db st { cursor := { caret := request.caret } } text
      rw [fault] at reported
      obtain ⟨hfault, notes, hmessages, hall⟩ := reported
      have hmem := mem_messages_of_breakBy hm hcode (Cause.isUnresolved_of_isRead hfault.cause)
      rw [hmessages] at hmem
      exact absurd hcode (hall m hmem).code_not_mem
  | unselected reading _ fault =>
      obtain ⟨hsheet, hcause⟩ := selectStep_error fault
      have hmem := mem_messages_of_breakBy hm hcode (by rw [hcause]; rfl)
      rw [hsheet] at hmem
      exact absurd hcode (code_not_mem_readText reading hmem)
  | unresolved reading selecting fault =>
      obtain ⟨selected, rfl⟩ := selecting_ok selecting
      obtain ⟨hmessages, s, hs, d, cause, hd, hcause, hfault⟩ :=
        (reports_resolveLocalRefs _).2 _ fault
      refine ⟨_, reading, ?_⟩
      rw [breakBy, List.mem_append, List.mem_singleton] at hm
      rcases hm with hm | rfl
      · rw [hmessages] at hm
        exact absurd hcode (code_not_mem_readText reading hm)
      · rw [hfault]
        exact ⟨s, hs, d, hd, .unresolved hcause rfl, rfl⟩
  | miscounted reading selecting resolving fault =>
      obtain ⟨hsheet, expected, found, hcause⟩ := checkHypothesisCount_error fault
      have hmem := mem_messages_of_breakBy hm hcode (by rw [hcause]; rfl)
      rw [hsheet] at hmem
      exact ⟨_, reading, isAboutReference_resolved reading selecting resolving hmem hcode⟩
  | @settled _ _ ws reading selecting resolving =>
      obtain ⟨c, hcursor⟩ := placeCursor_eq st.caretPlacement ws.indexDistinctVars.measureLevels
      rw [hcursor] at hm
      exact ⟨_, reading, isAboutReference_resolved reading selecting resolving hm hcode⟩

/-! ## The spans -/

/-- Every statement that is read begins with a token in the first column. -/
theorem exists_opening
    (hread : readText db st { cursor := { caret := request.caret } } text = .ok read) :
    ∀ s ∈ read.statements, ∃ t ∈ tokens text,
      t.startsStatement = true ∧ t.text = s.lead ∧ t.start = s.start := by
  refine keeps_readText (I := fun ws => ∀ s ∈ ws.statements, ∃ t ∈ tokens text,
    t.startsStatement = true ∧ t.text = s.lead ∧ t.start = s.start) hread ?_ ?_
  · exact fun s hs => (by cases hs)
  · intro b hb c ws₁ ws₂ _ _ hadds opened s hs
    rw [hadds.2.statements, List.mem_append, List.mem_singleton] at hs
    rcases hs with hs | rfl
    · exact opened s hs
    · obtain ⟨hmem, hstarts⟩ := mem_blocksOf hb
      exact ⟨b.head, hmem, hstarts, rfl, rfl⟩

/-- A message about a local reference names a derivation step of the text, and its span begins with
the token that is the lead of that step, and is as long as the token is in bytes. So it is the span of
the token exactly if all characters of the token are ASCII characters. -/
theorem reference_span_iff (hm : m ∈ (load db st request text).messages)
    (hcode : m.code ∈ localRefCodes) :
    ∃ source, IsSource db text source ∧ WrittenIn text source ∧
      (source.filterMap Statement.stepId?).Nodup ∧
      ∃ s ∈ source, ∃ d, s.content = .derivation d ∧ m.Names d.id ∧
        ∃ t ∈ tokens text, t.startsStatement = true ∧ t.text = s.lead ∧ t.start = s.start ∧
          m.span = some ⟨t.start, t.start + utf8Length t.text⟩ ∧
          (m.span = some t.span ↔ ∀ c ∈ t.text, c.toNat < 128) := by
  obtain ⟨read, hread, s, hs, d, hd, names, hspan⟩ := isAboutReference_load hm hcode
  obtain ⟨hsource, written⟩ := source_readText rfl hread
  obtain ⟨nodup, -⟩ := numbered_readText rfl rfl hread
  obtain ⟨t, ht, hstarts, htext, hstart⟩ := exists_opening hread s hs
  rw [Resolution.leadSpan, ← htext, ← hstart] at hspan
  refine ⟨read.statements, hsource, written, nodup, s, hs, d, hd, names, t, ht, hstarts, htext,
    hstart, hspan, ?_⟩
  have hstop : t.span = ⟨t.start, t.start + t.text.length⟩ := rfl
  rw [hspan, hstop, ← utf8Length_eq_length_iff]
  simp

/-- A worksheet with a local reference in a step whose lead has a character of two bytes. -/
def accentedText : Text :=
  "$( <MM> <PROOF_ASST> THEOREM=t LOC_AFTER=?\nqed:#é:ax |- q\n$)\n".toList

theorem accentedText_reports :
    ∃ m ∈ (load .empty {} {} accentedText).messages, m.code ∈ localRefCodes := by
  decide +kernel

theorem reference_span_iff_accentedText :
    ∃ m ∈ (load .empty {} {} accentedText).messages, m.code ∈ localRefCodes ∧
      ∃ source, IsSource .empty accentedText source ∧ WrittenIn accentedText source ∧
        (source.filterMap Statement.stepId?).Nodup ∧
        ∃ s ∈ source, ∃ d, s.content = .derivation d ∧ m.Names d.id ∧
          ∃ t ∈ tokens accentedText,
            t.startsStatement = true ∧ t.text = s.lead ∧ t.start = s.start ∧
            m.span = some ⟨t.start, t.start + utf8Length t.text⟩ ∧
            (m.span = some t.span ↔ ∀ c ∈ t.text, c.toNat < 128) := by
  obtain ⟨m, hm, hcode⟩ := accentedText_reports
  exact ⟨m, hm, hcode, reference_span_iff hm hcode⟩

/-- The span is longer than the lead, and is that of no token. -/
theorem accentedText_overruns :
    ∃ m ∈ (load .empty {} {} accentedText).messages, m.code ∈ localRefCodes ∧
      ∀ t ∈ tokens accentedText, m.span ≠ some t.span := by
  decide +kernel

end Worksheet

end ProofSheet
