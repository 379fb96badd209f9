import ProofSheet.Proofs.CursorBinding
import ProofSheet.Proofs.FailedReferences
import ProofSheet.Proofs.Underlines

set_option autoImplicit false

/-! # Where the cursor is after a load that breaks

The cursor is located by the offset at which its statement is held to begin. A load lays the
statements out anew once the local references are resolved, and from then on these are offsets in the
output (`Worksheet.LaidAnew`). A load that breaks before that leaves them offsets in the text that
was loaded, which may have separators in front of the first token, while the output never does. So
then the location is too far ahead by these separators (`Worksheet.cursorLocation_iff`).

In both cases the statements run on without a gap from some offset, and the bound statement is one of
them (`Worksheet.BoundFrom`). This is shown for a text as far as it is read, and for each stage at
which a load can end.
-/

namespace ProofSheet

theorem Statement.isHypothesis_mapDerivation (f : Derivation → Derivation) (s : Statement) :
    (s.mapDerivation f).isHypothesis = s.isHypothesis := by
  rw [Statement.isHypothesis_eq, Statement.isHypothesis_eq, Statement.mapDerivation]
  cases s.content <;> rfl

namespace Worksheet

variable {ws ws' ws₁ : Worksheet} {db : Database} {st : Settings} {o : Nat} {b : Block} {last : Bool}
  {stop : Stop}

theorem BoundFrom.congr (h : ws.BoundFrom o) (hstatements : ws'.statements = ws.statements)
    (hcursor : ws'.cursor = ws.cursor) : ws'.BoundFrom o := by
  have hids : ws'.ids = ws.ids := by rw [ids, hstatements, ids]
  refine ⟨hstatements ▸ h.run, hids ▸ h.nodup, h.holds.congr hcursor hids, ?_⟩
  rw [hstatements]
  exact h.worded

/-- A place in the output is the location of the cursor exactly if it is the offset. -/
theorem CursorAt.iff {n k : Nat} (h : ws.CursorAt n) : ws.CursorAt k ↔ k = n := by
  constructor
  · intro h'
    exact (Prod.mk.inj (Option.some.inj (h'.symm.trans h))).1
  · rintro rfl
    exact h

/-! ## Reading

Where the reading of a statement stops, the cursor is as it was before. -/

theorem cursor_admitStep_error {t : Token} {field : Text}
    (h : ws.admitStep t field = .error stop) : stop.sheet.cursor = ws.cursor := by
  obtain ⟨cause, -, rfl⟩ := admitStep_error h
  rfl

theorem cursor_admitStep_ok {t : Token} {field : Text} {id : StepId}
    (h : ws.admitStep t field = .ok (id, ws')) : ws'.cursor = ws.cursor := by
  obtain ⟨-, -, -, rfl⟩ := admitStep_eq_ok.mp h
  rfl

theorem cursor_readHeader_error (h : ws.readHeader db b last = .error stop) :
    stop.sheet.cursor = ws.cursor := by
  grind [readHeader, stopAt]

theorem cursor_readFooter_error (h : ws.readFooter b last = .error stop) :
    stop.sheet.cursor = ws.cursor := by
  grind [readFooter, stopAt]

theorem cursor_readDistinctVars_error (h : ws.readDistinctVars b last = .error stop) :
    stop.sheet.cursor = ws.cursor := by
  grind [readDistinctVars, stopAt]

theorem cursor_readGeneratedProof_error (h : ws.readGeneratedProof b last = .error stop) :
    stop.sheet.cursor = ws.cursor := by
  grind [readGeneratedProof, stopAt]

theorem cursor_readHypothesis_error (h : ws.readHypothesis st b last = .error stop) :
    stop.sheet.cursor = ws.cursor := by
  grind [readHypothesis, stopAt, stopAtStep, cursor_admitStep_error, cursor_admitStep_ok]

theorem cursor_readDerivation_error (h : ws.readDerivation st b last = .error stop) :
    stop.sheet.cursor = ws.cursor := by
  unfold readDerivation at h
  split at h
  · cases h
    rfl
  cases hfield : ws.admitStep b.head _ with
  | error stop' =>
      rw [hfield] at h
      cases h
      exact cursor_admitStep_error hfield
  | ok admitted =>
      obtain ⟨id, ws₁⟩ := admitted
      have kept := cursor_admitStep_ok hfield
      simp only [hfield] at h
      grind [stopAtStep]

theorem cursor_readBlock_error (h : ws.readBlock db st b last = .error stop) :
    stop.sheet.cursor = ws.cursor := by
  grind [readBlock, readComment, stopAt, cursor_readHeader_error, cursor_readFooter_error,
    cursor_readDistinctVars_error, cursor_readGeneratedProof_error, cursor_readHypothesis_error,
    cursor_readDerivation_error]

/-- A statement that is offered to the cursor is the only one to which it can become bound. -/
theorem statement?_meetCaret {s : Statement} {id : StatementId}
    (h : (ws.meetCaret s last).statement? = some id) :
    ws.cursor.statement? = some id ∨ id = s.id := by
  unfold meetCaret at h
  split at h
  · exact Or.inl h
  split at h
  · cases htarget : ws.cursor.target with
    | none =>
        rw [Cursor.statement?, Cursor.offer_of_unset htarget] at h
        exact Or.inr (Option.some.inj h).symm
    | some target =>
        rw [Cursor.offer_of_set (by rw [Cursor.isSet, htarget]; rfl)] at h
        exact Or.inl h
  · exact Or.inl h

/-- A statement that is read runs on from those before it. -/
theorem BoundFrom.read {p : Place} {chunk : Chunk} {c : Content} (h : ws.BoundFrom o)
    (below : ∀ id ∈ ws.ids, id < ws.nextId) (hp : p.offset = o + ws.output.length)
    (hlead : chunk.lead ≠ []) (hextends : ws.Extends ((chunk.block p).toStatement ws.nextId c) ws₁)
    (offered : ws.Offers last (.ok ws₁)) :
    ws₁.BoundFrom o ∧ (∀ id ∈ ws₁.ids, id < ws₁.nextId) ∧
      (p.after chunk.text).offset = o + ws₁.output.length := by
  obtain ⟨hcursor, -⟩ := Offers.extends offered hextends
  obtain ⟨nodup, below₁⟩ := hextends.fresh rfl h.nodup below
  have hadded := hextends.statements
  have htext := text_toStatement chunk p ws.nextId c
  have hstart : ((chunk.block p).toStatement ws.nextId c).start = p.offset := rfl
  generalize (chunk.block p).toStatement ws.nextId c = s at hextends hadded hcursor htext hstart
  refine ⟨⟨?_, nodup, ?_, ?_⟩, below₁, ?_⟩
  · rw [hadded]
    exact h.run.concat (hstart.trans hp)
  · intro id hbound
    rw [hcursor] at hbound
    rw [hextends.ids, List.mem_append, List.mem_singleton]
    exact (statement?_meetCaret hbound).imp_left (h.holds id)
  · rw [hadded]
    intro t ht hhyp
    rcases List.mem_append.mp ht with ht | ht
    · exact h.worded t ht hhyp
    · rw [List.mem_singleton.mp ht, htext]
      exact List.append_ne_nil_of_left_ne_nil hlead _
  · rw [Place.offset_after, output, hadded, List.flatMap_append, List.length_append,
      List.flatMap_singleton, htext, hp, output, Nat.add_assoc]

/-- Statements that are read run on from the offset where the first of them begins, as far as the
reading comes. -/
theorem boundFrom_readBlocks {p : Place} {cs : List Chunk} (h : ws.BoundFrom o)
    (below : ∀ id ∈ ws.ids, id < ws.nextId) (hp : p.offset = o + ws.output.length)
    (laid : LaidOut cs) : (ofReading (ws.readBlocks db st (blocksFrom p cs))).BoundFrom o := by
  induction cs generalizing ws p with
  | nil => exact h.congr rfl rfl
  | cons chunk rest ih =>
      rw [blocksFrom, readBlocks]
      cases hread : ws.readBlock db st (chunk.block p)
          (blocksFrom (p.after chunk.text) rest).isEmpty with
      | error stop =>
          have reported := reports_readBlock db st ws (chunk.block p)
            (blocksFrom (p.after chunk.text) rest).isEmpty
          rw [hread] at reported
          exact h.congr reported.2.2 (cursor_readBlock_error hread)
      | ok ws₁ =>
          obtain ⟨c, -, -, hextends⟩ := readBlock_ok hread
          have offered := offers_readBlock db st ws (chunk.block p)
            (blocksFrom (p.after chunk.text) rest).isEmpty
          rw [hread] at offered
          obtain ⟨h₁, below₁, hp₁⟩ := h.read below hp laid.1.lead_ne hextends offered
          dsimp only
          split
          · split
            · exact h₁
            · exact h₁.congr rfl rfl
          · exact ih h₁ below₁ hp₁ laid.2.2

/-- The statements of a text run on from its first token, as far as the reading comes. -/
theorem boundFrom_readText (db : Database) (st : Settings) (caret : Option Nat) (text : Text) :
    (ofReading (readText db st { cursor := { caret := caret } } text)).BoundFrom
      (text.takeWhile isSeparator).length := by
  have start : BoundFrom { cursor := { caret := caret } } (text.takeWhile isSeparator).length :=
    ⟨trivial, List.nodup_nil, fun id hid => (by cases hid), fun s hs => (by cases hs)⟩
  unfold readText
  split
  · exact start.congr rfl rfl
  next first rest htokens =>
  split
  · exact start.congr rfl rfl
  next hstarts =>
  split
  · exact start.congr rfl rfl
  obtain ⟨cs, laid, -, hblocks⟩ := exists_chunks htokens (by simpa using hstarts)
  rw [blocksOf, htokens] at hblocks
  rw [hblocks]
  refine boundFrom_readBlocks start (fun id hid => (by cases hid)) ?_ laid
  rw [Place.offset_after]
  exact Nat.add_comm _ _

/-! ## Resolving local references -/

/-- Statements run on as before if nothing but their hypothesis lists has changed. -/
theorem BoundFrom.alike (h : ws.BoundFrom o) (hcursor : ws'.cursor = ws.cursor)
    (alike : List.Forall₂ (fun s s' => ∃ hyps, s' = s.mapDerivation (·.citing hyps))
      ws.statements ws'.statements) : ws'.BoundFrom o := by
  have hids : ws'.ids = ws.ids := map_eq_of_forall₂ alike fun s s' ⟨hyps, hs'⟩ => by rw [hs']; rfl
  refine ⟨h.run.congr (alike.imp fun s s' ⟨hyps, hs'⟩ => ?_), hids ▸ h.nodup,
    h.holds.congr hcursor hids, fun s' hs' hhyp => ?_⟩
  · rw [hs']
    exact ⟨rfl, rfl⟩
  · obtain ⟨s, hs, hyps, rfl⟩ := exists_mem_of_forall₂ alike hs'
    rw [Statement.isHypothesis_mapDerivation] at hhyp
    exact h.worded s hs hhyp

/-- Resolving local references lays the statements out from the front of the output. -/
theorem BoundFrom.resolve (h : ws.BoundFrom o) (hresolve : ws.resolveLocalRefs = .ok ws') :
    ws'.BoundFrom 0 := by
  obtain ⟨kept, r, passes, keeps⟩ := resolveLocalRefs_ok hresolve h.nodup
  refine ⟨?_, ?_, h.holds.resolve h.nodup hresolve, ?_⟩
  · rw [keeps.statements]
    exact runFrom_respanFrom 0 0 kept
  · rw [keeps.ids]
    exact h.nodup.sublist passes.ids_sublist
  · intro s' hs' hhyp
    have hmem : (s'.isHypothesis, s'.text) ∈ ws'.statements.map fun s => (s.isHypothesis, s.text) :=
      List.mem_map_of_mem hs'
    rw [keeps.statements,
      map_respanFrom (fun s => (s.isHypothesis, s.text)) (fun _ _ _ => rfl)] at hmem
    obtain ⟨k, hk, hpair⟩ := List.mem_map.mp hmem
    obtain ⟨hkhyp, hktext⟩ := Prod.mk.inj hpair
    rw [← hktext]
    obtain ⟨s, hs, -, rfl | ⟨d, hyps, hd, -, rfl⟩⟩ := passes.mem hk
    · exact h.worded k hs (hkhyp.trans hhyp)
    · rw [Statement.isHypothesis_eq, Statement.citing_content hd, hhyp] at hkhyp
      cases hkhyp

/-! ## Loading -/

/-- The load came at least as far as laying the statements out anew: it is clean, or it broke at the
number of hypotheses. -/
def LaidAnew (ws : Worksheet) : Prop :=
  ws.broken = true → ∃ m ∈ ws.messages.getLast?, m.code = countCode

theorem laidAnew_breakBy {f : Fault} :
    (ws.breakBy f).LaidAnew ↔ ∃ expected found, f.cause = .hypCountMismatch expected found := by
  have hcode : (ws.breakBy f).LaidAnew ↔ f.cause.code = countCode := by
    rw [LaidAnew, breakBy]
    simp [Fault.toMessage]
  rw [hcode]
  constructor
  · intro heq
    by_contra hother
    exact Cause.code_ne_countCode (fun expected found h => hother ⟨expected, found, h⟩) heq
  · rintro ⟨expected, found, heq⟩
    rw [heq]
    rfl

/-- The statements of a load run on from the front of the output if they are laid out anew, and else
from where the first of them begins in the text. -/
theorem boundFrom_cases (db : Database) (st : Settings) (request : Request) (text : Text) :
    (load db st request text).LaidAnew ∧ (load db st request text).BoundFrom 0 ∨
      ¬(load db st request text).LaidAnew ∧
        (load db st request text).BoundFrom (text.takeWhile isSeparator).length := by
  by_cases clean : (load db st request text).broken = false
  · obtain ⟨proved, shaped⟩ := shaped_load clean
    refine Or.inl ⟨fun broken => ?_, (holdsCursor_load clean).boundFrom (laid_load clean) shaped⟩
    rw [clean] at broken
    cases broken
  have reads := boundFrom_readText db st request.caret text
  have loads := loads_load db st request text
  generalize load db st request text = ws at clean loads ⊢
  cases loads with
  | unread fault =>
      have reported := reports_readText db st { cursor := { caret := request.caret } } text
      rw [fault] at reported reads
      refine Or.inr ⟨fun laid => ?_, reads⟩
      obtain ⟨expected, found, heq⟩ := laidAnew_breakBy.mp laid
      have hread := reported.1.cause
      rw [heq] at hread
      cases hread
  | unselected reading _ fault =>
      obtain ⟨hsheet, hcause⟩ := selectStep_error fault
      rw [reading] at reads
      rw [hsheet]
      refine Or.inr ⟨fun laid => ?_, reads.congr rfl rfl⟩
      obtain ⟨expected, found, heq⟩ := laidAnew_breakBy.mp laid
      cases hcause.symm.trans heq
  | unresolved reading selecting fault =>
      obtain ⟨selected, rfl⟩ := selecting_ok selecting
      obtain ⟨⟨met, stops⟩, hsheet⟩ := resolveLocalRefs_stops fault
      obtain ⟨-, s, -, d, cause, -, hcause, hfault⟩ := (reports_resolveLocalRefs _).2 _ fault
      rw [reading] at reads
      refine Or.inr ⟨fun laid => ?_, reads.alike (by rw [hsheet]; rfl) stops.alike⟩
      obtain ⟨expected, found, heq⟩ := laidAnew_breakBy.mp laid
      rw [hfault] at heq
      rw [show cause = _ from heq] at hcause
      cases hcause
  | miscounted reading selecting resolving fault =>
      obtain ⟨selected, rfl⟩ := selecting_ok selecting
      obtain ⟨hsheet, hcause⟩ := checkHypothesisCount_error fault
      rw [reading] at reads
      have chosen : BoundFrom { ofReading (.ok _) with selected := selected } _ :=
        reads.congr rfl rfl
      rw [hsheet]
      exact Or.inl ⟨laidAnew_breakBy.mpr hcause, (chosen.resolve resolving).congr rfl rfl⟩
  | settled reading selecting resolving =>
      exact absurd (broken_settled reading selecting resolving) clean

/-- The cursor of a load is located where its statement stands in the output exactly if the
statements were laid out anew, or no separators come before the first token, or the place is the end
of the output. If they were not laid out anew, it is located too far ahead by these separators, as
far as the output reaches. -/
theorem cursorLocation_iff {request : Request} {text : Text} {id : StatementId} {field : Field}
    (bound : (load db st request text).cursor.BoundTo id field) :
    (load db st request text).ids.Nodup ∧
      ∃ before s after, (load db st request text).statements = before ++ s :: after ∧ s.id = id ∧
        let offset := (before.flatMap Statement.text).length + s.fieldOffset field
        let outputLength := (load db st request text).output.length
        ((load db st request text).CursorAt offset ↔
          (load db st request text).LaidAnew ∨ BeginsWord text ∨ offset = outputLength) ∧
        (¬(load db st request text).LaidAnew → (load db st request text).CursorAt
          (min ((text.takeWhile isSeparator).length + offset) outputLength)) := by
  rcases boundFrom_cases db st request text with ⟨laid, run⟩ | ⟨unlaid, run⟩
  · obtain ⟨before, s, after, hss, hid, hle, located⟩ := run.cursorAt bound
    refine ⟨run.nodup, before, s, after, hss, hid, iff_of_true ?_ (Or.inl laid), absurd laid⟩
    rwa [Nat.zero_add, Nat.min_eq_left hle] at located
  · obtain ⟨before, s, after, hss, hid, hle, located⟩ := run.cursorAt bound
    refine ⟨run.nodup, before, s, after, hss, hid, ?_, fun _ => located⟩
    rw [located.iff, beginsWord_iff_takeWhile, ← List.length_eq_zero_iff]
    constructor
    · intro heq
      refine Or.inr ?_
      omega
    · rintro (laid | hfront | hend)
      · exact absurd laid unlaid
      · omega
      · omega

/-- A worksheet without a footer, below a blank line. -/
def unfinishedText : Text :=
  "\n$( <MM> <PROOF_ASST> THEOREM=t LOC_AFTER=?\nqed::ax |- p\n".toList

theorem unfinishedText_bound :
    (load .empty {} { caret := some 45 } unfinishedText).cursor.BoundTo 1 .step := by
  have htarget : (load .empty {} { caret := some 45 } unfinishedText).cursor.target =
      some (.statement 1 .step 1 0) := by
    decide +kernel
  exact Cursor.boundTo_of_target htarget

theorem cursorLocation_iff_unfinishedText :
    let ws := load .empty {} { caret := some 45 } unfinishedText
    ws.cursor.BoundTo 1 .step ∧ ws.ids.Nodup ∧
      ∃ before s after, ws.statements = before ++ s :: after ∧ s.id = 1 ∧
        let offset := (before.flatMap Statement.text).length + s.fieldOffset .step
        (ws.CursorAt offset ↔
          ws.LaidAnew ∨ BeginsWord unfinishedText ∨ offset = ws.output.length) ∧
        (¬ws.LaidAnew → ws.CursorAt
          (min ((unfinishedText.takeWhile isSeparator).length + offset) ws.output.length)) :=
  ⟨unfinishedText_bound, cursorLocation_iff unfinishedText_bound⟩

/-- Below the blank line, the cursor is not located where its step begins in the output. -/
theorem unfinishedText_ahead :
    let ws := load .empty {} { caret := some 45 } unfinishedText
    ws.cursor.BoundTo 1 .step ∧
      ∃ before s after, ws.statements = before ++ s :: after ∧ s.id = 1 ∧
        ¬ws.CursorAt ((before.flatMap Statement.text).length + s.fieldOffset .step) := by
  intro ws
  let s := ws.statements.getD 1 default
  obtain ⟨hss, hid, hlocation⟩ :
      ws.statements = ws.statements.take 1 ++ [s] ∧ s.id = 1 ∧
        ws.cursorLocation?.map Prod.fst ≠
          some (((ws.statements.take 1).flatMap Statement.text).length + s.fieldOffset .step) := by
    decide +kernel
  refine ⟨unfinishedText_bound, ws.statements.take 1, s, [], hss, hid, fun located => ?_⟩
  rw [CursorAt] at located
  rw [located] at hlocation
  exact hlocation rfl

end Worksheet

end ProofSheet
