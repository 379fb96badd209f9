import ProofSheet.Proofs.Reading
import ProofSheet.Proofs.Blocks

set_option autoImplicit false

/-! # What reading reports

While a text is read, notes are made about its tokens, and a fault is reported at one of them or,
if the end of the text comes too early, nowhere (`Worksheet.reports_readText`). There is one lemma
for each kind of statement, and all say the same (`Worksheet.Reports`): the messages that come up
are notes about tokens of the statement, and a statement at which the reading stops leaves the
worksheet without it.
-/

namespace ProofSheet

/-- The characters of a token. -/
def Token.span (t : Token) : Span := ⟨t.start, t.stop⟩

/-- The tokens of a block. -/
def Block.tokens (b : Block) : List Token := b.head :: b.body

theorem Block.head_mem (b : Block) : b.head ∈ b.tokens := List.mem_cons_self

theorem Block.body_subset (b : Block) : b.body ⊆ b.tokens := List.subset_cons_self _ _

theorem tokens_subset_of_mem_blocksOf {text : Text} {b : Block} (hb : b ∈ blocksOf text) :
    b.tokens ⊆ tokens text := by
  intro t ht
  rw [← group_tokens (tokens text), List.mem_append, List.mem_flatMap]
  exact Or.inr ⟨b, hb, ht⟩

/-- Reading finds the cause. The other causes come up when the worksheet is settled. -/
def Cause.isRead : Cause → Bool
  | .localRefNotFound _ | .chainedLocalRef _ | .hypCountMismatch _ _ | .caretNotOnStep
  | .internal _ => false
  | _ => true

/-- The message is a note about one of the tokens. -/
def Message.IsNoteOn (ts : List Token) (m : Message) : Prop :=
  ∃ (n : Note) (label : Option Text), ∃ t ∈ ts, m = n.toMessage label t.place.position t.span

/-- Reading finds the fault, and the span of the fault, if it has one, is that of a token. -/
structure Fault.IsOn (ts : List Token) (f : Fault) : Prop where
  cause : f.cause.isRead = true
  span : ∀ span, f.span = some span → ∃ t ∈ ts, span = t.span

theorem Fault.IsOn.mono {ts us : List Token} {f : Fault} (h : f.IsOn ts) (hsub : ts ⊆ us) :
    f.IsOn us := by
  refine ⟨h.cause, fun span hspan => ?_⟩
  obtain ⟨t, ht, hspan⟩ := h.span span hspan
  exact ⟨t, hsub ht, hspan⟩

/-! ## The parts of a statement -/

section Parts

variable {opening : Token} {ts fields body : List Token} {e : Token × Cause}

/-- A part of a statement is at fault at one of the tokens. -/
def FaultyAt (ts : List Token) (e : Token × Cause) : Prop := e.1 ∈ ts ∧ e.2.isRead = true

theorem takeField_error {α : Type} {expected : Text} {accept : Text → Option α}
    (hopening : opening ∈ ts) (hfields : fields ⊆ ts)
    (h : takeField opening expected accept fields = .error e) : FaultyAt ts e := by
  unfold takeField at h
  split at h
  · cases h
    exact ⟨hopening, rfl⟩
  · split at h
    · cases h
    · cases h
      exact ⟨hfields List.mem_cons_self, rfl⟩

theorem takeField_rest {α : Type} {expected : Text} {accept : Text → Option α} {a : α}
    {rest : List Token} (hfields : fields ⊆ ts)
    (h : takeField opening expected accept fields = .ok (a, rest)) : rest ⊆ ts := by
  obtain ⟨t, rfl, -⟩ := takeField_eq_ok.mp h
  exact fun x hx => hfields (List.mem_cons_of_mem _ hx)

theorem readTheoremFields_error (hopening : opening ∈ ts) (hfields : fields ⊆ ts)
    (h : readTheoremFields opening fields = .error e) : FaultyAt ts e := by
  obtain h₁ | ⟨⟨_, fields₁⟩, h₁, k₁⟩ := bind_eq_error h
  · exact takeField_error hopening hfields h₁
  have hfields₁ := takeField_rest hfields h₁
  obtain h₂ | ⟨⟨_, fields₂⟩, h₂, k₂⟩ := bind_eq_error k₁
  · exact takeField_error hopening hfields₁ h₂
  have hfields₂ := takeField_rest hfields₁ h₂
  obtain h₃ | ⟨⟨label, fields₃⟩, -, k₃⟩ := bind_eq_error k₂
  · exact takeField_error hopening hfields₂ h₃
  cases hlabel : givenLabel label with
  | some label' => simp [hlabel] at k₃
  | none =>
      simp only [hlabel, Except.error.injEq] at k₃
      rw [← k₃]
      exact ⟨hopening, rfl⟩

theorem readLocAfterField_error (hopening : opening ∈ ts) (hfields : fields ⊆ ts)
    (h : readLocAfterField opening fields = .error e) : FaultyAt ts e := by
  obtain h₁ | ⟨⟨label, extra⟩, h₁, k₁⟩ := bind_eq_error h
  · exact takeField_error hopening hfields h₁
  cases extra with
  | nil => cases k₁
  | cons t extra =>
      cases k₁
      exact ⟨takeField_rest hfields h₁ List.mem_cons_self, rfl⟩

theorem readProofBody_error (hopening : opening ∈ ts) (hbody : body ⊆ ts)
    (h : readProofBody opening body = .error e) : FaultyAt ts e := by
  unfold readProofBody at h
  split at h
  · cases h
  · split at h
    · cases h
    · split at h
      · cases h
        exact ⟨hbody List.mem_cons_self, rfl⟩
      · split at h
        · cases h
        · cases h
          exact ⟨hopening, rfl⟩

theorem readProof_error (hopening : opening ∈ ts) (hbody : body ⊆ ts)
    (h : readProof opening body = .error e) : FaultyAt ts e := by
  unfold readProof at h
  split at h
  · cases h
    exact ⟨hopening, rfl⟩
  · next first extra rest hdrop =>
      cases h
      have hmem : extra ∈ body.dropWhile (·.text ≠ Keyword.proofEnd) := by
        rw [hdrop]
        exact List.mem_cons_of_mem _ List.mem_cons_self
      exact ⟨hbody ((List.dropWhile_sublist _).subset hmem), rfl⟩
  · exact readProofBody_error hopening
      (fun t ht => hbody ((List.takeWhile_sublist _).subset ht)) h

theorem mem_of_firstRepeat? {seen : List Text} {t : Token} (h : firstRepeat? seen ts = some t) :
    t ∈ ts := by
  induction ts generalizing seen with
  | nil => cases h
  | cons t' rest ih =>
      rw [firstRepeat?] at h
      split at h
      · cases h
        exact List.mem_cons_self
      · exact List.mem_cons_of_mem _ (ih h)

theorem StepId.read_error {field : Text} {cause : Cause} (h : StepId.read field = .error cause) :
    cause.isRead = true := by
  unfold StepId.read at h
  dsimp only at h
  split at h
  · cases h
    rfl
  split at h
  · cases h
  split at h
  · split at h
    · cases h
    · cases h
      rfl
  · cases h
    rfl

theorem readCitation_error {known : List StepId} {entry : Text} {cause : Cause}
    (h : readCitation known entry = .error cause) : cause.isRead = true := by
  unfold readCitation at h
  split at h
  · cases h
  · cases h
  · cases h
    rfl
  · cases h
  · split at h
    · split at h
      · cases h
      · cases h
        rfl
    · cases h
      rfl

theorem readCitations_error {known : List StepId} {field : Text} {cause : Cause}
    (h : readCitations known field = .error cause) : cause.isRead = true := by
  unfold readCitations at h
  split at h
  · cases h
  · obtain ⟨entry, -, hentry⟩ := mapM_eq_error h
    exact readCitation_error hentry

theorem readReference_error {id : StepId} {field : Text} {cause : Cause}
    (h : readReference id field = .error cause) : cause.isRead = true := by
  unfold readReference at h
  split at h
  · cases h
    rfl
  · split at h
    · cases h
      rfl
    · cases h
  · cases h

end Parts

namespace Worksheet

variable {ws ws' ws'' : Worksheet} {ts us : List Token} {b : Block} {db : Database} {st : Settings}

/-! ## Notes -/

/-- Notes about the tokens are made, and no other messages. -/
def Notes (ts : List Token) (ws ws' : Worksheet) : Prop :=
  ∃ notes, ws'.messages = ws.messages ++ notes ∧ ∀ m ∈ notes, m.IsNoteOn ts

theorem Notes.refl (h : ws'.messages = ws.messages) : Notes ts ws ws' :=
  ⟨[], by rw [h, List.append_nil], fun m hm => (by cases hm)⟩

theorem Notes.trans (h : Notes ts ws ws') (h' : Notes ts ws' ws'') : Notes ts ws ws'' := by
  obtain ⟨notes, hmessages, hall⟩ := h
  obtain ⟨notes', hmessages', hall'⟩ := h'
  refine ⟨notes ++ notes', ?_, List.forall_mem_append.mpr ⟨hall, hall'⟩⟩
  rw [hmessages', hmessages, List.append_assoc]

theorem Notes.mono (h : Notes ts ws ws') (hsub : ts ⊆ us) : Notes us ws ws' := by
  obtain ⟨notes, hmessages, hall⟩ := h
  refine ⟨notes, hmessages, fun m hm => ?_⟩
  obtain ⟨n, label, t, ht, hm⟩ := hall m hm
  exact ⟨n, label, t, hsub ht, hm⟩

theorem notes_note {t : Token} (ht : t ∈ ts) (n : Note) : Notes ts ws (ws.note t n) :=
  ⟨[_], rfl, fun _ hm => ⟨n, ws.theoremLabel, t, ht, List.mem_singleton.mp hm⟩⟩

theorem notes_noteFormulaType (step : Text) {body : List Token} (hbody : body ⊆ ts) :
    Notes ts ws (ws.noteFormulaType st step body) := by
  unfold noteFormulaType
  split
  · exact .refl rfl
  · split
    · exact .refl rfl
    · exact notes_note (hbody List.mem_cons_self) _

theorem notes_noteHypothesis (ws : Worksheet) (b : Block) (step : Text) :
    Notes b.tokens ws
      (if b.body.isEmpty then
        (ws.noteFormulaType st step b.body).note b.head (.hypothesisWithoutFormula step)
      else ws.noteFormulaType st step b.body) := by
  have formula : Notes b.tokens ws (ws.noteFormulaType st step b.body) :=
    notes_noteFormulaType step b.body_subset
  split
  · exact formula.trans (notes_note b.head_mem _)
  · exact formula

/-! ## One statement -/

/-- What reading one statement reports: notes about the tokens and, if the reading stops, a fault at
one of them. A statement at which the reading stops is not added. -/
def Reports (ts : List Token) (ws : Worksheet) : Reading → Prop
  | .ok ws' => Notes ts ws ws'
  | .error stop =>
    stop.fault.IsOn ts ∧ stop.sheet.messages = ws.messages ∧
      stop.sheet.statements = ws.statements

theorem reports_stopAt {t : Token} {cause : Cause} (h : FaultyAt ts (t, cause))
    (messages : ws'.messages = ws.messages) (statements : ws'.statements = ws.statements) :
    Reports ts ws (.error (ws'.stopAt t cause)) :=
  ⟨⟨h.2, fun _ hspan => ⟨t, h.1, (Option.some.inj hspan).symm⟩⟩, messages, statements⟩

theorem reports_stopAtStep {t : Token} {step : Text} {cause : Cause} (ht : t ∈ ts)
    (hcause : cause.isRead = true) (messages : ws'.messages = ws.messages)
    (statements : ws'.statements = ws.statements) :
    Reports ts ws (.error (ws'.stopAtStep t step cause)) :=
  ⟨⟨hcause, fun _ hspan => ⟨t, ht, (Option.some.inj hspan).symm⟩⟩, messages, statements⟩

theorem admitStep_error {t : Token} {field : Text} {stop : Stop}
    (h : ws.admitStep t field = .error stop) :
    ∃ cause, cause.isRead = true ∧ stop = ws.stopAtStep t field cause := by
  unfold admitStep at h
  split at h
  · next hread =>
      cases h
      exact ⟨_, StepId.read_error hread, rfl⟩
  split at h
  · cases h
    exact ⟨_, rfl, rfl⟩
  split at h
  · cases h
    exact ⟨_, rfl, rfl⟩
  split at h
  · cases h
  · cases h

variable {last : Bool}

theorem reports_readHeader : Reports b.tokens ws (ws.readHeader db b last) := by
  have head := b.head_mem
  unfold readHeader
  split
  · exact reports_stopAt ⟨head, rfl⟩ rfl rfl
  split
  · next hfields =>
      exact reports_stopAt (readTheoremFields_error head b.body_subset hfields) rfl rfl
  next hfields =>
  obtain ⟨mm, pa, th, x, hbody, -⟩ := readTheoremFields_eq_ok.mp hfields
  have hrest : _ ⊆ b.tokens := fun t ht => b.body_subset (by
    rw [hbody]
    exact List.mem_cons_of_mem _ (List.mem_cons_of_mem _ (List.mem_cons_of_mem _ ht)))
  dsimp only
  split
  · next hlast => exact reports_stopAt (readLocAfterField_error head hrest hlast) rfl rfl
  next hlast =>
  obtain ⟨y, rfl, -⟩ := readLocAfterField_eq_ok.mp hlast
  have hfield := hrest List.mem_cons_self
  split
  · exact .refl rfl
  split
  · exact notes_note hfield _
  split
  · exact .refl rfl
  · exact reports_stopAt ⟨hfield, rfl⟩ rfl rfl

theorem reports_readFooter : Reports b.tokens ws (ws.readFooter b last) := by
  unfold readFooter
  split
  · exact reports_stopAt ⟨b.head_mem, rfl⟩ rfl rfl
  split
  · next hbody =>
      refine reports_stopAt ⟨b.body_subset ?_, rfl⟩ rfl rfl
      rw [hbody]
      exact List.mem_cons_self
  · exact .refl rfl

theorem reports_readDistinctVars : Reports b.tokens ws (ws.readDistinctVars b last) := by
  unfold readDistinctVars
  split
  · exact reports_stopAt ⟨b.head_mem, rfl⟩ rfl rfl
  split
  · next hrepeat =>
      exact reports_stopAt ⟨b.body_subset (mem_of_firstRepeat? hrepeat), rfl⟩ rfl rfl
  · exact .refl rfl

theorem reports_readGeneratedProof : Reports b.tokens ws (ws.readGeneratedProof b last) := by
  have head := b.head_mem
  unfold readGeneratedProof
  split
  · exact reports_stopAt ⟨head, rfl⟩ rfl rfl
  split
  · exact reports_stopAt ⟨head, rfl⟩ rfl rfl
  split
  · next hproof =>
      exact reports_stopAt (readProof_error head b.body_subset hproof) rfl rfl
  · exact .refl rfl

theorem reports_readHypothesis : Reports b.tokens ws (ws.readHypothesis st b last) := by
  have head := b.head_mem
  unfold readHypothesis
  split
  · exact reports_stopAt ⟨head, rfl⟩ rfl rfl
  split
  · exact reports_stopAtStep head rfl rfl rfl
  split
  · next hadmit =>
      obtain ⟨cause, hcause, rfl⟩ := admitStep_error hadmit
      exact reports_stopAtStep head hcause rfl rfl
  next hadmit =>
  obtain ⟨-, -, -, rfl⟩ := admitStep_eq_ok.mp hadmit
  split
  · exact reports_stopAtStep head rfl rfl rfl
  split
  · exact reports_stopAtStep head rfl rfl rfl
  split
  · exact reports_stopAtStep head rfl rfl rfl
  exact notes_noteHypothesis _ b _

theorem reports_readDerivation : Reports b.tokens ws (ws.readDerivation st b last) := by
  have head := b.head_mem
  unfold readDerivation
  split
  · exact reports_stopAt ⟨head, rfl⟩ rfl rfl
  split
  · next hadmit =>
      obtain ⟨cause, hcause, rfl⟩ := admitStep_error hadmit
      exact reports_stopAtStep head hcause rfl rfl
  next hadmit =>
  obtain ⟨-, -, -, rfl⟩ := admitStep_eq_ok.mp hadmit
  split
  · next hhyps => exact reports_stopAtStep head (readCitations_error hhyps) rfl rfl
  split
  · next href => exact reports_stopAtStep head (readReference_error href) rfl rfl
  · exact notes_noteFormulaType _ b.body_subset

/-- What reading a statement of any kind reports. -/
theorem reports_readBlock (db : Database) (st : Settings) (ws : Worksheet) (b : Block)
    (last : Bool) : Reports b.tokens ws (ws.readBlock db st b last) := by
  unfold readBlock
  dsimp only
  split
  · exact reports_readHeader
  split
  · exact reports_readFooter
  split
  · exact reports_readGeneratedProof
  split
  · exact reports_readDistinctVars
  split
  · exact .refl rfl
  split
  · exact reports_readHypothesis
  split
  · exact reports_readDerivation
  · exact reports_stopAt ⟨b.head_mem, rfl⟩ rfl rfl

/-! ## A text -/

/-- What reading statements reports: notes about the tokens and, if the reading stops, a fault at one
of them or at the end of the text. -/
def ReportsAll (ts : List Token) (ws : Worksheet) : Reading → Prop
  | .ok ws' => Notes ts ws ws'
  | .error stop => stop.fault.IsOn ts ∧ Notes ts ws stop.sheet

theorem reports_readBlocks {bs : List Block} (hbs : ∀ b ∈ bs, b.tokens ⊆ ts) :
    ReportsAll ts ws (ws.readBlocks db st bs) := by
  induction bs generalizing ws with
  | nil =>
      refine ⟨⟨?_, fun _ hspan => (by cases hspan)⟩, .refl rfl⟩
      dsimp only
      split
      · rfl
      · rfl
  | cons b rest ih =>
      obtain ⟨hb, hrest⟩ := List.forall_mem_cons.mp hbs
      have block := reports_readBlock db st ws b rest.isEmpty
      rw [readBlocks]
      cases hread : ws.readBlock db st b rest.isEmpty with
      | error stop =>
          rw [hread] at block
          exact ⟨block.1.mono hb, .refl block.2.1⟩
      | ok ws₁ =>
          rw [hread] at block
          have noted : Notes ts ws ws₁ := block.mono hb
          dsimp only
          split
          · split
            · exact noted
            · next extra _ =>
                have mem : extra.head ∈ ts :=
                  hrest extra List.mem_cons_self extra.head_mem
                exact ⟨⟨rfl, fun _ hspan => ⟨_, mem, (Option.some.inj hspan).symm⟩⟩, noted⟩
          · have later : ReportsAll ts ws₁ (ws₁.readBlocks db st rest) := ih hrest
            cases hlater : ws₁.readBlocks db st rest with
            | error stop =>
                rw [hlater] at later
                exact ⟨later.1, noted.trans later.2⟩
            | ok ws₂ =>
                rw [hlater] at later
                exact noted.trans later

/-- What reading a text reports. -/
theorem reports_readText (db : Database) (st : Settings) (ws : Worksheet) (text : Text) :
    ReportsAll (tokens text) ws (ws.readText db st text) := by
  unfold readText
  split
  · exact ⟨⟨rfl, fun _ hspan => (by cases hspan)⟩, .refl rfl⟩
  next first rest htokens =>
  have first_mem : first ∈ tokens text := by
    rw [htokens]
    exact List.mem_cons_self
  have stops : ∀ cause : Cause, cause.isRead = true →
      ReportsAll (tokens text) ws (.error (ws.stopAt first cause)) := fun cause hcause =>
    ⟨⟨hcause, fun _ hspan => ⟨first, first_mem, (Option.some.inj hspan).symm⟩⟩, .refl rfl⟩
  rw [← htokens]
  split
  · exact stops _ rfl
  split
  · exact stops _ rfl
  · exact reports_readBlocks fun b => tokens_subset_of_mem_blocksOf

end Worksheet

end ProofSheet
