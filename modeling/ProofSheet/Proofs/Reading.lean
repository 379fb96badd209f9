import ProofSheet.Proofs.Admission
import ProofSheet.Proofs.Saying

set_option autoImplicit false

/-! # What reading one statement does

A statement is read from the texts of its tokens alone, and whether it may stand where it does is
decided by what was read before. So for each kind of statement it is shown when it is read and
what the worksheet then gains. The main results of the file are that a block is read exactly if
it says something that is admitted (`Worksheet.readBlock_ok`, `Worksheet.exists_readBlock`).
-/

namespace ProofSheet

namespace Worksheet

variable {ws ws' : Worksheet} {b : Block} {last : Bool}

/-! ## Footers, distinct variables and generated proofs -/

theorem readFooter_eq_ok :
    ws.readFooter b last = .ok ws' ↔
      ws.qed.isSome = true ∧ b.body = [] ∧ ws' = ws.append b last .footer := by
  unfold readFooter
  cases ws.qed with
  | none => simp
  | some id =>
      cases b.body with
      | nil => simp [eq_comm]
      | cons extra rest => simp

theorem readDistinctVars_eq_ok :
    ws.readDistinctVars b last = .ok ws' ↔
      2 ≤ b.words.length ∧ b.words.Nodup ∧ ws' = ws.append b last (.distinctVars b.words) := by
  unfold readDistinctVars
  have hlen : b.words.length = b.body.length := List.length_map ..
  by_cases hfew : b.body.length < 2
  · rw [if_pos hfew]
    simp only [reduceCtorEq, false_iff]
    omega
  · rw [if_neg hfew]
    cases hrep : firstRepeat? [] b.body with
    | some t =>
        have hdup : ¬ b.words.Nodup := by
          intro hnodup
          have := firstRepeat?_eq_none.mpr ⟨fun _ _ => List.not_mem_nil, hnodup⟩
          rw [hrep] at this
          cases this
        simp [hdup]
    | none =>
        have hnodup : b.words.Nodup := (firstRepeat?_eq_none.mp hrep).2
        simp only [Except.ok.injEq, hnodup, true_and]
        constructor
        · rintro rfl
          exact ⟨by omega, rfl⟩
        · rintro ⟨-, rfl⟩
          rfl

theorem readGeneratedProof_eq_ok :
    ws.readGeneratedProof b last = .ok ws' ↔
      ws.qed.isSome = true ∧ ws.statements.any Statement.isProof = false ∧
        ∃ body, proofOf? b.words = some body ∧ ws' = ws.append b last (.proof body) := by
  unfold readGeneratedProof
  cases ws.qed with
  | none => simp
  | some id =>
      cases ws.statements.any Statement.isProof with
      | true => simp
      | false =>
          simp only [Option.isNone_some, Bool.false_eq_true, if_false, Option.isSome_some, true_and]
          rw [Block.words]
          cases hread : readProof b.head b.body with
          | error e =>
              have hno : proofOf? (b.body.map Token.text) = none := by
                cases hof : proofOf? (b.body.map Token.text) with
                | none => rfl
                | some body =>
                    rw [← readProof_eq_ok, hread] at hof
                    cases hof
              simp [hno]
          | ok body =>
              rw [readProof_eq_ok.mp hread]
              simp [eq_comm]

/-! ## Headers -/

theorem readHeader_ok {db : Database} (h : ws.readHeader db b last = .ok ws')
    (hhead : b.head.text = Keyword.header) :
    ∃ c, Says db b.head.text b.words b.tail c ∧ ws.Adds b c ws' := by
  unfold readHeader at h
  by_cases hany : ws.statements.any Statement.isHeader = true
  · rw [if_pos hany] at h
    cases h
  · rw [if_neg hany] at h
    have fresh : ws.statements.any Statement.isHeader = false := by simpa using hany
    cases hfields : readTheoremFields b.head b.body with
    | error e => simp [hfields] at h
    | ok fields =>
        obtain ⟨label, rest⟩ := fields
        obtain ⟨mm, pa, th, x, hbody, hmm, hpa, hth, hx⟩ := readTheoremFields_eq_ok.mp hfields
        simp only [hfields] at h
        cases hlast : readLocAfterField b.head rest with
        | error e => simp [hlast] at h
        | ok found =>
            obtain ⟨field, locAfter⟩ := found
            obtain ⟨y, rfl, hla, rfl⟩ := readLocAfterField_eq_ok.mp hlast
            have hwords : b.words =
                [Keyword.metamath, Keyword.proofAssistant, th.text, field.text] := by
              rw [Block.words, hbody]
              simp [hmm, hpa]
            simp only [hlast] at h
            refine ⟨.header ⟨label, givenLabel y⟩, ?_, fresh, ?_⟩
            · rw [hwords, hhead]
              refine .header hth hx hla ?_
              intro after hafter
              rw [hafter] at h
              by_cases hfound : (db.find? label).isSome = true
              · exact Or.inl hfound
              · by_cases hknows : db.knows after = true
                · exact Or.inr hknows
                · simp [hfound, hknows] at h
            · cases hy : givenLabel y with
              | none =>
                  simp only [hy, Except.ok.injEq] at h
                  subst h
                  exact ⟨rfl, rfl, rfl, rfl, (Nat.max_zero _).symm, rfl, rfl⟩
              | some after =>
                  simp only [hy] at h
                  split at h
                  · cases h
                    exact ⟨rfl, rfl, rfl, rfl, (Nat.max_zero _).symm, rfl, rfl⟩
                  · split at h
                    · cases h
                      exact ⟨rfl, rfl, rfl, rfl, (Nat.max_zero _).symm, rfl, rfl⟩
                    · cases h

theorem exists_readHeader {db : Database} {th la x y label : Text}
    (hwords : b.words = [Keyword.metamath, Keyword.proofAssistant, th, la])
    (hth : labelAfter? Keyword.theoremKey th = some x) (hx : givenLabel x = some label)
    (hla : labelAfter? Keyword.locAfterKey la = some y)
    (known : ∀ after, givenLabel y = some after →
      (db.find? label).isSome = true ∨ db.knows after = true)
    (hadm : ws.statements.any Statement.isHeader = false) :
    ∃ ws', ws.readHeader db b last = .ok ws' ∧
      ws.Extends (b.toStatement ws.nextId (.header ⟨label, givenLabel y⟩)) ws' := by
  obtain ⟨mm, pa, t, field, hbody, hmm, hpa, rfl, rfl⟩ :
      ∃ mm pa t field, b.body = [mm, pa, t, field] ∧ mm.text = Keyword.metamath ∧
        pa.text = Keyword.proofAssistant ∧ t.text = th ∧ field.text = la := by
    simpa [Block.words, List.map_eq_cons_iff, and_assoc] using hwords
  have hfields : readTheoremFields b.head b.body = .ok (label, [field]) :=
    readTheoremFields_eq_ok.mpr ⟨mm, pa, t, x, hbody, hmm, hpa, hth, hx⟩
  have hlast : readLocAfterField b.head [field] = .ok (field, givenLabel y) :=
    readLocAfterField_eq_ok.mpr ⟨y, rfl, hla, rfl⟩
  unfold readHeader
  rw [if_neg (by simpa using hadm)]
  simp only [hfields, hlast]
  cases hy : givenLabel y with
  | none => exact ⟨_, rfl, rfl, rfl, rfl, rfl, (Nat.max_zero _).symm, rfl, rfl⟩
  | some after =>
      dsimp only
      by_cases hfound : (db.find? label).isSome = true
      · rw [if_pos (by simpa using hfound)]
        exact ⟨_, rfl, rfl, rfl, rfl, rfl, (Nat.max_zero _).symm, rfl, rfl⟩
      · have hknows : db.knows after = true := (known after hy).resolve_left hfound
        rw [if_neg (by simpa using hfound), if_pos hknows]
        exact ⟨_, rfl, rfl, rfl, rfl, rfl, (Nat.max_zero _).symm, rfl, rfl⟩

/-! ## Steps -/

theorem admitStep_eq_ok {t : Token} {field : Text} {id : StepId} :
    ws.admitStep t field = .ok (id, ws') ↔
      StepId.read field = .ok id ∧ ws.qed = none ∧ id ∉ ws.stepIds ∧
        ws' = { ws with greatestStep := max ws.greatestStep id.value } := by
  unfold admitStep
  cases hread : StepId.read field with
  | error cause => simp
  | ok id' =>
      by_cases hqed : ws.qed.isSome = true
      · have hsome : ws.qed ≠ none := by
          intro hnone
          rw [hnone] at hqed
          cases hqed
        simp [hqed, hsome]
      · have hnone : ws.qed = none := by simpa using hqed
        by_cases hmem : id' ∈ ws.stepIds
        · simp only [hqed, Bool.false_eq_true, if_false, hmem, if_true, reduceCtorEq,
            Except.ok.injEq, false_iff]
          rintro ⟨rfl, -, hfresh, -⟩
          exact hfresh hmem
        · simp only [hqed, Bool.false_eq_true, if_false, hmem]
          cases id' with
          | number n =>
              simp only [Except.ok.injEq, Prod.mk.injEq]
              constructor
              · rintro ⟨rfl, rfl⟩
                exact ⟨rfl, hnone, hmem, rfl⟩
              · rintro ⟨rfl, -, -, rfl⟩
                exact ⟨rfl, rfl⟩
          | qed =>
              have same : ws = { ws with greatestStep := max ws.greatestStep StepId.qed.value } := by
                rw [StepId.value, Nat.max_zero]
              simp only [Except.ok.injEq, Prod.mk.injEq]
              constructor
              · rintro ⟨rfl, rfl⟩
                exact ⟨rfl, hnone, hmem, same⟩
              · rintro ⟨rfl, -, -, rfl⟩
                exact ⟨rfl, same⟩

theorem noteFormulaType_eq (st : Settings) (ws : Worksheet) (step : Text) (body : List Token) :
    ∃ ms, ws.noteFormulaType st step body = { ws with messages := ms } := by
  unfold noteFormulaType
  cases body with
  | nil => exact ⟨ws.messages, rfl⟩
  | cons t body =>
      by_cases ht : t.text = st.provableType
      · exact ⟨ws.messages, if_pos ht⟩
      · exact ⟨_, if_neg ht⟩

theorem noteHypothesis_eq (st : Settings) (ws : Worksheet) (b : Block) (step : Text) :
    ∃ ms,
      (if b.body.isEmpty then
        (ws.noteFormulaType st step b.body).note b.head (.hypothesisWithoutFormula step)
      else ws.noteFormulaType st step b.body) = { ws with messages := ms } := by
  obtain ⟨ms, hms⟩ := noteFormulaType_eq st ws step b.body
  rw [hms]
  by_cases hempty : b.body.isEmpty = true
  · exact ⟨_, if_pos hempty⟩
  · exact ⟨ms, if_neg hempty⟩

theorem extends_hypothesis {ms : List Message} (s : Step) (not_qed : s.id ≠ .qed) :
    ws.Extends (b.toStatement ws.nextId (.hypothesis s))
      (append
        { ws with
          greatestStep := max ws.greatestStep s.id.value
          messages := ms
          hypothesisCount := ws.hypothesisCount + 1 } b last (.hypothesis s)) :=
  ⟨rfl, rfl, rfl, rfl, rfl, (if_neg fun heq => not_qed (Option.some.inj heq)).symm, rfl⟩

theorem readHypothesis_ok {db : Database} {st : Settings} {letter : Char} {fields : Text}
    (h : ws.readHypothesis st b last = .ok ws') (hhead : b.head.text = letter :: fields)
    (hletter : letter = 'h' ∨ letter = 'H') :
    ∃ c, Says db b.head.text b.words b.tail c ∧ ws.Adds b c ws' := by
  unfold readHypothesis at h
  rw [hhead, List.drop_one, List.tail_cons] at h
  cases hf : StepFields.ofHypothesis? fields with
  | none => simp [hf] at h
  | some f =>
      simp only [hf] at h
      by_cases hqed : sameLetters (trim f.step) StepId.qedName = true
      · rw [if_pos hqed] at h
        cases h
      · rw [if_neg hqed] at h
        cases hadm : ws.admitStep b.head f.step with
        | error stop => simp [hadm] at h
        | ok admitted =>
            obtain ⟨id, ws₁⟩ := admitted
            obtain ⟨hid, hopen, hfresh, rfl⟩ := admitStep_eq_ok.mp hadm
            simp only [hadm] at h
            by_cases hder : ws.statements.any (·.derivation?.isSome) = true
            · rw [if_pos hder] at h
              cases h
            · rw [if_neg hder] at h
              by_cases hhyps : trim f.hyps = []
              · rw [if_neg (not_not.mpr hhyps)] at h
                by_cases hlocal : f.ref.head? = some '#'
                · rw [if_pos hlocal] at h
                  cases h
                · rw [if_neg hlocal] at h
                  have not_qed : id ≠ .qed := fun heq => hqed ((StepId.read_eq_qed hid).mp heq)
                  refine ⟨.hypothesis (hypothesisOf id f.ref b.words), ?_,
                    ⟨hopen, hfresh, by simpa using hder⟩, ?_⟩
                  · rw [hhead]
                    exact .hypothesis hletter hf hid not_qed hhyps hlocal
                  · obtain ⟨ms, hms⟩ := noteHypothesis_eq st
                      { ws with greatestStep := max ws.greatestStep id.value } b f.step
                    rw [hms, formulaOf_eq] at h
                    rw [← Except.ok.inj h]
                    exact extends_hypothesis _ not_qed
              · rw [if_pos hhyps] at h
                cases h

theorem exists_readHypothesis (st : Settings) (last : Bool) {letter : Char} {fields : Text}
    {f : StepFields} {id : StepId} (hhead : b.head.text = letter :: fields)
    (hf : StepFields.ofHypothesis? fields = some f) (hid : StepId.read f.step = .ok id)
    (not_qed : id ≠ .qed) (no_hyps : trim f.hyps = []) (not_local : f.ref.head? ≠ some '#')
    (hopen : ws.qed = none) (hfresh : id ∉ ws.stepIds)
    (hder : ws.statements.any (·.derivation?.isSome) = false) :
    ∃ ws', ws.readHypothesis st b last = .ok ws' ∧
      ws.Extends (b.toStatement ws.nextId (.hypothesis (hypothesisOf id f.ref b.words))) ws' := by
  have hadm : ws.admitStep b.head f.step =
      .ok (id, { ws with greatestStep := max ws.greatestStep id.value }) :=
    admitStep_eq_ok.mpr ⟨hid, hopen, hfresh, rfl⟩
  have hname : ¬ sameLetters (trim f.step) StepId.qedName = true :=
    fun heq => not_qed ((StepId.read_eq_qed hid).mpr heq)
  obtain ⟨ms, hms⟩ := noteHypothesis_eq st
    { ws with greatestStep := max ws.greatestStep id.value } b f.step
  unfold readHypothesis
  rw [hhead, List.drop_one, List.tail_cons]
  simp only [hf, hadm]
  rw [if_neg hname, if_neg (by simpa using hder), if_neg (not_not.mpr no_hyps), if_neg not_local,
    hms, formulaOf_eq]
  exact ⟨_, rfl, extends_hypothesis _ not_qed⟩

theorem extends_derivation {ms : List Message} (d : Derivation) :
    ws.Extends (b.toStatement ws.nextId (.derivation d))
      { append { ws with greatestStep := max ws.greatestStep d.id.value, messages := ms } b last
          (.derivation d) with
        qed := if d.id.isQed then some ws.nextId else ws.qed } := by
  refine ⟨rfl, rfl, rfl, rfl, rfl, ?_, rfl⟩
  show (if d.id.isQed then some ws.nextId else ws.qed) =
    if some d.id = some .qed then some ws.nextId else ws.qed
  simp [StepId.isQed]

theorem readDerivation_ok {st : Settings} {db : Database}
    (h : ws.readDerivation st b last = .ok ws') (hlead : leadsDerivation b.head.text) :
    ∃ c, Says db b.head.text b.words b.tail c ∧ ws.Adds b c ws' := by
  unfold readDerivation at h
  cases hf : StepFields.ofDerivation? b.head.text with
  | none => simp [hf] at h
  | some f =>
      simp only [hf] at h
      cases hadm : ws.admitStep b.head f.step with
      | error stop => simp [hadm] at h
      | ok admitted =>
          obtain ⟨id, ws₁⟩ := admitted
          obtain ⟨hid, hopen, hfresh, rfl⟩ := admitStep_eq_ok.mp hadm
          obtain ⟨ms, hms⟩ := noteFormulaType_eq st
            { ws with greatestStep := max ws.greatestStep id.value } f.step b.body
          simp only [hadm, stepIds] at h
          rw [← stepIds] at h
          cases hhyps : readCitations ws.stepIds f.hyps with
          | error cause => simp [hhyps] at h
          | ok hyps =>
              simp only [hhyps] at h
              cases href : readReference id f.ref with
              | error cause => simp [href] at h
              | ok reference =>
                  simp only [href] at h
                  rw [hms, formulaOf_eq] at h
                  rw [← Except.ok.inj h]
                  refine ⟨.derivation (derivationOf id b.words hyps reference),
                    .derivation hlead hf hid hhyps href, ⟨hopen, hfresh, ?_⟩,
                    extends_derivation _⟩
                  intro cited hcited
                  exact (readCitations_eq_ok hhyps ws.stepIds).1 cited (mem_cited.mp hcited)

theorem exists_readDerivation {st : Settings} {f : StepFields} {id : StepId}
    {known : List StepId} {hyps : List Citation} {reference : Option Text × Option Text}
    (hf : StepFields.ofDerivation? b.head.text = some f) (hid : StepId.read f.step = .ok id)
    (hhyps : readCitations known f.hyps = .ok hyps)
    (href : readReference id f.ref = .ok reference) (hopen : ws.qed = none)
    (hfresh : id ∉ ws.stepIds) (cited : ∀ id, .step id ∈ hyps → id ∈ ws.stepIds) :
    ∃ ws', ws.readDerivation st b last = .ok ws' ∧
      ws.Extends (b.toStatement ws.nextId (.derivation (derivationOf id b.words hyps reference)))
        ws' := by
  have hadm : ws.admitStep b.head f.step =
      .ok (id, { ws with greatestStep := max ws.greatestStep id.value }) :=
    admitStep_eq_ok.mpr ⟨hid, hopen, hfresh, rfl⟩
  obtain ⟨ms, hms⟩ := noteFormulaType_eq st
    { ws with greatestStep := max ws.greatestStep id.value } f.step b.body
  have hhere : readCitations ws.stepIds f.hyps = .ok hyps :=
    (readCitations_eq_ok hhyps ws.stepIds).2 cited
  unfold readDerivation
  simp only [hf, hadm, stepIds]
  rw [← stepIds]
  simp only [hhere, href]
  rw [hms, formulaOf_eq]
  exact ⟨_, rfl, extends_derivation _⟩

/-! ## Blocks -/

/-- A block that is read says something that is admitted, and it is added. -/
theorem readBlock_ok {db : Database} {st : Settings} (h : ws.readBlock db st b last = .ok ws') :
    ∃ c, Says db b.head.text b.words b.tail c ∧ ws.Adds b c ws' := by
  unfold readBlock at h
  dsimp only at h
  by_cases hheader : b.head.text = Keyword.header
  · rw [if_pos hheader] at h
    exact readHeader_ok h hheader
  rw [if_neg hheader] at h
  by_cases hfooter : b.head.text = Keyword.footer
  · rw [if_pos hfooter] at h
    obtain ⟨hqed, hbody, rfl⟩ := readFooter_eq_ok.mp h
    have hwords : b.words = [] := by rw [Block.words, hbody, List.map_nil]
    rw [hfooter, hwords]
    exact ⟨.footer, .footer, hqed, extends_append rfl rfl⟩
  rw [if_neg hfooter] at h
  by_cases hproof : b.head.text = Keyword.proof
  · rw [if_pos hproof] at h
    obtain ⟨hqed, hnone, body, hbody, rfl⟩ := readGeneratedProof_eq_ok.mp h
    rw [hproof]
    exact ⟨.proof body, .proof hbody, ⟨hqed, hnone⟩, extends_append rfl rfl⟩
  rw [if_neg hproof] at h
  by_cases hdv : b.head.text = Keyword.distinctVars
  · rw [if_pos hdv] at h
    obtain ⟨htwo, hdistinct, rfl⟩ := readDistinctVars_eq_ok.mp h
    rw [hdv]
    exact ⟨.distinctVars b.words, .distinctVars htwo hdistinct, trivial, extends_append rfl rfl⟩
  rw [if_neg hdv] at h
  cases hhead : b.head.text with
  | nil => simp [hhead, beginsDerivation, sameLetters, StepId.qedName] at h
  | cons first rest =>
      by_cases hcomment : first = '*'
      · subst hcomment
        rw [hhead, if_pos (show ('*' :: rest).head? = some '*' from rfl), readComment, hhead] at h
        rw [← Except.ok.inj h]
        exact ⟨_, .comment, trivial, extends_append rfl rfl⟩
      rw [hhead, if_neg (by simpa using hcomment)] at h
      by_cases hhyp : first = 'h' ∨ first = 'H'
      · rw [if_pos (by simpa using hhyp)] at h
        rw [← hhead]
        exact readHypothesis_ok h hhead hhyp
      · rw [if_neg (by simpa using hhyp)] at h
        by_cases hder : beginsDerivation (first :: rest) = true
        · rw [if_pos hder] at h
          rw [← hhead]
          refine readDerivation_ok h ⟨by rw [hhead]; exact hder, ?_⟩
          rw [hhead]
          rw [not_or] at hhyp
          simpa using ⟨hcomment, hhyp⟩
        · rw [if_neg hder] at h
          cases h

/-- A block that says something that is admitted is read. -/
theorem exists_readBlock {db : Database} (st : Settings) (last : Bool) {c : Content}
    (h : Says db b.head.text b.words b.tail c) (hadm : ws.Admits c) :
    ∃ ws', ws.readBlock db st b last = .ok ws' ∧ ws.Extends (b.toStatement ws.nextId c) ws' := by
  unfold readBlock
  generalize hhead : b.head.text = head at h
  generalize hwords : b.words = words at h
  generalize htail : b.tail = tail at h
  dsimp only
  cases h with
  | header hth hx hla known => exact exists_readHeader hwords hth hx hla known hadm
  | footer =>
      refine ⟨_, readFooter_eq_ok.mpr ⟨hadm, ?_, rfl⟩, extends_append rfl rfl⟩
      exact List.map_eq_nil_iff.mp hwords
  | comment =>
      subst htail
      refine ⟨_, rfl, ?_⟩
      rw [hhead]
      exact extends_append rfl rfl
  | distinctVars two distinct =>
      subst hwords
      exact ⟨_, readDistinctVars_eq_ok.mpr ⟨two, distinct, rfl⟩, extends_append rfl rfl⟩
  | proof hbody =>
      subst hwords
      exact ⟨_, readGeneratedProof_eq_ok.mpr ⟨hadm.1, hadm.2, _, hbody, rfl⟩,
        extends_append rfl rfl⟩
  | hypothesis hletter hf hid not_qed no_hyps not_local =>
      subst hwords
      obtain ⟨hopen, hfresh, hder⟩ := hadm
      have read := exists_readHypothesis st last hhead hf hid not_qed no_hyps not_local hopen
        hfresh hder
      rcases hletter with rfl | rfl
      · simpa [Keyword.header, Keyword.footer, Keyword.proof, Keyword.distinctVars] using read
      · simpa [Keyword.header, Keyword.footer, Keyword.proof, Keyword.distinctVars] using read
  | derivation hlead hf hid hhyps href =>
      subst hwords
      obtain ⟨hopen, hfresh, cited⟩ := hadm
      subst hhead
      have unlike : ∀ word, beginsDerivation word = false → b.head.text ≠ word := by
        intro word hword heq
        rw [← heq, hlead.1] at hword
        cases hword
      obtain ⟨hbegins, hcomment, hsmall, hcapital⟩ := hlead
      rw [if_neg (unlike _ (by decide)), if_neg (unlike _ (by decide)),
        if_neg (unlike _ (by decide)), if_neg (unlike _ (by decide)), if_neg hcomment,
        if_neg (not_or.mpr ⟨hsmall, hcapital⟩), if_pos hbegins]
      exact exists_readDerivation hf hid hhyps href hopen hfresh fun id hid =>
        cited id (mem_cited.mpr hid)

end Worksheet

end ProofSheet
