import ProofSheet.Proofs.Output
import ProofSheet.Worksheet.Skeleton

set_option autoImplicit false

/-! # The text of a skeleton

The text of a skeleton is a list of chunks, one for each statement (`skeletonChunks`). If the
theorem is plain (`TheoremInfo.IsPlain`), every chunk is a token and a line that say what the
statement should say (`Chunk.Writes`, `TheoremInfo.IsPlain.writes`), and the statements are in the
order of a worksheet (`TheoremInfo.arranged`).
-/

namespace ProofSheet

/-! ## Plain theorems -/

/-- The text stands on one line, it is not blank, and all its blanks are separators. -/
structure IsLine (t : Text) : Prop where
  not_blank : ∃ c ∈ t, isBlank c = false
  one_line : '\n' ∉ t
  blanks : ∀ c ∈ t, isBlank c = true → isSeparator c = true

theorem isLine_iff {t : Text} :
    IsLine t ↔ t.any (!isBlank ·) = true ∧ '\n' ∉ t ∧
      t.all (fun c => !isBlank c || isSeparator c) = true := by
  simp only [List.any_eq_true, List.all_eq_true, Bool.not_eq_true', Bool.or_eq_true]
  constructor
  · rintro ⟨not_blank, one_line, blanks⟩
    refine ⟨not_blank, one_line, fun c hc => ?_⟩
    cases hblank : isBlank c with
    | false => exact Or.inl rfl
    | true => exact Or.inr (blanks c hc hblank)
  · rintro ⟨not_blank, one_line, hall⟩
    refine ⟨not_blank, one_line, fun c hc hblank => (hall c hc).resolve_left ?_⟩
    rw [hblank]
    exact Bool.noConfusion

instance (t : Text) : Decidable (IsLine t) := decidable_of_iff' _ isLine_iff

/-- The labels and formulas of the theorem can stand in a worksheet, and its hypotheses can be
numbered. -/
structure TheoremInfo.IsPlain (info : TheoremInfo) : Prop where
  label_ne : info.label ≠ []
  label_solid : IsSolid info.label
  label_given : info.label ≠ ['?']
  hypotheses_lt : info.hypotheses.length < 0x100000000
  hypothesis_label : ∀ h ∈ info.hypotheses, IsLabel h.label
  hypothesis_formula : ∀ h ∈ info.hypotheses, IsLine h.formula
  conclusion : IsLine info.conclusion

/-- The step of a hypothesis with a number. -/
def Hypothesis.step (h : Hypothesis) (number : Nat) : Step :=
  { id := .number number, ref := some h.label, formula := some (Formula.ofText h.formula) }

/-- The hypothesis steps of a theorem, numbered in their order. -/
def TheoremInfo.hypothesisSteps (info : TheoremInfo) : List Step :=
  (info.hypotheses.zipIdx 1).map fun (h, number) => h.step number

/-- The step `qed` of a theorem, with nothing but the conclusion. -/
def TheoremInfo.qedStep (info : TheoremInfo) : Derivation :=
  { id := .qed
    ref := none
    formula := some (Formula.ofText info.conclusion)
    hyps := []
    hasWorkVars := (Formula.ofText info.conclusion).hasWorkVars }

/-- What the statements of a skeleton say. -/
def TheoremInfo.contents (info : TheoremInfo) : List Content :=
  .header ⟨info.label, none⟩ ::
    (info.hypothesisSteps.map .hypothesis ++ [.derivation info.qedStep, .footer])

/-! ## The text of a skeleton -/

/-- The chunk of a hypothesis in a skeleton. -/
def Hypothesis.chunk (h : Hypothesis) (number : Nat) : Chunk :=
  ⟨'h' :: decimal number ++ ':' :: ':' :: h.label, ' ' :: h.formula ++ ['\n']⟩

/-- The fields of the header in a skeleton; the empty one makes for two spaces. -/
def headerFields (label : Text) : List Text :=
  [Keyword.metamath, Keyword.proofAssistant, Keyword.theoremKey ++ label, [],
    Keyword.locAfterKey ++ ['?']]

/-- The chunks of a skeleton. -/
def skeletonChunks (info : TheoremInfo) : List Chunk :=
  ⟨Keyword.header, ' ' :: joinWith ' ' (headerFields info.label) ++ ['\n', '\n']⟩ ::
    ((info.hypotheses.zipIdx 1).map (fun (h, number) => h.chunk number) ++
      [⟨StepId.qedName ++ [':', ':'], ' ' :: info.conclusion ++ ['\n', '\n']⟩,
        ⟨Keyword.footer, ['\n']⟩])

/-- The text of a skeleton is that of its chunks. -/
theorem flatMap_skeletonChunks (info : TheoremInfo) :
    (skeletonChunks info).flatMap Chunk.text = skeletonText info := by
  have hheader : joinWith ' ' [Keyword.header, Keyword.metamath, Keyword.proofAssistant,
      Keyword.theoremKey ++ info.label, [], Keyword.locAfterKey ++ ['?']] =
      Keyword.header ++ ' ' :: joinWith ' ' (headerFields info.label) := rfl
  simp only [skeletonChunks, skeletonText, List.flatMap_cons, List.flatMap_append, List.flatMap_map,
    List.flatMap_nil, Chunk.text, Hypothesis.chunk, hheader]
  simp only [List.append_assoc, List.cons_append, List.nil_append, List.append_nil]

section Lines

variable {t ending : Text}

/-- A line after a space is laid as a tail should be. -/
theorem IsLine.isLaid (h : IsLine t) {lead : Text} (hne : lead ≠ []) (hsolid : IsSolid lead)
    (hending : ∀ c ∈ ending, isSeparator c = true) :
    Chunk.IsLaid ⟨lead, ' ' :: t ++ ending⟩ where
  lead_ne := hne
  solid := hsolid.not_separator
  apart x hx := by
    cases hx
    rfl
  indented := by
    refine indented_append (fun hmem => ?_) hending
    exact h.one_line ((List.mem_cons.mp hmem).resolve_left (by decide))

theorem IsLine.formula_eq (h : IsLine t) : some (Formula.ofText t) = formulaOfWords (words t) := by
  rw [formulaOfWords, if_neg]
  · rfl
  · rw [List.isEmpty_iff]
    exact words_ne_nil h.not_blank

end Lines

theorem isSolid_headerFields {label : Text} (solid : IsSolid label) :
    ∀ field ∈ headerFields label, IsSolid field := by
  have hkeyword : IsSolid Keyword.theoremKey := by decide
  have hkey : IsSolid (Keyword.theoremKey ++ label) :=
    List.forall_mem_append.mpr ⟨hkeyword, solid⟩
  simp only [headerFields, List.forall_mem_cons]
  exact ⟨by decide, by decide, hkey, by decide, by decide, fun field h => (by cases h)⟩

/-- The fields of the header are on one line. -/
theorem isLine_headerFields {label : Text} (solid : IsSolid label) :
    IsLine (joinWith ' ' (headerFields label)) := by
  have blank_eq : ∀ c ∈ joinWith ' ' (headerFields label), isBlank c = true → c = ' ' := by
    intro c hc hblank
    rcases mem_joinWith hc with hspace | ⟨field, hfield, hcfield⟩
    · exact hspace
    · rw [isSolid_headerFields solid field hfield c hcfield] at hblank
      cases hblank
  refine ⟨⟨'<', List.mem_cons_self, by decide⟩, fun hmem => ?_, fun c hc hblank => ?_⟩
  · exact absurd (blank_eq '\n' hmem (by decide)) (by decide)
  · rw [blank_eq c hc hblank]
    rfl

theorem words_headerFields {label : Text} (solid : IsSolid label) :
    words (joinWith ' ' (headerFields label)) =
      [Keyword.metamath, Keyword.proofAssistant, Keyword.theoremKey ++ label,
        Keyword.locAfterKey ++ ['?']] := by
  have hfields := isSolid_headerFields solid
  have hlabel : words (Keyword.theoremKey ++ label) = [Keyword.theoremKey ++ label] :=
    (hfields _ (by simp [headerFields])).words_eq (List.cons_ne_nil _ _)
  rw [words_joinWith, headerFields, List.flatMap_cons, List.flatMap_cons, List.flatMap_cons, hlabel]
  rfl

/-! ## What a skeleton says -/

/-- The chunk spells a statement, and it is laid and ends a line. -/
structure Chunk.Writes (db : Database) (c : Chunk) (x : Content) : Prop where
  spells : c.Spells db x
  laid : c.IsLaid
  ends_line : c.EndsLine

theorem laidOut_of_writes {db : Database} {cs : List Chunk} {xs : List Content}
    (h : List.Forall₂ (Chunk.Writes db) cs xs) : LaidOut cs := by
  induction h with
  | nil => trivial
  | cons hc _ ih => exact ⟨hc.laid, fun _ => hc.ends_line, ih⟩

section Lines

variable {db : Database} {t lead ending : Text} {c : Content}

/-- A token and a line after it write what they say. -/
theorem IsLine.writes (h : IsLine t) (hne : lead ≠ []) (hsolid : IsSolid lead)
    (hending : ending.all isSeparator = true) (hlast : ending.getLast? = some '\n')
    (said : ∀ tail, Says db lead (words t) tail c) :
    Chunk.Writes db ⟨lead, ' ' :: t ++ ending⟩ c where
  spells := by
    refine spells_iff_says.mpr ?_
    rw [wordsOf_tail h.blanks (List.all_eq_true.mp hending)]
    exact said _
  laid := h.isLaid hne hsolid (List.all_eq_true.mp hending)
  ends_line := by
    rw [Chunk.EndsLine, List.getLast?_append, hlast]
    rfl

/-- The lead of a step and its formula on a line write the step. -/
theorem IsLine.writes_step (h : IsLine t) {step : Step} (writable : c.Writable)
    (bare : c.bare = c) (workVars : c.NotesWorkVars) (hstep : c.step? = some step)
    (hformula : step.formula = some (Formula.ofText t)) (hlead : c.lead? = some lead)
    (hending : ending.all isSeparator = true) (hlast : ending.getLast? = some '\n') :
    Chunk.Writes db ⟨lead, ' ' :: t ++ ending⟩ c := by
  obtain ⟨lead', hlead', hne, hsolid, said⟩ := writable.exists_lead hstep workVars
  obtain rfl : lead = lead' := Option.some.inj (hlead.symm.trans hlead')
  refine h.writes hne hsolid hending hlast fun tail => ?_
  rw [← bare]
  exact said db (words t) tail (hformula.trans h.formula_eq)

end Lines

theorem writes_footer (db : Database) : Chunk.Writes db ⟨Keyword.footer, ['\n']⟩ .footer where
  spells := by
    have hwords : wordsOf ['\n'] = [] :=
      wordsOf_eq_words (List.forall_mem_singleton.mpr fun _ => rfl)
    show Spells db Keyword.footer (wordsOf ['\n']) ['\n'] .footer
    rw [hwords]
    exact .footer
  laid := by
    have hsolid : IsSolid Keyword.footer := by decide
    have hindented : Indented ([] ++ ['\n']) :=
      indented_append List.not_mem_nil (List.forall_mem_singleton.mpr rfl)
    refine ⟨by decide, hsolid.not_separator, fun x hx => ?_, hindented⟩
    cases hx
    rfl
  ends_line := rfl

namespace TheoremInfo

variable {info : TheoremInfo}

theorem IsPlain.writes_header (plain : info.IsPlain) (db : Database) :
    Chunk.Writes db
      ⟨Keyword.header, ' ' :: joinWith ' ' (headerFields info.label) ++ ['\n', '\n']⟩
      (.header ⟨info.label, none⟩) := by
  refine (isLine_headerFields plain.label_solid).writes (by decide) (by decide) rfl rfl ?_
  intro tail
  rw [words_headerFields plain.label_solid, ← spells_iff_says]
  exact .header plain.label_ne plain.label_given (Or.inr (Or.inl rfl))

theorem IsPlain.writes_hypothesis (plain : info.IsPlain) (db : Database) {h : Hypothesis}
    {number : Nat} (hmem : (h, number) ∈ info.hypotheses.zipIdx 1) :
    Chunk.Writes db (h.chunk number) (.hypothesis (h.step number)) := by
  obtain ⟨hpos, hlt, -⟩ := List.mem_zipIdx hmem
  have hh : h ∈ info.hypotheses := List.fst_mem_of_mem_zipIdx hmem
  have hnumber : (h.step number).id.InRange := by
    have hcount := plain.hypotheses_lt
    have hmax : StepId.maxNumber = 0xffffffff := rfl
    exact ⟨hpos, by omega⟩
  have writable : Content.Writable (.hypothesis (h.step number)) := by
    refine ⟨⟨hnumber, fun l hl => ?_⟩, fun hqed => (by cases hqed)⟩
    cases hl
    exact plain.hypothesis_label h hh
  exact (plain.hypothesis_formula h hh).writes_step writable rfl (fun d hd => (by cases hd)) rfl rfl
    rfl rfl rfl

theorem IsPlain.writes_qed (plain : info.IsPlain) (db : Database) :
    Chunk.Writes db ⟨StepId.qedName ++ [':', ':'], ' ' :: info.conclusion ++ ['\n', '\n']⟩
      (.derivation info.qedStep) := by
  have writable : info.qedStep.Writable :=
    { inRange := trivial
      label := fun l hl => (by cases hl)
      localRef := rfl
      hyps := fun entry hentry => (by cases hentry) }
  refine plain.conclusion.writes_step writable rfl (fun d hd => ?_) rfl rfl rfl rfl rfl
  cases hd
  rfl

/-- The chunks of a skeleton write what its statements say. -/
theorem IsPlain.writes (plain : info.IsPlain) (db : Database) :
    List.Forall₂ (Chunk.Writes db) (skeletonChunks info) info.contents := by
  refine .cons (plain.writes_header db) (List.rel_append ?_
    (.cons (plain.writes_qed db) (.cons (writes_footer db) .nil)))
  rw [hypothesisSteps, List.map_map, List.forall₂_map_left_iff, List.forall₂_map_right_iff,
    List.forall₂_same]
  exact fun p hp => plain.writes_hypothesis db hp

/-! ## The order of a skeleton -/

theorem stepIds_contents (info : TheoremInfo) :
    info.contents.filterMap Content.stepId? =
      (List.range' 1 info.hypotheses.length).map StepId.number ++ [.qed] := by
  have hnumbers : info.hypothesisSteps.map Step.id =
      (List.range' 1 info.hypotheses.length).map StepId.number := by
    rw [hypothesisSteps, List.map_map, ← List.zipIdx_map_snd, List.map_map]
    rfl
  have hsteps : (info.hypothesisSteps.map Content.hypothesis).filterMap Content.stepId? =
      info.hypothesisSteps.map Step.id := by
    rw [List.filterMap_map]
    exact congrFun List.filterMap_eq_map _
  rw [← hnumbers, ← hsteps]
  exact List.filterMap_append

theorem nodup_stepIds_contents (info : TheoremInfo) :
    (info.contents.filterMap Content.stepId?).Nodup := by
  rw [stepIds_contents, List.nodup_append]
  refine ⟨?_, List.nodup_singleton _, ?_⟩
  · refine List.Nodup.map (fun a b h => ?_) (List.nodup_range' 1)
    cases h
    rfl
  · intro a ha b hb heq
    obtain ⟨n, -, rfl⟩ := List.mem_map.mp ha
    cases List.mem_singleton.mp hb
    cases heq

theorem mem_contents {info : TheoremInfo} {c : Content} (h : c ∈ info.contents) :
    c = .header ⟨info.label, none⟩ ∨ (∃ s ∈ info.hypothesisSteps, c = .hypothesis s) ∨
      c = .derivation info.qedStep ∨ c = .footer := by
  rw [contents, List.mem_cons, List.mem_append, List.mem_map, List.mem_cons,
    List.mem_singleton] at h
  simpa only [eq_comm] using h

theorem theorem?_contents (info : TheoremInfo) :
    info.contents.filterMap Content.theorem? = [info.label] := by
  simp [contents, Content.theorem?, List.filterMap_map, Function.comp_def]

theorem countP_contents (info : TheoremInfo) :
    info.contents.countP Content.isHypothesis = info.hypotheses.length := by
  simp [contents, hypothesisSteps, Content.isHypothesis, List.countP_map, Function.comp_def]

/-- The step `qed` is the only derivation step. -/
theorem eq_qedStep {d : Derivation} (h : .derivation d ∈ info.contents) : d = info.qedStep := by
  obtain hc | ⟨s, -, hc⟩ | hc | hc := mem_contents h
  · cases hc
  · cases hc
  · exact Content.derivation.inj hc
  · cases hc

/-- Hypotheses may follow each other. -/
theorem after_hypotheses {steps : List Step} (h : ∀ s ∈ steps, s.id ≠ .qed) (cs : List Content) :
    Phase.hypotheses.after (steps.map .hypothesis ++ cs) = Phase.hypotheses.after cs := by
  induction steps with
  | nil => rfl
  | cons s rest ih =>
      obtain ⟨hs, hrest⟩ := List.forall_mem_cons.mp h
      rw [List.map_cons, List.cons_append, Phase.after, Phase.next, if_neg hs]
      exact ih hrest

theorem phase_contents (info : TheoremInfo) :
    Phase.opening.after info.contents = some (.closed false) := by
  have not_qed : ∀ s ∈ info.hypothesisSteps, s.id ≠ .qed := by
    intro s hs
    obtain ⟨p, -, rfl⟩ := List.mem_map.mp hs
    exact fun hqed => (by cases hqed)
  exact after_hypotheses not_qed _

/-- The statements of a skeleton are arranged, for a database that has the theorem. -/
theorem arranged {db : Database} (hfind : db.find? info.label = some info) :
    Arranged db info.contents := by
  have eq_qed {before after : List Content} {c : Content} {d : Derivation}
      (hsplit : info.contents = before ++ c :: after) (hd : c = .derivation d) :
      d = info.qedStep := by
    refine eq_qedStep ?_
    rw [hsplit, ← hd]
    exact List.mem_append_cons_self
  refine .of_phase info.phase_contents info.nodup_stepIds_contents (along_iff.mpr ?_) ?_ ?_
  · intro before c after hsplit d hd id hid
    rw [eq_qed hsplit hd] at hid
    cases hid
  · intro before c after hsplit d target hd href
    rw [eq_qed hsplit hd] at href
    rcases href with hmem | hlocal
    · cases hmem
    · cases hlocal
  · intro label hlabel info' hinfo'
    rw [theorem?_contents, List.mem_singleton] at hlabel
    obtain rfl : info = info' := by
      rw [hlabel, hfind] at hinfo'
      exact Option.some.inj hinfo'
    exact info.countP_contents.symm

end TheoremInfo

end ProofSheet
