import ProofSheet.Proofs.Changes
import ProofSheet.Proofs.Formulas
import ProofSheet.Proofs.LocalRefs
import ProofSheet.Proofs.Renumbering

set_option autoImplicit false

/-! # Legible statements

A statement is faithful if its text is laid as the text of a statement should be, and says what
the statement says, apart from what no text tells: the level of a step and what unification has
found out about it (`Statement.Faithful`). It is legible if in addition its lead can be written anew
(`Statement.Legible`). A legible statement stays legible when its label, its formula or its name is
changed and its text with it.
-/

namespace ProofSheet

namespace Content

/-- What a statement says as it is read. -/
def bare : Content → Content
  | hypothesis s => hypothesis s.bare
  | derivation d => derivation d.bare
  | c => c

/-- What a statement says can be written, if it is a step. -/
def Writable : Content → Prop
  | hypothesis s => s.Writable ∧ s.id ≠ .qed
  | derivation d => d.Writable
  | _ => True

/-- The mark for work variables is right, if there is one. -/
def NotesWorkVars (c : Content) : Prop := ∀ d, c = .derivation d → d.NotesWorkVars

theorem mapStep_mapStep (f g : Step → Step) (c : Content) :
    (c.mapStep f).mapStep g = c.mapStep (g ∘ f) := by
  cases c <;> rfl

theorem step?_bare (c : Content) : c.bare.step? = c.step?.map Step.bare := by
  cases c <;> rfl

theorem isFooter_bare (c : Content) : c.bare.isFooter = c.isFooter := by
  cases c <;> rfl

theorem stepId?_bare (c : Content) : c.bare.stepId? = c.stepId? := by
  cases c <;> rfl

theorem writable_bare {c : Content} : c.bare.Writable ↔ c.Writable := by
  cases c with
  | hypothesis s =>
      constructor
      · intro h
        exact ⟨⟨h.1.inRange, h.1.label⟩, h.2⟩
      · intro h
        exact ⟨⟨h.1.inRange, h.1.label⟩, h.2⟩
  | derivation d =>
      constructor
      · intro h
        replace h : d.bare.Writable := h
        exact ⟨⟨h.inRange, h.label⟩, h.localRef, h.hyps⟩
      · intro h
        replace h : d.Writable := h
        exact ⟨⟨h.inRange, h.label⟩, h.localRef, h.hyps⟩
  | _ => exact Iff.rfl

/-- The lead that is written for a step is one token and is read back, however its label is
spelled. -/
theorem Writable.exists_leadSpelling {c : Content} {step : Step} (h : c.Writable)
    (hstep : c.step? = some step) (workVars : c.NotesWorkVars) {field : Text}
    (spells : SpellsLabel field step.ref) :
    ∃ lead, (c.mapStep (·.spelling field)).lead? = some lead ∧ lead ≠ [] ∧ IsSolid lead ∧
      ∀ db words tail, step.formula = formulaOfWords words → Says db lead words tail c.bare := by
  cases c with
  | hypothesis s =>
      cases hstep
      obtain ⟨hs, not_qed⟩ := h
      refine ⟨(step.spelling field).hypothesisLead, rfl, List.cons_ne_nil _ _, ?_, ?_⟩
      · intro x hx
        have hlead : (step.spelling field).hypothesisLead =
            'h' :: (step.id.text ++ (':' :: ':' :: field)) := rfl
        rw [hlead, List.mem_cons, List.mem_append, List.mem_cons, List.mem_cons] at hx
        rcases hx with rfl | hid | rfl | rfl | href
        · decide
        · exact (step.id.text_plain x hid).1
        · decide
        · decide
        · exact spells.solid x href
      · intro db words tail hwords
        exact hs.said db not_qed spells hwords tail
  | derivation d =>
      cases hstep
      replace h : d.Writable := h
      have hlead : (d.spelling field).lead =
          d.id.text ++ ':' :: (joinWith ',' (d.hyps.map Citation.text) ++ ':' :: field) :=
        Derivation.lead_eq (d := d.spelling field) h.localRef
      refine ⟨(d.spelling field).lead, rfl, ?_, ?_, ?_⟩
      · obtain ⟨x, t, ht, -⟩ := d.id.text_begins
        rw [hlead, ht]
        exact List.cons_ne_nil _ _
      · intro x hx
        rw [hlead, List.mem_append, List.mem_cons, List.mem_append, List.mem_cons] at hx
        rcases hx with hid | rfl | hhyps | rfl | href
        · exact (d.id.text_plain x hid).1
        · decide
        · exact h.hypsText.1 x hhyps
        · decide
        · exact spells.solid x href
      · intro db words tail hwords
        exact h.said db (workVars d rfl) spells hwords tail
  | _ => cases hstep

/-- The lead of a step spells its label. -/
theorem Writable.exists_lead {c : Content} {step : Step} (h : c.Writable)
    (hstep : c.step? = some step) (workVars : c.NotesWorkVars) :
    ∃ lead, c.lead? = some lead ∧ lead ≠ [] ∧ IsSolid lead ∧
      ∀ db words tail, step.formula = formulaOfWords words → Says db lead words tail c.bare := by
  cases c with
  | hypothesis s =>
      cases hstep
      exact h.exists_leadSpelling rfl workVars h.1.spellsLabel
  | derivation d =>
      cases hstep
      replace h : d.Writable := h
      have hlead : (d.spelling (d.ref.getD [])).lead = d.lead := by
        rw [Derivation.lead_eq h.localRef]
        exact Derivation.lead_eq (d := d.spelling (d.ref.getD [])) h.localRef
      obtain ⟨lead, hspelled, rest⟩ :=
        Writable.exists_leadSpelling (c := .derivation d) h rfl workVars h.spellsLabel
      exact ⟨lead, (congrArg some hlead).symm.trans hspelled, rest⟩
  | _ => cases hstep

end Content

/-! ## What is read -/

/-- What is read is as bare as can be. -/
theorem Says.bare_eq {db : Database} {lead tail : Text} {words : List Text} {c : Content}
    (h : Says db lead words tail c) : c.bare = c := by
  cases h <;> rfl

/-- The formula that is read is the words after the lead. -/
theorem Says.formula_eq {db : Database} {lead tail : Text} {words : List Text} {c : Content}
    {step : Step} (h : Says db lead words tail c) (hstep : c.step? = some step) :
    step.formula = formulaOfWords words := by
  cases h with
  | hypothesis =>
      cases hstep
      rfl
  | derivation =>
      cases hstep
      rfl
  | _ => cases hstep

/-- A step with other words after its lead. -/
def Content.reworded (words : List Text) : Content → Content
  | .hypothesis s => .hypothesis { s with formula := formulaOfWords words }
  | .derivation d =>
    .derivation
      { d with
        formula := formulaOfWords words
        hasWorkVars := (formulaOfWords words).any Formula.hasWorkVars }
  | c => c

/-- The words after the lead of a step are its formula and nothing else. -/
theorem Says.reword {db : Database} {lead tail : Text} {words : List Text} {c : Content}
    (h : Says db lead words tail c) (hstep : c.isStep = true) (words' : List Text) (tail' : Text) :
    Says db lead words' tail' (c.reworded words') := by
  cases h with
  | hypothesis hletter hf hid not_qed no_hyps not_local =>
      exact .hypothesis hletter hf hid not_qed no_hyps not_local
  | derivation hlead hf hid hhyps href => exact .derivation hlead hf hid hhyps href
  | _ => cases hstep

/-- The formula that is read has the work variables of the words. -/
theorem hasWorkVars_formulaOfWords (f : Formula) :
    (formulaOfWords f.symbols).any Formula.hasWorkVars = f.hasWorkVars := by
  obtain ⟨symbols⟩ := f
  cases symbols <;> rfl

theorem Formula.IsPlain.formulaOfWords_symbols {f : Formula} (h : f.IsPlain) :
    formulaOfWords f.symbols = some f := by
  rw [formulaOfWords, if_neg]
  rw [List.isEmpty_iff]
  exact h.nonempty

namespace Statement

/-- The text of the statement, in its two parts. -/
def chunk (s : Statement) : Chunk := ⟨s.lead, s.tail⟩

/-- The text of the statement says what the statement says. -/
structure Faithful (db : Database) (s : Statement) : Prop where
  laid : s.chunk.IsLaid
  ends : s.isFooter = false → s.chunk.EndsLine
  blanks : ∀ x ∈ s.text, isBlank x = true → isSeparator x = true
  said : Says db s.lead (wordsOf s.tail) s.tail s.content.bare

/-- The text of the statement says what the statement says, and its lead can be written anew. -/
structure Legible (db : Database) (s : Statement) : Prop extends s.Faithful db where
  writable : s.content.Writable

variable {db : Database} {s : Statement} {step : Step}

theorem Faithful.solid (h : s.Faithful db) : IsSolid s.lead := by
  intro x hx
  rw [Bool.eq_false_iff]
  intro hblank
  have hsep := h.blanks x (List.mem_append_left _ hx) hblank
  rw [h.laid.solid x hx] at hsep
  cases hsep

theorem Faithful.formula_eq (h : s.Faithful db) (hstep : s.content.step? = some step) :
    step.formula = formulaOfWords (wordsOf s.tail) := by
  have hbare : s.content.bare.step? = some step.bare := by
    rw [Content.step?_bare, hstep, Option.map_some]
  have hformula : step.bare.formula = formulaOfWords (wordsOf s.tail) := h.said.formula_eq hbare
  exact hformula

theorem Faithful.notesWorkVars (h : s.Faithful db) : s.content.NotesWorkVars := by
  intro d hd
  have said := h.said
  rw [hd] at said
  exact said.notesWorkVars

/-- The names of steps are read from their leads, so they are in range. -/
theorem Faithful.inRange (h : s.Faithful db) {id : StepId} (hid : s.stepId? = some id) :
    id.InRange := by
  cases id with
  | qed => trivial
  | number n =>
      refine h.said.number_range ?_
      rw [Content.stepId?_bare]
      exact hid

/-- The labels of steps are read from their leads, so they are labels. -/
theorem Faithful.label (h : s.Faithful db) (hstep : s.content.step? = some step) {l : Text}
    (hl : step.ref = some l) : IsLabel l := by
  have hbare : s.content.bare.step? = some step.bare := by
    rw [Content.step?_bare, hstep, Option.map_some]
  exact h.said.isLabel h.solid hbare hl

theorem isFooter_of_step {c : Content} (hstep : c.step? = some step) : c.isFooter = false := by
  cases c with
  | footer => cases hstep
  | _ => rfl

/-- A faithful step is legible with other fields if its lead says them. -/
theorem Faithful.withLead (h : s.Faithful db) {c : Content} {step' : Step} (hc : c.Writable)
    (hstep : s.content.step? = some step) (hformula : step'.formula = step.formula) {lead : Text}
    (hne : lead ≠ []) (solid : IsSolid lead)
    (said : ∀ db words tail, step'.formula = formulaOfWords words →
      Says db lead words tail c.bare) :
    ({ s with content := c, lead := lead } : Statement).Legible db := by
  refine ⟨⟨⟨hne, solid.not_separator, h.laid.apart, h.laid.indented⟩, ?_, ?_, ?_⟩, hc⟩
  · intro _
    exact h.ends (isFooter_of_step hstep)
  · intro x hx hblank
    rcases List.mem_append.mp hx with hx | hx
    · rw [solid x hx] at hblank
      cases hblank
    · exact h.blanks x (List.mem_append_right _ hx) hblank
  · exact said db _ _ (hformula.trans (h.formula_eq hstep))

/-- A faithful step is legible if its lead is written anew for other fields. -/
theorem Faithful.relead (h : s.Faithful db) {c : Content} {step' : Step} (hc : c.Writable)
    (hstep : s.content.step? = some step) (hstep' : c.step? = some step')
    (hformula : step'.formula = step.formula) (workVars : c.NotesWorkVars) :
    ({ s with content := c }.refreshLead).Legible db := by
  obtain ⟨lead, hlead, hne, solid, said⟩ := hc.exists_lead hstep' workVars
  have hrefresh : ({ s with content := c } : Statement).refreshLead =
      { s with content := c, lead := lead } := by
    unfold refreshLead
    dsimp only
    rw [hlead, Option.getD_some]
  rw [hrefresh]
  exact h.withLead hc hstep hformula hne solid said

theorem mapStep_eq_self {f : Step → Step} (h : s.content.mapStep f = s.content) :
    s.mapStep f = s := by
  rw [mapStep, h]

/-- The statement with a label as it is read from its field. -/
def withReadRef (ref : Option Text) (s : Statement) : Statement := s.mapStep ({ · with ref := ref })

/-- The statement with a formula as it is read from its words. -/
def withReadFormula (formula : Option Formula) (s : Statement) : Statement :=
  s.mapStep ({ · with formula := formula })

/-- A legible step stays legible if its last field is written anew, and read. -/
theorem Legible.withSpelling (h : s.Legible db) (hstep : s.content.step? = some step)
    {field : Text} {ref : Option Text} (spells : SpellsLabel field ref) :
    ((s.withRef field).withReadRef ref).Legible db := by
  have workVars := h.notesWorkVars
  have writable := h.writable
  let c := (s.content.mapDerivation ({ · with localRef := none })).mapStep
    ({ · with ref := ref })
  have labels : ∀ l, ref = some l → IsLabel l := by
    rintro l rfl
    exact spells.isLabel
  obtain ⟨hc, hstep', hwork⟩ : c.Writable ∧ c.step? = some { step with ref := ref } ∧
      c.NotesWorkVars := by
    show Content.Writable ((s.content.mapDerivation _).mapStep _) ∧
      ((s.content.mapDerivation _).mapStep _).step? = _ ∧
      Content.NotesWorkVars ((s.content.mapDerivation _).mapStep _)
    cases hc : s.content with
    | hypothesis t =>
        rw [hc] at hstep writable
        cases hstep
        exact ⟨⟨⟨writable.1.inRange, labels⟩, writable.2⟩, rfl, fun d hd => (by cases hd)⟩
    | derivation d =>
        rw [hc] at hstep writable workVars
        cases hstep
        replace writable : d.Writable := writable
        refine ⟨⟨⟨writable.inRange, labels⟩, rfl, writable.hyps⟩, rfl, fun d' hd' => ?_⟩
        cases hd'
        exact workVars d rfl
    | _ =>
        rw [hc] at hstep
        cases hstep
  obtain ⟨lead, hlead, hne, solid, said⟩ := hc.exists_leadSpelling hstep' hwork spells
  -- the lead is written while the field still stands for the label
  have hnew : (s.withRef field).withReadRef ref = { s with content := c, lead := lead } := by
    have hcontent : ((s.withRef field).withReadRef ref).content = c :=
      Content.mapStep_mapStep ..
    have hspelled : (s.content.mapDerivation ({ · with localRef := none })).mapStep
        ({ · with ref := some field }) = c.mapStep (·.spelling field) := by
      show _ = ((s.content.mapDerivation _).mapStep _).mapStep _
      rw [Content.mapStep_mapStep]
      rfl
    have hwritten : (s.withRef field).lead = lead := by
      show (((s.content.mapDerivation _).mapStep _).lead?).getD s.lead = lead
      rw [hspelled, hlead, Option.getD_some]
    rw [← hcontent, ← hwritten]
    rfl
  rw [hnew]
  exact h.withLead hc hstep rfl hne solid said

/-- A legible step stays legible if it gets a label. -/
theorem Legible.withRef (h : s.Legible db) (hstep : s.content.step? = some step) {label : Text}
    (hlabel : IsLabel label) : (s.withRef label).Legible db := by
  have hsame : (s.withRef label).withReadRef (some label) = s.withRef label :=
    mapStep_eq_self (Content.mapStep_mapStep ..)
  rw [← hsame]
  exact h.withSpelling hstep ⟨hlabel.solid, hlabel.no_colon, hlabel.not_local, hlabel.read⟩

/-- A legible step stays legible if a formula is written in it, and read. -/
theorem Legible.withWords (h : s.Legible db) (hstep : s.content.step? = some step)
    {formula : Formula} (solid : ∀ x ∈ formula.symbols, x ≠ [] ∧ IsSolid x) :
    ((s.withFormula formula).withReadFormula (formulaOfWords formula.symbols)).Legible db := by
  have not_footer := isFooter_of_step hstep
  -- the blanks after the old formula stay after the new one
  obtain ⟨ending, hbody, hsep, hlast⟩ := exists_replaceBody (h.ends not_footer)
    (fun x hx => h.blanks x (List.mem_append_right _ hx)) formula.text
  obtain ⟨apart, indented, ends, blanks, hwords⟩ := Formula.tail_of_solid solid hsep hlast
  let tail := ' ' :: formula.text ++ ending
  let c := ((s.content.mapDerivation ({ · with hasWorkVars := formula.hasWorkVars })).mapStep
    ({ · with formula := some formula })).mapStep
    ({ · with formula := formulaOfWords formula.symbols })
  have hnew : (s.withFormula formula).withReadFormula (formulaOfWords formula.symbols) =
      { s with content := c, tail := tail } := by
    unfold Statement.withReadFormula Statement.withFormula
    rw [hbody]
    rfl
  have hbare : c.bare = s.content.bare.reworded (wordsOf tail) ∧ c.Writable ∧
      s.content.bare.isStep = true := by
    have writable := h.writable
    show Content.bare (((s.content.mapDerivation _).mapStep _).mapStep _) =
        s.content.bare.reworded (wordsOf (' ' :: formula.text ++ ending)) ∧
      Content.Writable (((s.content.mapDerivation _).mapStep _).mapStep _) ∧ _
    rw [hwords]
    cases hc : s.content with
    | hypothesis t =>
        rw [hc] at writable
        exact ⟨rfl, ⟨⟨writable.1.inRange, writable.1.label⟩, writable.2⟩, rfl⟩
    | derivation d =>
        rw [hc] at writable
        replace writable : d.Writable := writable
        refine ⟨?_, ⟨⟨writable.inRange, writable.label⟩, writable.localRef, writable.hyps⟩, rfl⟩
        rw [Content.bare, Content.reworded, hasWorkVars_formulaOfWords]
        rfl
    | _ =>
        rw [hc] at hstep
        cases hstep
  obtain ⟨hbare, hc, isStep⟩ := hbare
  rw [hnew]
  refine ⟨⟨⟨h.laid.lead_ne, h.laid.solid, apart, indented⟩, fun _ => ends, ?_, ?_⟩, hc⟩
  · intro x hx hblank
    rcases List.mem_append.mp hx with hx | hx
    · exact h.blanks x (List.mem_append_left _ hx) hblank
    · exact blanks x hx hblank
  · show Says db s.lead (wordsOf tail) tail c.bare
    rw [hbare]
    exact h.said.reword isStep (wordsOf tail) tail

/-- A legible step stays legible if it gets a formula. -/
theorem Legible.withFormula (h : s.Legible db) (hstep : s.content.step? = some step)
    {formula : Formula} (hplain : formula.IsPlain) : (s.withFormula formula).Legible db := by
  have hsame : (s.withFormula formula).withReadFormula (formulaOfWords formula.symbols) =
      s.withFormula formula := by
    rw [hplain.formulaOfWords_symbols]
    exact mapStep_eq_self (Content.mapStep_mapStep ..)
  rw [← hsame]
  exact h.withWords hstep hplain.symbols

/-- What no text tells does not matter for a legible statement. -/
theorem Legible.of_bare (h : s.Legible db) {c : Content} (hbare : c.bare = s.content.bare) :
    ({ s with content := c } : Statement).Legible db := by
  refine ⟨⟨h.laid, ?_, h.blanks, ?_⟩, ?_⟩
  · intro hfooter
    refine h.ends ?_
    rw [isFooter_eq, ← Content.isFooter_bare, ← hbare, Content.isFooter_bare]
    exact hfooter
  · show Says db s.lead (wordsOf s.tail) s.tail c.bare
    rw [hbare]
    exact h.said
  · rw [← Content.writable_bare, hbare, Content.writable_bare]
    exact h.writable

/-- A legible statement stays legible if the outcome of unifying it is recorded. -/
theorem Legible.withStatus (h : s.Legible db) (unification : Unification)
    (distinctCheck : DistinctCheck) (proof : Option (List Text)) :
    (s.withStatus unification distinctCheck proof).Legible db :=
  h.of_bare (by cases s.content <;> rfl)

/-- A legible statement stays legible if its level is recorded. -/
theorem Legible.record (h : s.Legible db) (levels : Levels) :
    (s.mapStep levels.record).Legible db :=
  h.of_bare (by cases s.content <;> rfl)

/-- A legible statement stays legible if its step, and what it cites, get names in range. -/
theorem Legible.rename (h : s.Legible db) {names : Renaming}
    (inRange : ∀ id : StepId, id.InRange → (names.apply id).InRange)
    (hqed : ∀ id, names.apply id = .qed ↔ id = .qed) :
    (names.applyStatement s).Legible db := by
  have writable := h.writable
  have workVars := h.notesWorkVars
  cases hstep : s.content.step? with
  | none =>
      have hsame : names.applyStatement s = s := by
        obtain ⟨id, content, lead, tail, start, position⟩ := s
        cases content with
        | hypothesis t => cases hstep
        | derivation d => cases hstep
        | _ => rfl
      rw [hsame]
      exact h
  | some step =>
      obtain ⟨hc, hstep', hwork⟩ : (names.applyContent s.content).Writable ∧
          (names.applyContent s.content).step? = some { step with id := names.apply step.id } ∧
          (names.applyContent s.content).NotesWorkVars := by
        cases hc : s.content with
        | hypothesis t =>
            rw [hc] at hstep writable
            cases hstep
            refine ⟨⟨⟨inRange _ writable.1.inRange, writable.1.label⟩, fun heq => ?_⟩, rfl,
              fun d hd => (by cases hd)⟩
            exact writable.2 ((hqed _).mp heq)
        | derivation d =>
            rw [hc] at hstep writable workVars
            cases hstep
            replace writable : d.Writable := writable
            refine ⟨⟨⟨inRange _ writable.inRange, writable.label⟩, writable.localRef, ?_⟩, rfl,
              fun d' hd' => ?_⟩
            · intro entry hentry
              obtain ⟨entry₀, hmem, rfl⟩ := List.mem_map.mp hentry
              rcases writable.hyps entry₀ hmem with rfl | ⟨id, hid, rfl⟩
              · exact Or.inl rfl
              · exact Or.inr ⟨names.apply id, inRange id hid, rfl⟩
            · cases hd'
              exact workVars d rfl
        | _ =>
            rw [hc] at hstep
            cases hstep
      exact h.relead hc hstep hstep' rfl hwork

/-- A faithful derivation step is legible if its hypothesis list is resolved. -/
theorem Faithful.citing (h : s.Faithful db) {d : Derivation} (hd : s.content = .derivation d)
    {hyps : List Citation} (writable : (d.citing hyps).Writable) :
    (s.citing d hyps).Legible db := by
  unfold Statement.citing
  by_cases hsame : hyps = d.hyps
  · rw [if_pos hsame]
    refine ⟨h, ?_⟩
    rw [hd]
    rw [hsame] at writable
    exact writable
  · rw [if_neg hsame]
    have workVars : (Content.derivation (d.citing hyps)).NotesWorkVars := by
      intro d' hd'
      cases hd'
      exact h.notesWorkVars d hd
    have hstep : s.content.step? = some d.toStep := by
      rw [hd]
      rfl
    exact h.relead (c := .derivation (d.citing hyps)) writable hstep rfl rfl workVars

/-- A step that is inserted is legible. -/
theorem legible_inserted (db : Database) (id : StatementId) {d : Derivation} {formula : Formula}
    (writable : d.Writable) (hformula : d.formula = some formula) (workVars : d.NotesWorkVars)
    (hplain : formula.IsPlain) :
    (Worksheet.newStatement id (.derivation d) (d.insertedText formula)).Legible db := by
  have hnotes : (Content.derivation d).NotesWorkVars := by
    intro d' hd'
    cases hd'
    exact workVars
  obtain ⟨lead, hlead, hne, solid, said⟩ :=
    Content.Writable.exists_lead (c := .derivation d) writable rfl hnotes
  replace hlead : d.lead = lead := Option.some.inj hlead
  have hending : ∀ c ∈ ['\n'], isSeparator c = true := by
    intro c hc
    rw [List.mem_singleton.mp hc]
    rfl
  obtain ⟨apart, indented, ends, blanks, hwords⟩ :=
    Formula.tail_of_solid hplain.symbols hending rfl
  let tail := ' ' :: formula.text ++ ['\n']
  have htext : d.insertedText formula = lead ++ tail := by
    rw [Derivation.insertedText, hlead]
    exact List.append_assoc lead (' ' :: formula.text) ['\n']
  -- the lead reaches up to the first blank, which is the space after it
  have hsolid : ∀ c ∈ lead, (!isBlank c) = true := by
    intro c hc
    rw [solid c hc]
    rfl
  have hstop : ¬ (!isBlank ' ') = true := by decide
  have hnew : Worksheet.newStatement id (.derivation d) (d.insertedText formula) =
      { id := id, content := .derivation d, lead := lead, tail := tail } := by
    unfold Worksheet.newStatement
    rw [htext, List.takeWhile_append_of_pos hsolid, List.dropWhile_append_of_pos hsolid]
    show Statement.mk _ _ (lead ++ (' ' :: (formula.text ++ ['\n'])).takeWhile (!isBlank ·))
      ((' ' :: (formula.text ++ ['\n'])).dropWhile (!isBlank ·)) _ _ = _
    rw [List.takeWhile_cons_of_neg (p := fun c => !isBlank c) hstop,
      List.dropWhile_cons_of_neg (p := fun c => !isBlank c) hstop, List.append_nil]
    rfl
  have hsymbols : formulaOfWords (wordsOf tail) = some formula := by
    show formulaOfWords (wordsOf (' ' :: formula.text ++ ['\n'])) = some formula
    rw [hwords]
    exact hplain.formulaOfWords_symbols
  rw [hnew]
  refine ⟨⟨⟨hne, solid.not_separator, apart, indented⟩, fun _ => ends, ?_, ?_⟩, writable⟩
  · intro x hx hblank
    rcases List.mem_append.mp hx with hx | hx
    · rw [solid x hx] at hblank
      cases hblank
    · exact blanks x hx hblank
  · exact said db _ _ (hformula.trans hsymbols.symm)

end Statement

end ProofSheet
