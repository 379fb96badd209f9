import ProofSheet.Proofs.Reload

set_option autoImplicit false

/-! # Incomplete steps after a reload

An edit may give a step a blank label, the label `?` or a formula without symbols. The worksheet
keeps what it is given, but the text that is written for it says that the label or the formula is
missing. So a worksheet that has been edited like that does not agree with its text. The worksheet
that its text gives (`Worksheet.given`) does, whatever labels and formulas are set
(`Worksheet.Readable`), and this is the one that loading the output comes to. The step is incomplete
there even if it was not before (`Worksheet.incompleteIds_reload_iff`).
-/

namespace ProofSheet

/-! ## What the text gives -/

/-- The step as its text gives it: a label that is blank or `?` is missing, and so is a formula
without symbols. -/
def Step.given (s : Step) : Step :=
  { s with
    ref := s.ref.bind readLabel
    formula := s.formula.bind (formulaOfWords ·.symbols) }

/-- The derivation step as its text gives it. -/
def Derivation.given (d : Derivation) : Derivation := { d with toStep := d.toStep.given }

/-- What a statement says, as its text gives it. -/
def Content.given (c : Content) : Content := c.mapStep Step.given

/-- The statement as its text gives it. -/
def Statement.given (s : Statement) : Statement := s.mapStep Step.given

/-- The worksheet as its text gives it. -/
def Worksheet.given (ws : Worksheet) : Worksheet :=
  { ws with statements := ws.statements.map Statement.given }

/-- The label of a step, if there is one, has no blanks. -/
def Content.HasSolidLabel (c : Content) : Prop :=
  ∀ step l, c.step? = some step → step.ref = some l → IsSolid l

/-- The step has a label or a formula that is written like a missing one. -/
def Derivation.HasBlank (d : Derivation) : Prop :=
  d.ref = some [] ∨ d.ref = some ['?'] ∨ d.formula = some ⟨[]⟩

instance (d : Derivation) : Decidable d.HasBlank :=
  inferInstanceAs (Decidable (d.ref = some [] ∨ d.ref = some ['?'] ∨ d.formula = some ⟨[]⟩))

theorem formulaOfWords_bind (words : List Text) :
    (formulaOfWords words).bind (formulaOfWords ·.symbols) = formulaOfWords words := by
  cases words <;> rfl

theorem readLabel_eq_none {l : Text} (h : IsSolid l) : readLabel l = none ↔ l = [] ∨ l = ['?'] := by
  unfold readLabel
  dsimp only
  rw [h.trim]
  by_cases hmissing : l = [] ∨ l = ['?']
  · simp [hmissing]
  · simp [hmissing]

theorem formulaOfWords_eq_none {words : List Text} : formulaOfWords words = none ↔ words = [] := by
  cases words <;> simp [formulaOfWords]

/-- The text gives an incomplete step if the step is incomplete, or has a label or a formula that is
written like a missing one. -/
theorem Derivation.isIncomplete_given {d : Derivation} (solid : ∀ l, d.ref = some l → IsSolid l) :
    d.given.isIncomplete = true ↔ d.isIncomplete = true ∨ d.HasBlank := by
  have hlabel : (d.ref.bind readLabel).isNone = true ↔
      d.ref.isNone = true ∨ d.ref = some [] ∨ d.ref = some ['?'] := by
    cases hl : d.ref with
    | none => simp
    | some l => simp [readLabel_eq_none (solid l hl)]
  have hformula : (d.formula.bind (formulaOfWords ·.symbols)).isNone = true ↔
      d.formula.isNone = true ∨ d.formula = some ⟨[]⟩ := by
    cases hf : d.formula with
    | none => simp
    | some f =>
        obtain ⟨symbols⟩ := f
        simp [formulaOfWords_eq_none]
  show ((d.ref.bind readLabel).isNone || (d.formula.bind (formulaOfWords ·.symbols)).isNone ||
    d.hasWorkVars || d.hyps.any (·.step?.isNone)) = true ↔ _
  rw [Bool.or_eq_true, Bool.or_eq_true, Bool.or_eq_true, hlabel, hformula, isIncomplete,
    Bool.or_eq_true, Bool.or_eq_true, Bool.or_eq_true, HasBlank]
  grind only

/-- The mark for work variables is right in both steps or in none. -/
theorem notesWorkVars_given {d : Derivation} : d.given.NotesWorkVars ↔ d.NotesWorkVars := by
  have hsame : (d.formula.bind (formulaOfWords ·.symbols)).any Formula.hasWorkVars =
      d.formula.any Formula.hasWorkVars := by
    cases d.formula with
    | none => rfl
    | some f => exact hasWorkVars_formulaOfWords f
  show d.hasWorkVars = (d.formula.bind (formulaOfWords ·.symbols)).any Formula.hasWorkVars ↔ _
  rw [hsame]
  rfl

namespace Content

theorem step?_mapStep (f : Step → Step) (c : Content) : (c.mapStep f).step? = c.step?.map f := by
  cases c <;> rfl

theorem mapStep_eq_self {f : Step → Step} {c : Content}
    (h : ∀ s, c.step? = some s → f s = s) : c.mapStep f = c := by
  cases c with
  | hypothesis s => rw [mapStep, h s rfl]
  | derivation d => rw [mapStep, h d.toStep rfl]
  | _ => rfl

/-- A changed step has the label that the change gives it. -/
theorem hasSolidLabel_mapStep {f : Step → Step} {c : Content}
    (h : ∀ s l, c.step? = some s → (f s).ref = some l → IsSolid l) :
    (c.mapStep f).HasSolidLabel := by
  intro step l hstep hl
  rw [step?_mapStep, Option.map_eq_some_iff] at hstep
  obtain ⟨s, hs, rfl⟩ := hstep
  exact h s l hs hl

/-- What the text gives is a revision of the content. -/
theorem revisedTo_given (c : Content) : c.RevisedTo c.given := by
  cases c with
  | hypothesis s => exact .hypothesis rfl
  | derivation d => exact .derivation rfl rfl (Or.inl rfl) notesWorkVars_given.mpr
  | _ => exact .refl _

theorem RevisedTo.given {c c' : Content} (h : c.RevisedTo c') : c.given.RevisedTo c'.given := by
  cases h with
  | refl => exact .refl _
  | hypothesis id => exact .hypothesis id
  | derivation id hyps localRef workVars =>
      refine .derivation id hyps localRef fun h => ?_
      exact notesWorkVars_given.mpr (workVars (notesWorkVars_given.mp h))

theorem standing_given (c : Content) : c.given.standing = c.standing := by
  cases c <;> rfl

end Content

namespace Statement

variable {s : Statement} {db : Database} {step : Step}

theorem content_given (s : Statement) : s.given.content = s.content.given := rfl

theorem text_given (s : Statement) : s.given.text = s.text := rfl

theorem stepId?_given (s : Statement) : s.given.stepId? = s.stepId? :=
  (Content.revisedTo_given s.content).stepId?

theorem step?_given (hstep : s.content.step? = some step) :
    s.given.content.step? = some step.given := by
  rw [content_given, Content.given, Content.step?_mapStep, hstep, Option.map_some]

/-- The text of a legible statement gives the statement. -/
theorem Legible.given_eq (h : s.Legible db) : s.given = s := by
  refine mapStep_eq_self (Content.mapStep_eq_self fun step hstep => ?_)
  have hlabel : step.ref.bind readLabel = step.ref := by
    cases hl : step.ref with
    | none => rfl
    | some l => exact (h.label hstep hl).read
  have hformula : step.formula.bind (formulaOfWords ·.symbols) = step.formula := by
    rw [h.formula_eq hstep]
    exact formulaOfWords_bind _
  rw [Step.given, hlabel, hformula]

theorem isIncomplete_shown (s : Statement) : s.shown.isIncomplete = s.isIncomplete := by
  obtain ⟨id, content, lead, tail, start, position⟩ := s
  cases content <;> rfl

theorem stepId?_shown (s : Statement) : s.shown.stepId? = s.stepId? := by
  obtain ⟨id, content, lead, tail, start, position⟩ := s
  cases content <;> rfl

/-- Only derivation steps are incomplete. -/
theorem isIncomplete_iff :
    s.isIncomplete = true ↔ ∃ d, s.content = .derivation d ∧ d.isIncomplete = true := by
  unfold isIncomplete derivation?
  cases s.content <;> simp [Content.derivation?]

theorem isSome_stepId?_of_isIncomplete (h : s.isIncomplete = true) : s.stepId?.isSome = true := by
  obtain ⟨d, hd, -⟩ := isIncomplete_iff.mp h
  rw [stepId?_eq, hd]
  rfl

theorem isIncomplete_given (label : s.content.HasSolidLabel) :
    s.given.isIncomplete = true ↔
      s.isIncomplete = true ∨ ∃ d, s.content = .derivation d ∧ d.HasBlank := by
  rw [isIncomplete_iff, isIncomplete_iff, content_given]
  cases hc : s.content with
  | derivation d =>
      have hgiven := d.isIncomplete_given fun l hl => label d.toStep l (by rw [hc]; rfl) hl
      have hcontent : (Content.derivation d).given = .derivation d.given := rfl
      simp [hcontent, hgiven]
  | _ => simp [Content.given, Content.mapStep]

/-- The text gives the label that is read from the last field. -/
theorem given_withRef (label : Text) (s : Statement) :
    (s.withRef label).given = (s.given.withRef label).withReadRef (readLabel label) := by
  obtain ⟨id, content, lead, tail, start, position⟩ := s
  cases content <;> rfl

/-- The text gives the formula that is read from the words. -/
theorem given_withFormula (formula : Formula) (s : Statement) :
    (s.withFormula formula).given =
      (s.given.withFormula formula).withReadFormula (formulaOfWords formula.symbols) := by
  obtain ⟨id, content, lead, tail, start, position⟩ := s
  cases content <;> rfl

theorem hasSolidLabel_withRef {label : Text} (solid : IsSolid label) (s : Statement) :
    (s.withRef label).content.HasSolidLabel :=
  Content.hasSolidLabel_mapStep fun _ _ _ hl => Option.some.inj hl ▸ solid

theorem hasSolidLabel_withFormula (formula : Formula) (h : s.content.HasSolidLabel) :
    (s.withFormula formula).content.HasSolidLabel := by
  refine Content.hasSolidLabel_mapStep fun step l hstep hl => h step l ?_ hl
  rw [← hstep]
  show _ = (s.content.mapDerivation _).step?
  cases s.content <;> rfl

end Statement

/-! ## Filling in labels and formulas -/

/-- The edit sets a label that can stand in a lead, though it may be blank or `?`, or a formula that
is read from a text, though it may have no symbols. -/
def Edit.FillsIn : Edit → Prop
  | .setRef _ label => IsSolid label ∧ ':' ∉ label ∧ label.head? ≠ some '#'
  | .setFormula _ formula => ∃ t, formula = Formula.ofText t
  | _ => False

theorem map_given_respanFrom (offset line : Nat) (ss : List Statement) :
    (respanFrom offset line ss).map Statement.given =
      respanFrom offset line (ss.map Statement.given) := by
  induction ss generalizing offset line with
  | nil => rfl
  | cons s rest ih =>
      rw [respanFrom, List.map_cons, List.map_cons, respanFrom, ih, Statement.text_given]
      rfl

/-- If a filter keeps all that a stronger one keeps, what is known of the elements that are kept is
the same exactly if the two agree. -/
theorem filterMap_filter_eq_iff {α β : Type} {f : α → Option β} {p q : α → Bool} {l : List α}
    (stronger : ∀ x ∈ l, p x = true → q x = true)
    (known : ∀ x ∈ l, q x = true → (f x).isSome = true) :
    (l.filter q).filterMap f = (l.filter p).filterMap f ↔ ∀ x ∈ l, q x = true → p x = true := by
  have hfilter : l.filter p = (l.filter q).filter p := by
    rw [List.filter_filter]
    refine List.filter_congr fun x hx => ?_
    rw [Bool.eq_iff_iff, Bool.and_eq_true]
    exact ⟨fun hp => ⟨hp, stronger x hx hp⟩, And.left⟩
  have length_of : ∀ ks : List α, ks.Sublist (l.filter q) →
      (ks.filterMap f).length = ks.length := by
    intro ks hks
    rw [List.length_filterMap_eq_countP, List.countP_eq_length]
    intro x hx
    obtain ⟨hmem, hq⟩ := List.mem_filter.mp (hks.subset hx)
    exact known x hmem hq
  have hsub : (l.filter p).Sublist (l.filter q) := hfilter ▸ List.filter_sublist
  constructor
  · intro heq x hx hq
    have hlen := congrArg List.length heq
    rw [length_of _ (List.Sublist.refl _), length_of _ hsub] at hlen
    have hmem : x ∈ l.filter p := by
      rw [hsub.eq_of_length hlen.symm]
      exact List.mem_filter.mpr ⟨hx, hq⟩
    exact (List.mem_filter.mp hmem).2
  · intro h
    rw [List.filter_congr fun x hx => Bool.eq_iff_iff.mpr ⟨h x hx, stronger x hx⟩]

namespace Worksheet

variable {ws ws' : Worksheet} {db : Database} {st : Settings}

/-- The names of the incomplete steps, in order. -/
def incompleteIds (ws : Worksheet) : List StepId := ws.incomplete.filterMap Statement.stepId?

theorem output_given (ws : Worksheet) : ws.given.output = ws.output := by
  rw [output, given, List.flatMap_map]
  rfl

/-- The worksheet that its text gives is a revision of it. -/
theorem revises_given (ws : Worksheet) : ws.Revises ws.given :=
  .of_map Statement.given (fun _ => rfl) (fun s => s.content.revisedTo_given) rfl

theorem map_standing_given (ws : Worksheet) :
    ws.given.contents.map Content.standing = ws.contents.map Content.standing := by
  rw [contents, contents, given, List.map_map, List.map_map, List.map_map]
  exact List.map_congr_left fun s _ => s.content.standing_given

/-- The worksheet agrees with its text but for missing labels and formulas. -/
structure Readable (db : Database) (ws : Worksheet) : Prop where
  given : ws.given.Agrees db
  labels : ∀ c ∈ ws.contents, c.HasSolidLabel

theorem readable_load {request : Request} {text : Text}
    (blanks : ∀ x ∈ text, isBlank x = true → isSeparator x = true)
    (clean : (load db st request text).broken = false) :
    (load db st request text).Readable db := by
  have agrees := agrees_load blanks clean
  have hgiven : (load db st request text).given = load db st request text := by
    have hstatements : (load db st request text).statements.map Statement.given =
        (load db st request text).statements := by
      conv_rhs => rw [← List.map_id (load db st request text).statements]
      exact List.map_congr_left fun s hs => (agrees.legible s hs).given_eq
    rw [Worksheet.given, hstatements]
  refine ⟨hgiven.symm ▸ agrees, fun c hc step l hstep hl => ?_⟩
  obtain ⟨s, hs, rfl⟩ := List.mem_map.mp hc
  exact ((agrees.legible s hs).label hstep hl).solid

/-- A worksheet stays readable if the text of a changed step gives a legible one. -/
theorem Readable.reviseAt (h : ws.Readable db) {before after : List Statement} {s : Statement}
    (s' : Statement) (hss : ws.statements = before ++ s :: after) (hid : s'.id = s.id)
    (hrevised : s.content.RevisedTo s'.content)
    (hstanding : s'.content.standing = s.content.standing) (legible : s'.given.Legible db)
    (label : s'.content.HasSolidLabel) :
    (respan { ws with statements := before ++ s' :: after }).Readable db where
  given := by
    have statements_of : ∀ t : Statement, (before ++ t :: after).map Statement.given =
        before.map Statement.given ++ t.given :: after.map Statement.given := by
      intro t
      rw [List.map_append, List.map_cons]
    have hgiven : ws.given.statements =
        before.map Statement.given ++ s.given :: after.map Statement.given := by
      rw [Worksheet.given, hss, statements_of]
    have hnew : (respan { ws with statements := before ++ s' :: after }).given =
        respan
          { ws.given with
            statements :=
              before.map Statement.given ++ s'.given :: after.map Statement.given } := by
      unfold respan Worksheet.given
      dsimp only
      rw [map_given_respanFrom, statements_of]
    rw [hnew]
    refine h.given.reviseAt s'.given hgiven hid hrevised.given legible ?_ (entries_respan _)
      ⟨rfl, rfl, rfl, rfl, rfl, rfl⟩ rfl
    rw [Statement.content_given, Statement.content_given, Content.standing_given,
      Content.standing_given]
    exact hstanding
  labels c hc := by
    rw [contents_respan, contents, List.map_append, List.map_cons] at hc
    have old : ∀ t ∈ ws.statements, t.content.HasSolidLabel := fun t ht =>
      h.labels t.content (mem_contents ht)
    rw [hss, List.forall_mem_append, List.forall_mem_cons] at old
    rcases List.mem_append.mp hc with hc | hc
    · obtain ⟨t, ht, rfl⟩ := List.mem_map.mp hc
      exact old.1 t ht
    · rcases List.mem_cons.mp hc with rfl | hc
      · exact label
      · obtain ⟨t, ht, rfl⟩ := List.mem_map.mp hc
        exact old.2.2 t ht

/-- Filling in a label or a formula keeps a worksheet readable. -/
theorem Readable.edit {e : Edit} (h : ws.Readable db) (fills : e.FillsIn)
    (granted : ws.applyEdit st e = .ok ws') : ws'.Readable db := by
  have legible_of : ∀ s ∈ ws.statements, s.given.Legible db := fun s hs =>
    h.given.legible s.given (List.mem_map_of_mem hs)
  cases e with
  | setRef step label =>
      obtain ⟨solid, no_colon, not_local⟩ := fills
      obtain ⟨before, s, after, split, rfl⟩ := setRef_ok granted
      obtain ⟨hs, found, hfound⟩ := split.exists_step
      refine h.reviseAt (s.withRef label) split.statements rfl (s.revised_withRef label)
        (s.standing_withRef label) ?_ (s.hasSolidLabel_withRef solid)
      rw [Statement.given_withRef]
      exact (legible_of s hs).withSpelling (Statement.step?_given hfound)
        ⟨solid, no_colon, not_local, rfl⟩
  | setFormula step formula =>
      obtain ⟨t, rfl⟩ := fills
      obtain ⟨before, s, after, split, rfl⟩ := setFormula_ok granted
      obtain ⟨hs, found, hfound⟩ := split.exists_step
      refine h.reviseAt (s.withFormula _) split.statements rfl (s.revised_withFormula _)
        (s.standing_withFormula _) ?_
        (s.hasSolidLabel_withFormula _ (h.labels s.content (mem_contents hs)))
      rw [Statement.given_withFormula]
      exact (legible_of s hs).withWords (Statement.step?_given hfound)
        fun x hx => solid_of_mem_words hx
  | _ => cases fills

/-- Filling in labels and formulas one after the other keeps a worksheet readable. -/
theorem Readable.applyInOrder {edits : List Edit} (h : ws.Readable db)
    (fills : ∀ e ∈ edits, e.FillsIn) : (ws.applyInOrder st edits).1.Readable db := by
  induction edits generalizing ws with
  | nil => exact h
  | cons e rest ih =>
      obtain ⟨hfills, hrest⟩ := List.forall_mem_cons.mp fills
      rw [Worksheet.applyInOrder]
      cases granted : ws.applyEdit st e with
      | ok ws' => exact ih (h.edit hfills granted) hrest
      | error r => exact h

theorem Readable.levelled (h : ws.Readable db) : ws.Levelled :=
  h.given.levelled.of_standing ws.map_standing_given.symm

theorem Readable.applyEdits {edits : List Edit} (h : ws.Readable db)
    (fills : ∀ e ∈ edits, e.FillsIn) : (ws.applyEdits st edits).1.Readable db := by
  unfold Worksheet.applyEdits
  by_cases hbroken : ws.broken = true
  · rw [if_pos hbroken]
    exact h
  · have readable : (ws.applyInOrder st edits).1.Readable db := h.applyInOrder fills
    rw [if_neg hbroken]
    cases happly : ws.applyInOrder st edits with
    | mk ws' refusal =>
        rw [happly] at readable
        cases refusal with
        | some r => exact readable
        | none =>
            have hlevels : ws'.measureLevels = ws' := readable.levelled.measureLevels_eq
            rw [← hlevels] at readable
            exact readable

/-! ## Incomplete steps -/

/-- Which steps are incomplete is a matter of what the statements show. -/
theorem incompleteIds_of_shown
    (h : ws'.statements.map Statement.shown = ws.statements.map Statement.shown) :
    ws'.incompleteIds = ws.incompleteIds := by
  have shown_of : ∀ ss : List Statement,
      (ss.filter Statement.isIncomplete).filterMap Statement.stepId? =
        ((ss.map Statement.shown).filter Statement.isIncomplete).filterMap Statement.stepId? := by
    intro ss
    have isIncomplete_shown : Statement.isIncomplete ∘ Statement.shown = Statement.isIncomplete :=
      funext Statement.isIncomplete_shown
    have stepId?_shown : Statement.stepId? ∘ Statement.shown = Statement.stepId? :=
      funext Statement.stepId?_shown
    rw [List.filter_map, List.filterMap_map, isIncomplete_shown, stepId?_shown]
  rw [incompleteIds, incompleteIds, incomplete, incomplete, shown_of ws'.statements, h,
    ← shown_of ws.statements]

theorem incompleteIds_given (ws : Worksheet) :
    ws.given.incompleteIds =
      (ws.statements.filter (·.given.isIncomplete)).filterMap Statement.stepId? := by
  have hids : Statement.stepId? ∘ Statement.given = Statement.stepId? :=
    funext Statement.stepId?_given
  rw [incompleteIds, incomplete, given, List.filter_map, List.filterMap_map, hids]
  rfl

/-- The text gives the same incomplete steps exactly if every step with a label or a formula that is
written like a missing one is incomplete. -/
theorem Readable.incompleteIds_given_eq_iff (h : ws.Readable db) :
    ws.given.incompleteIds = ws.incompleteIds ↔
      ∀ d, .derivation d ∈ ws.contents → d.HasBlank → d.isIncomplete = true := by
  have given_iff : ∀ s ∈ ws.statements, s.given.isIncomplete = true ↔
      s.isIncomplete = true ∨ ∃ d, s.content = .derivation d ∧ d.HasBlank := fun s hs =>
    s.isIncomplete_given (h.labels s.content (mem_contents hs))
  rw [incompleteIds_given, incompleteIds, incomplete, filterMap_filter_eq_iff]
  · constructor
    · intro hsame d hd hblank
      obtain ⟨s, hs, hsd⟩ := List.mem_map.mp hd
      have hincomplete := hsame s hs ((given_iff s hs).mpr (Or.inr ⟨d, hsd, hblank⟩))
      obtain ⟨d', hd', hincomplete⟩ := Statement.isIncomplete_iff.mp hincomplete
      rw [hsd] at hd'
      cases hd'
      exact hincomplete
    · intro hall s hs hgiven
      rcases (given_iff s hs).mp hgiven with hincomplete | ⟨d, hd, hblank⟩
      · exact hincomplete
      · have hmem : .derivation d ∈ ws.contents := hd ▸ mem_contents hs
        exact Statement.isIncomplete_iff.mpr ⟨d, hd, hall d hmem hblank⟩
  · exact fun s hs hincomplete => (given_iff s hs).mpr (Or.inl hincomplete)
  · intro s _ hgiven
    rw [← s.stepId?_given]
    exact Statement.isSome_stepId?_of_isIncomplete hgiven

/-- A worksheet that loads cleanly from a text without odd blanks is loaded again from its output
after labels and formulas have been filled in. The steps that are incomplete then are those that the
text gives as incomplete: they are the same as before exactly if every step with a label or a
formula that is written like a missing one is incomplete anyway. -/
theorem incompleteIds_reload_iff {request : Request} {text : Text}
    (blanks : ∀ x ∈ text, isBlank x = true → isSeparator x = true)
    (clean : (load db st request text).broken = false) {edits : List Edit}
    (fills : ∀ e ∈ edits, e.FillsIn) :
    let edited := ((load db st request text).applyEdits st edits).1
    let reloaded := load db st {} edited.output
    reloaded.broken = false ∧ reloaded.incompleteIds = edited.given.incompleteIds ∧
      (reloaded.incompleteIds = edited.incompleteIds ↔
        ∀ d, .derivation d ∈ edited.contents → d.HasBlank → d.isIncomplete = true) := by
  intro edited reloaded
  have readable : edited.Readable db := (readable_load blanks clean).applyEdits fills
  obtain ⟨proved, hshaped⟩ := shaped_afterCalls clean [.edits st edits]
  have hgiven : edited.given.Shaped (.closed proved) :=
    hshaped.revise edited.revises_given ⟨rfl, rfl, rfl, rfl, rfl, rfl⟩
  obtain ⟨hbroken, hshown⟩ := readable.given.reload hgiven st
  rw [output_given] at hbroken hshown
  have hids : reloaded.incompleteIds = edited.given.incompleteIds := incompleteIds_of_shown hshown
  refine ⟨hbroken, hids, ?_⟩
  rw [hids]
  exact readable.incompleteIds_given_eq_iff

/-- Edits that give the last step of the short worksheet the label `?` and a formula with a work
variable, and the step before it another label. -/
def fillingEdits : List Edit :=
  [.setRef .qed ['?'], .setFormula .qed (.ofText ['|', '-', ' ', '&', 'W', '1']),
    .setRef (.number 2) ['x']]

theorem incompleteIds_reload_iff_shortText :
    (∀ x ∈ shortText, isBlank x = true → isSeparator x = true) ∧
      (load .empty {} {} shortText).broken = false ∧ (∀ e ∈ fillingEdits, e.FillsIn) ∧
      (load .empty {} {}
          ((load .empty {} {} shortText).applyEdits {} fillingEdits).1.output).incompleteIds =
        ((load .empty {} {} shortText).applyEdits {} fillingEdits).1.incompleteIds := by
  have fills : ∀ e ∈ fillingEdits, e.FillsIn := by
    have label_of : ∀ step, ∀ label ∈ [['?'], ['x']], (Edit.setRef step label).FillsIn := by
      intro step
      show ∀ label ∈ [['?'], ['x']], IsSolid label ∧ ':' ∉ label ∧ label.head? ≠ some '#'
      decide
    refine List.forall_mem_cons.mpr ⟨label_of _ _ (by decide), List.forall_mem_cons.mpr
      ⟨⟨_, rfl⟩, List.forall_mem_singleton.mpr (label_of _ _ (by decide))⟩⟩
  refine ⟨shortText_blanks, shortText_loads, fills, ?_⟩
  refine (incompleteIds_reload_iff shortText_blanks shortText_loads fills).2.2.mpr fun d hd => ?_
  -- the work variable makes the step with the label `?` incomplete
  have hall : ∀ c ∈ ((load .empty {} {} shortText).applyEdits {} fillingEdits).1.contents,
      ∀ d ∈ c.derivation?, d.HasBlank → d.isIncomplete = true := by
    decide +kernel
  exact hall _ hd d rfl

/-- A blank label completes a step for the worksheet, but not for its text. -/
theorem incompleteIds_reload_blankLabel :
    let edited := ((load .empty {} {} shortText).applyEdits {} [.setRef (.number 2) []]).1
    ((load .empty {} {} shortText).applyEdits {} [.setRef (.number 2) []]).2 = none ∧
      edited.incompleteIds = [.qed] ∧
      (load .empty {} {} edited.output).incompleteIds = [.number 2, .qed] := by
  decide +kernel

end Worksheet

end ProofSheet
