import ProofSheet.Proofs.Edits
import Mathlib.Data.List.Forall2

set_option autoImplicit false

/-! # What edits come to

As far as the shape of a worksheet, the names of its steps and their citations are concerned,
there are few ways in which a granted edit can change it (`Worksheet.Changes`): a step is revised
(`Content.RevisedTo`), or a statement is added in a place that is known, or the generated proof
is replaced.
-/

namespace ProofSheet

/-! ## Lists that are related element by element -/

theorem exists_mem_of_forall₂ {α β : Type} {R : α → β → Prop} {l : List α} {l' : List β}
    (h : List.Forall₂ R l l') {b : β} (hb : b ∈ l') : ∃ a ∈ l, R a b := by
  induction h with
  | nil => cases hb
  | cons hR _ ih =>
      rcases List.mem_cons.mp hb with rfl | hmem
      · exact ⟨_, List.mem_cons_self, hR⟩
      · obtain ⟨a, ha, hab⟩ := ih hmem
        exact ⟨a, List.mem_cons_of_mem _ ha, hab⟩

theorem map_eq_of_forall₂ {α β γ : Type} {R : α → β → Prop} {f : α → γ} {g : β → γ} {l : List α}
    {l' : List β} (h : List.Forall₂ R l l') (hR : ∀ a b, R a b → g b = f a) :
    l'.map g = l.map f := by
  induction h with
  | nil => rfl
  | cons hab _ ih => rw [List.map_cons, List.map_cons, hR _ _ hab, ih]

/-! ## Revisions -/

/-- What a statement says is kept, but for the label, the formula, the level and the status of a
step. A local reference may end. -/
inductive Content.RevisedTo : Content → Content → Prop where
  | refl (c : Content) : RevisedTo c c
  | hypothesis {s s' : Step} (id : s'.id = s.id) : RevisedTo (.hypothesis s) (.hypothesis s')
  | derivation {d d' : Derivation} (id : d'.id = d.id) (hyps : d'.hyps = d.hyps)
      (localRef : d'.localRef = d.localRef ∨ d'.localRef = none)
      (workVars : d.NotesWorkVars → d'.NotesWorkVars) :
      RevisedTo (.derivation d) (.derivation d')

namespace Content

theorem RevisedTo.stepId? {c c' : Content} (h : c.RevisedTo c') : c'.stepId? = c.stepId? := by
  cases h with
  | refl => rfl
  | hypothesis hid => exact congrArg some hid
  | derivation hid => exact congrArg some hid

theorem RevisedTo.of_mapStep (f : Step → Step) (hid : ∀ s, (f s).id = s.id)
    (hformula : ∀ s, (f s).formula = s.formula) (c : Content) : c.RevisedTo (c.mapStep f) := by
  cases c with
  | hypothesis s => exact .hypothesis (hid s)
  | derivation d =>
      refine .derivation (hid d.toStep) rfl (Or.inl rfl) fun h => ?_
      show d.hasWorkVars = (f d.toStep).formula.any Formula.hasWorkVars
      rw [hformula]
      exact h
  | _ => exact .refl _

end Content

namespace Statement

theorem revised_withRef (label : Text) (s : Statement) :
    s.content.RevisedTo (s.withRef label).content := by
  obtain ⟨id, content, lead, tail, start, position⟩ := s
  cases content with
  | hypothesis s => exact .hypothesis rfl
  | derivation d => exact .derivation rfl rfl (Or.inr rfl) fun h => h
  | _ => exact .refl _

theorem revised_withFormula (formula : Formula) (s : Statement) :
    s.content.RevisedTo (s.withFormula formula).content := by
  obtain ⟨id, content, lead, tail, start, position⟩ := s
  cases content with
  | hypothesis s => exact .hypothesis rfl
  | derivation d => exact .derivation rfl rfl (Or.inl rfl) fun _ => rfl
  | _ => exact .refl _

theorem revised_withStatus (unification : Unification) (distinctCheck : DistinctCheck)
    (proof : Option (List Text)) (s : Statement) :
    s.content.RevisedTo (s.withStatus unification distinctCheck proof).content := by
  obtain ⟨id, content, lead, tail, start, position⟩ := s
  cases content with
  | derivation d => exact .derivation rfl rfl (Or.inl rfl) fun h => h
  | _ => exact .refl _

end Statement

/-- The edit inserts a step. -/
def Edit.isInsertStep (e : Edit) : Bool := e matches .insertStep _ _ _ _

/-- Records the level of a step. -/
def Levels.record (levels : Levels) (s : Step) : Step :=
  { s with level := (levels.lookup s.id).getD 0 }

namespace Worksheet

variable {ws ws' : Worksheet} {st : Settings}

/-- Two worksheets index the same step `qed`, as many hypotheses, and the same numbers. -/
structure SameIndex (ws ws' : Worksheet) : Prop where
  qed : ws'.qed = ws.qed
  hypothesisCount : ws'.hypothesisCount = ws.hypothesisCount
  greatestStep : ws'.greatestStep = ws.greatestStep
  nextId : ws'.nextId = ws.nextId
  theoremLabel : ws'.theoremLabel = ws.theoremLabel
  broken : ws'.broken = ws.broken

/-- The statements of a worksheet are revised one by one. -/
def Revises (ws ws' : Worksheet) : Prop :=
  List.Forall₂ (fun e e' => e'.1 = e.1 ∧ e.2.RevisedTo e'.2) ws.entries ws'.entries

/-- What a granted edit does to the statements, apart from their texts. -/
inductive Changes (ws : Worksheet) : Edit → Worksheet → Prop where
  | revise {e : Edit} {ws' : Worksheet} (not_insert : e.isInsertStep = false)
      (revises : ws.Revises ws') (same : ws.SameIndex ws') : Changes ws e ws'
  | insertStep {ws' : Worksheet} {step : StepId} {hyps : List StepId} {ref : Option Text}
      {formula : Formula} {before after : List Statement} {s : Statement}
      (split : ws.SplitsAt step before s after)
      (no_hypothesis : ∀ t ∈ s :: after, t.isHypothesis = false)
      (cited : ∀ id ∈ hyps, id ∈ before.filterMap Statement.stepId?)
      (entries : ws'.entries =
        before.map Statement.entry ++
          (ws.nextId, .derivation (.inserted ws.nextStepNumber hyps ref formula)) ::
            (s :: after).map Statement.entry)
      (same : SameIndex { ws with nextId := ws.nextId + 1, greatestStep := ws.nextStepNumber } ws') :
      Changes ws (.insertStep step hyps ref formula) ws'
  | insertDistinctVars {ws' : Worksheet} {vars : List Text} {before after : List Statement}
      (split : ws.statements = before ++ after) (slot : ws.BeginsSlot after)
      (entries : ws'.entries =
        before.map Statement.entry ++ (ws.nextId, .distinctVars vars) ::
          after.map Statement.entry)
      (same : SameIndex { ws with nextId := ws.nextId + 1 } ws') :
      Changes ws (.insertDistinctVars vars) ws'
  | insertProof {ws' : Worksheet} {proof : CompressedProof} {before after : List Statement}
      (split : ws.statements = before ++ after) (first : ∀ t ∈ ws.statements, t.isProof = false)
      (slot : ws.BeginsSlot after)
      (entries : ws'.entries =
        before.map Statement.entry ++ (ws.nextId, .proof (.compressed proof)) ::
          after.map Statement.entry)
      (same : SameIndex { ws with nextId := ws.nextId + 1 } ws') :
      Changes ws (.insertProof proof) ws'
  | replaceProof {ws' : Worksheet} {proof : CompressedProof} {before after : List Statement}
      {old : Statement} (split : ws.statements = before ++ old :: after)
      (hold : old.isProof = true)
      (entries : ws'.entries =
        before.map Statement.entry ++ (ws.nextId, .proof (.compressed proof)) ::
          after.map Statement.entry)
      (same : SameIndex { ws with nextId := ws.nextId + 1 } ws') :
      Changes ws (.insertProof proof) ws'

theorem revises_of_split {before after : List Statement} {s : Statement} (s' : Statement)
    (hss : ws.statements = before ++ s :: after) (hentry : s'.id = s.id)
    (hcontent : s.content.RevisedTo s'.content)
    (hentries : ws'.entries = (before ++ s' :: after).map Statement.entry) : ws.Revises ws' := by
  rw [Revises, hentries, entries, hss, List.map_append, List.map_append, List.map_cons,
    List.map_cons]
  have refl : ∀ l : List (StatementId × Content),
      List.Forall₂ (fun e e' => e'.1 = e.1 ∧ e.2.RevisedTo e'.2) l l :=
    fun l => List.forall₂_same.mpr fun e _ => ⟨rfl, .refl e.2⟩
  exact List.rel_append (refl _) (.cons ⟨hentry, hcontent⟩ (refl _))

theorem Revises.of_map (f : Statement → Statement) (hentry : ∀ s, (f s).id = s.id)
    (hcontent : ∀ s : Statement, s.content.RevisedTo (f s).content)
    (hss : ws'.statements = ws.statements.map f) : ws.Revises ws' := by
  rw [Revises, entries, entries, hss, List.map_map, List.forall₂_map_left_iff,
    List.forall₂_map_right_iff]
  exact List.forall₂_same.mpr fun s _ => ⟨hentry s, hcontent s⟩

/-- Measuring the levels revises all steps. -/
theorem revises_measureLevels (ws : Worksheet) : ws.Revises ws.measureLevels := by
  refine .of_map (·.mapStep (Levels.of ws.statements).record) (fun _ => rfl) (fun s => ?_) rfl
  exact .of_mapStep (Levels.of ws.statements).record (fun _ => rfl) (fun _ => rfl) s.content

/-- What a granted edit does. -/
theorem changes_of_applyEdit {e : Edit} (nodup : ws.ids.Nodup) (h : ws.applyEdit st e = .ok ws') :
    ws.Changes e ws' := by
  cases e with
  | setRef step label =>
      obtain ⟨before, s, after, split, rfl⟩ := setRef_ok h
      exact .revise rfl (revises_of_split (s.withRef label) split.statements rfl
        (s.revised_withRef label) (entries_respan _)) ⟨rfl, rfl, rfl, rfl, rfl, rfl⟩
  | setFormula step formula =>
      obtain ⟨before, s, after, split, rfl⟩ := setFormula_ok h
      exact .revise rfl (revises_of_split (s.withFormula formula) split.statements rfl
        (s.revised_withFormula formula) (entries_respan _)) ⟨rfl, rfl, rfl, rfl, rfl, rfl⟩
  | setStatus step unification distinctCheck proof =>
      obtain ⟨before, s, after, split, -, rfl⟩ := setStatus_ok h
      exact .revise rfl (revises_of_split (s.withStatus unification distinctCheck proof)
        split.statements rfl (s.revised_withStatus unification distinctCheck proof) rfl)
        ⟨rfl, rfl, rfl, rfl, rfl, rfl⟩
  | insertStep step hyps ref formula =>
      obtain ⟨before, s, after, split, no_hypothesis, cited, rfl⟩ := insertStep_ok h
      refine .insertStep split no_hypothesis cited ?_ ⟨rfl, rfl, rfl, rfl, rfl, rfl⟩
      exact (entries_respan _).trans List.map_append
  | insertDistinctVars vars =>
      obtain ⟨-, before, after, hss, slot, rfl⟩ := insertDistinctVars_ok h
      refine .insertDistinctVars hss slot ?_ ⟨rfl, rfl, rfl, rfl, rfl, rfl⟩
      exact (entries_respan _).trans List.map_append
  | insertProof proof =>
      have inserted : ws.insertProof st proof = ws' := Except.ok.inj h
      rw [← inserted]
      obtain ⟨before, old, after, hss, hold, hws⟩ | ⟨before, after, hss, first, slot, hws⟩ :=
        insertProof_split st ws proof nodup
      · rw [hws]
        refine .replaceProof hss hold ?_ ⟨rfl, rfl, rfl, rfl, rfl, rfl⟩
        exact (entries_respan _).trans List.map_append
      · rw [hws]
        refine .insertProof hss first ?_ ?_ ⟨rfl, rfl, rfl, rfl, rfl, rfl⟩
        · exact slot.imp_left fun ⟨f, rest, hafter, hf⟩ => ⟨f, rest, hafter, Or.inr hf⟩
        · exact (entries_respan _).trans List.map_append
  | placeCursor step field =>
      obtain ⟨c, rfl⟩ := moveCursor_ok h
      exact .revise rfl (.of_map id (fun _ => rfl) (fun s => .refl s.content) (List.map_id _).symm)
        ⟨rfl, rfl, rfl, rfl, rfl, rfl⟩

/-- No edit breaks a worksheet. -/
theorem Changes.broken {e : Edit} (h : ws.Changes e ws') : ws'.broken = ws.broken := by
  cases h with
  | revise _ _ same => exact same.broken
  | insertStep _ _ _ _ same => exact same.broken
  | insertDistinctVars _ _ _ same => exact same.broken
  | insertProof _ _ _ _ same => exact same.broken
  | replaceProof _ _ _ same => exact same.broken

end Worksheet

end ProofSheet
