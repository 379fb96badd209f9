import ProofSheet.Proofs.Atomicity
import ProofSheet.Proofs.WellShaped

set_option autoImplicit false

/-! # Edits touch only their target

A granted edit changes the step that it names, puts in one statement, or replaces the generated
proof, and each of these happens in a place that is known (`Worksheet.Touches`). All other statements
keep their ids, what they say, and their texts, and they stay in their order. That goes for the
levels too, although they are measured after every list of edits: they were right before the edit,
and no edit makes them wrong. So on an intact worksheet nothing else changes
(`Worksheet.edit_changesOnly`).
-/

namespace ProofSheet

namespace Worksheet

variable {ws ws' : Worksheet} {db : Database} {st : Settings} {e : Edit}

/-- The statement is the step with a name, and no other statement is. -/
structure OnlyStep (ws : Worksheet) (step : StepId) (before : List Statement) (s : Statement)
    (after : List Statement) : Prop where
  statements : ws.statements = before ++ s :: after
  named : s.stepId? = some step
  only : ∀ t ∈ before ++ after, t.stepId? ≠ some step

/-- The statements that an edit makes of those of a worksheet. -/
inductive Touches (st : Settings) (ws : Worksheet) : Edit → List Statement → Prop where
  | setRef {step : StepId} {label : Text} {before after : List Statement} {s : Statement}
      (target : ws.OnlyStep step before s after) :
      Touches st ws (.setRef step label) (before ++ s.withRef label :: after)
  | setFormula {step : StepId} {formula : Formula} {before after : List Statement} {s : Statement}
      (target : ws.OnlyStep step before s after) :
      Touches st ws (.setFormula step formula) (before ++ s.withFormula formula :: after)
  | setStatus {step : StepId} {unification : Unification} {distinctCheck : DistinctCheck}
      {proof : Option (List Text)} {before after : List Statement} {s : Statement}
      (target : ws.OnlyStep step before s after) (derives : s.derivation?.isSome = true) :
      Touches st ws (.setStatus step unification distinctCheck proof)
        (before ++ s.withStatus unification distinctCheck proof :: after)
  /-- The new step is put directly in front of the one that is named. -/
  | insertStep {step : StepId} {hyps : List StepId} {ref : Option Text} {formula : Formula}
      {before after : List Statement} {s : Statement} {d : Derivation}
      (target : ws.OnlyStep step before s after)
      (new : d = .inserted ws.nextStepNumber hyps ref formula) :
      Touches st ws (.insertStep step hyps ref formula)
        (before ++ newStatement ws.nextId (.derivation d) (d.insertedText formula) :: s :: after)
  /-- The new statement is put directly in front of the generated proof, or of the footer. -/
  | insertDistinctVars {vars : List Text} {before after : List Statement} {t : Statement}
      (split : ws.statements = before ++ t :: after)
      (slot : t.isProof = true ∨ t.isFooter = true ∧ ∀ u ∈ ws.statements, u.isProof = false) :
      Touches st ws (.insertDistinctVars vars)
        (before ++ newStatement ws.nextId (.distinctVars vars) (distinctVarsText vars) :: t :: after)
  | replaceProof {proof : CompressedProof} {before after : List Statement} {old : Statement}
      (split : ws.statements = before ++ old :: after) (hold : old.isProof = true) :
      Touches st ws (.insertProof proof)
        (before ++ newStatement ws.nextId (.proof (.compressed proof))
          (proof.layout st.proofTextWidth st.proofIndent) :: after)
  | insertProof {proof : CompressedProof} {before after : List Statement} {f : Statement}
      (split : ws.statements = before ++ f :: after) (footer : f.isFooter = true)
      (first : ∀ u ∈ ws.statements, u.isProof = false) :
      Touches st ws (.insertProof proof)
        (before ++ newStatement ws.nextId (.proof (.compressed proof))
          (proof.layout st.proofTextWidth st.proofIndent) :: f :: after)
  | placeCursor {step : StepId} {field : Field} :
      Touches st ws (.placeCursor step field) ws.statements

/-- An edit touches nothing but its target. Of the statements only the places in the text differ from
what the edit makes of them: ids, contents and texts agree. -/
structure ChangesOnly (ws : Worksheet) (st : Settings) (e : Edit) (ws' : Worksheet) : Prop where
  statements : ∃ ss, ws.Touches st e ss ∧
    ws'.statements.map Statement.unplaced = ss.map Statement.unplaced
  theoremLabel : ws'.theoremLabel = ws.theoremLabel
  locAfter : ws'.locAfter = ws.locAfter
  messages : ws'.messages = ws.messages
  broken : ws'.broken = ws.broken

/-- Where the steps have different names, the first step with a name is the only one. -/
theorem SplitsAt.onlyStep {step : StepId} {before after : List Statement} {s : Statement}
    (h : ws.SplitsAt step before s after) (nodup : ws.stepIds.Nodup) :
    ws.OnlyStep step before s after := by
  refine ⟨h.statements, h.found, fun t ht hid => ?_⟩
  rcases List.mem_append.mp ht with hbefore | hafter
  · exact h.first t hbefore hid
  · rw [stepIds, h.statements, List.filterMap_append, List.filterMap_cons_some h.found,
      List.nodup_append, List.nodup_cons] at nodup
    exact nodup.2.1.1 (List.mem_filterMap.mpr ⟨t, hafter, hid⟩)

/-- A worksheet that ends with a footer has one. -/
theorem Shaped.exists_footer {proved : Bool} (h : ws.Shaped (.closed proved)) :
    ¬∀ t ∈ ws.statements, t.isFooter = false := by
  obtain ⟨rest, f, hss, hf, -⟩ := h.footer rfl
  intro none_footer
  have hnot := none_footer f (by rw [hss]; simp)
  rw [hf] at hnot
  cases hnot

/-- A granted edit on an intact worksheet touches nothing but its target. -/
theorem Intact.changesOnly (h : ws.Intact) (granted : ws.applyEdit st e = .ok ws') :
    ws.ChangesOnly st e ws' := by
  obtain ⟨proved, shaped⟩ := h.shaped
  have replaced := map_unplaced_respanFrom 0 0
  cases e with
  | setRef step label =>
      obtain ⟨before, s, after, split, rfl⟩ := setRef_ok granted
      exact ⟨⟨_, .setRef (split.onlyStep h.nodup), replaced _⟩, rfl, rfl, rfl, rfl⟩
  | setFormula step formula =>
      obtain ⟨before, s, after, split, rfl⟩ := setFormula_ok granted
      exact ⟨⟨_, .setFormula (split.onlyStep h.nodup), replaced _⟩, rfl, rfl, rfl, rfl⟩
  | setStatus step unification distinctCheck proof =>
      obtain ⟨before, s, after, split, derives, rfl⟩ := setStatus_ok granted
      exact ⟨⟨_, .setStatus (split.onlyStep h.nodup) derives, rfl⟩, rfl, rfl, rfl, rfl⟩
  | insertStep step hyps ref formula =>
      obtain ⟨before, s, after, split, -, -, rfl⟩ := insertStep_ok granted
      exact ⟨⟨_, .insertStep (split.onlyStep h.nodup) rfl, replaced _⟩, rfl, rfl, rfl, rfl⟩
  | insertDistinctVars vars =>
      obtain ⟨-, before, after, hss, hslot, rfl⟩ := insertDistinctVars_split granted
      obtain ⟨t, rest, rfl, slot⟩ : ∃ t rest, after = t :: rest ∧ (t.isProof = true ∨
          t.isFooter = true ∧ ∀ u ∈ ws.statements, u.isProof = false) := by
        obtain ⟨old, rest, hafter, hold, -⟩ | ⟨none_proof, ⟨f, rest, hafter, hf⟩ | none_footer⟩ :=
          hslot
        · exact ⟨old, rest, hafter, Or.inl hold⟩
        · exact ⟨f, rest, hafter, Or.inr ⟨hf, none_proof⟩⟩
        · exact absurd none_footer shaped.exists_footer
      exact ⟨⟨_, .insertDistinctVars hss slot, replaced _⟩, rfl, rfl, rfl, rfl⟩
  | insertProof proof =>
      obtain rfl : ws.insertProof st proof = ws' := Except.ok.inj granted
      obtain ⟨before, old, after, hss, hold, hws⟩ | ⟨before, after, hss, first, hslot, hws⟩ :=
        insertProof_split st ws proof shaped.nodup
      · rw [hws]
        exact ⟨⟨_, .replaceProof hss hold, replaced _⟩, rfl, rfl, rfl, rfl⟩
      · obtain ⟨f, rest, rfl, hf⟩ := hslot.resolve_right shaped.exists_footer
        rw [hws]
        exact ⟨⟨_, .insertProof hss hf first, replaced _⟩, rfl, rfl, rfl, rfl⟩
  | placeCursor step field =>
      obtain ⟨c, rfl⟩ := moveCursor_ok granted
      exact ⟨⟨_, .placeCursor, rfl⟩, rfl, rfl, rfl, rfl⟩

/-- An edit of its own is applied without any measuring, if there is room for a step. -/
theorem Intact.applyEdits_singleton_ok (h : ws.Intact)
    (room : ws.greatestStep < StepId.maxNumber) (granted : (ws.applyEdits st [e]).2 = none) :
    ws.applyEdit st e = .ok (ws.applyEdits st [e]).1 := by
  have hcount := List.countP_le_length (p := Edit.isInsertStep) (l := [e])
  rw [List.length_singleton] at hcount
  rw [h.applyEdits_eq st (by omega), Worksheet.applyInOrder] at granted ⊢
  cases happ : ws.applyEdit st e with
  | ok ws₁ => rfl
  | error r =>
      rw [happ] at granted
      cases granted

/-- A single edit that is granted touches nothing but its target, on a worksheet that has been loaded
cleanly and on which some calls have been made, as long as its steps have different names and there
is a number left for one more. -/
theorem edit_changesOnly {request : Request} {text : Text}
    (clean : (load db st request text).broken = false) (calls : List Call)
    (nodup : ((load db st request text).afterCalls calls).stepIds.Nodup)
    (room : ((load db st request text).afterCalls calls).greatestStep < StepId.maxNumber)
    (st' : Settings)
    (granted : (((load db st request text).afterCalls calls).applyEdits st' [e]).2 = none) :
    ((load db st request text).afterCalls calls).ChangesOnly st' e
      (((load db st request text).afterCalls calls).applyEdits st' [e]).1 := by
  have intact := intact_afterCalls clean calls nodup
  exact intact.changesOnly (intact.applyEdits_singleton_ok room granted)

/-- A step that cites the hypothesis is put in front of `qed`. -/
theorem edit_changesOnly_shortText :
    let ws := (load .empty {} {} shortText).afterCalls [.renumber 10]
    let e : Edit := .insertStep .qed [.number 10] none ⟨[['|', '-'], ['s']]⟩
    (load .empty {} {} shortText).broken = false ∧ ws.stepIds.Nodup ∧
      ws.greatestStep < StepId.maxNumber ∧ (ws.applyEdits {} [e]).2 = none ∧
      ws.ChangesOnly {} e (ws.applyEdits {} [e]).1 := by
  intro ws e
  obtain ⟨nodup, room, granted⟩ : ws.stepIds.Nodup ∧ ws.greatestStep < StepId.maxNumber ∧
      (ws.applyEdits {} [e]).2 = none := by
    decide +kernel
  exact ⟨shortText_loads, nodup, room, granted,
    edit_changesOnly shortText_loads [.renumber 10] nodup room {} granted⟩

end Worksheet

end ProofSheet
