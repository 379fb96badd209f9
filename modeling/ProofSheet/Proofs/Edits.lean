import ProofSheet.Proofs.Contents
import ProofSheet.Worksheet.Edit

set_option autoImplicit false

/-! # What an edit does

For each kind of edit one lemma says all that it does when it is granted: how the step it names
splits the statements, what it changes there, and what it required. The lemmas of other files
rest on these and do not look into the edits again.
-/

namespace ProofSheet

namespace Statement

/-- The statement with another label, which ends a local reference. -/
def withRef (label : Text) (s : Statement) : Statement :=
  ((s.mapDerivation ({ · with localRef := none })).mapStep
    ({ · with ref := some label })).refreshLead

/-- The statement with another formula. -/
def withFormula (formula : Formula) (s : Statement) : Statement :=
  ((s.replaceBody formula.text).mapDerivation
    ({ · with hasWorkVars := formula.hasWorkVars })).mapStep
    ({ · with formula := some formula })

/-- The statement with another outcome of unification. -/
def withStatus (unification : Unification) (distinctCheck : DistinctCheck)
    (proof : Option (List Text)) (s : Statement) : Statement :=
  s.mapDerivation fun d =>
    { d with unification := unification, distinctCheck := distinctCheck, proof := proof }

end Statement

/-- The step that an insertion adds. -/
def Derivation.inserted (number : Nat) (hyps : List StepId) (ref : Option Text)
    (formula : Formula) : Derivation :=
  { id := .number number
    ref := ref
    formula := some formula
    hyps := hyps.map Citation.step
    derived := true
    hasWorkVars := formula.hasWorkVars }

/-- The text that an insertion adds: the lead of the step, its formula, and a line feed. -/
def Derivation.insertedText (d : Derivation) (formula : Formula) : Text :=
  d.lead ++ ' ' :: formula.text ++ ['\n']

/-- The text of a `$d` statement that is added. -/
def distinctVarsText (vars : List Text) : Text :=
  Keyword.distinctVars ++ ' ' :: joinWith ' ' vars ++ ['\n']

namespace Worksheet

variable {ws ws' : Worksheet} {step : StepId} {st : Settings}

theorem requireStep_ok {i : Nat} (h : ws.requireStep step = .ok i) :
    ∃ before s after, ws.SplitsAt step before s after ∧ i = before.length := by
  rw [requireStep] at h
  cases hi : ws.stepIndex? step with
  | none => rw [hi] at h; cases h
  | some j =>
      rw [hi] at h
      cases h
      obtain ⟨before, s, after, hsplit, hlen⟩ := split_of_stepIndex? hi
      exact ⟨before, s, after, hsplit, hlen.symm⟩

/-- Setting a label changes the step that is named. -/
theorem setRef_ok {label : Text} (h : ws.setRef step label = .ok ws') :
    ∃ before s after, ws.SplitsAt step before s after ∧
      ws' = respan { ws with statements := before ++ s.withRef label :: after } := by
  obtain ⟨i, hi, h⟩ := bind_eq_ok h
  obtain ⟨before, s, after, hsplit, rfl⟩ := requireStep_ok hi
  refine ⟨before, s, after, hsplit, ?_⟩
  have change : (ws.modifyAt before.length (Statement.withRef label)).respan = ws' :=
    Except.ok.inj h
  rw [← change, modifyAt_split hsplit.statements]

/-- Setting a formula changes the step that is named. -/
theorem setFormula_ok {formula : Formula} (h : ws.setFormula step formula = .ok ws') :
    ∃ before s after, ws.SplitsAt step before s after ∧
      ws' = respan { ws with statements := before ++ s.withFormula formula :: after } := by
  obtain ⟨i, hi, h⟩ := bind_eq_ok h
  obtain ⟨before, s, after, hsplit, rfl⟩ := requireStep_ok hi
  refine ⟨before, s, after, hsplit, ?_⟩
  have change : (ws.modifyAt before.length (Statement.withFormula formula)).respan = ws' :=
    Except.ok.inj h
  rw [← change, modifyAt_split hsplit.statements]

/-- Recording a status changes the derivation step that is named, but no text. -/
theorem setStatus_ok {unification : Unification} {distinctCheck : DistinctCheck}
    {proof : Option (List Text)}
    (h : ws.setStatus step unification distinctCheck proof = .ok ws') :
    ∃ before s after, ws.SplitsAt step before s after ∧ s.derivation?.isSome = true ∧
      ws' =
        { ws with
          statements := before ++ s.withStatus unification distinctCheck proof :: after } := by
  obtain ⟨i, hi, h⟩ := bind_eq_ok h
  obtain ⟨before, s, after, hsplit, rfl⟩ := requireStep_ok hi
  have hget : ws.statements[before.length]? = some s := by
    rw [hsplit.statements, List.getElem?_append_right (Nat.le_refl _)]
    simp
  rw [hget] at h
  cases hd : s.derivation? with
  | none => simp [hd] at h
  | some d =>
      refine ⟨before, s, after, hsplit, by rw [hd]; rfl, ?_⟩
      simp only [Option.bind_some, hd, Option.isNone_some, Bool.false_eq_true, if_false] at h
      have change :
          ws.modifyAt before.length (Statement.withStatus unification distinctCheck proof) = ws' :=
        Except.ok.inj h
      rw [← change, modifyAt_split hsplit.statements]

/-- An insertion puts a new step in front of the one that is named, where no hypothesis follows
and all that the new step cites comes before. -/
theorem insertStep_ok {hyps : List StepId} {ref : Option Text} {formula : Formula}
    (h : ws.insertStep step hyps ref formula = .ok ws') :
    ∃ before s after, ws.SplitsAt step before s after ∧
      (∀ t ∈ s :: after, t.isHypothesis = false) ∧
      (∀ id ∈ hyps, id ∈ before.filterMap Statement.stepId?) ∧
      ws' =
        let d := Derivation.inserted ws.nextStepNumber hyps ref formula
        let s' := newStatement ws.nextId (.derivation d) (d.insertedText formula)
        respan
          { ws with
            statements := before ++ s' :: s :: after
            nextId := ws.nextId + 1
            generation := ws.generation + 1
            greatestStep := ws.nextStepNumber } := by
  obtain ⟨i, hi, h⟩ := bind_eq_ok h
  obtain ⟨before, s, after, hsplit, rfl⟩ := requireStep_ok hi
  refine ⟨before, s, after, hsplit, ?_⟩
  rw [hsplit.statements, List.drop_append_length, List.take_append_length] at h
  cases hany : (s :: after).any Statement.isHypothesis with
  | true => rw [hany] at h; cases h
  | false =>
      rw [hany, if_neg (by decide)] at h
      cases hmiss : hyps.find? (!(before.filterMap Statement.stepId?).contains ·) with
      | some missing => simp only [hmiss] at h; cases h
      | none =>
          simp only [hmiss] at h
          refine ⟨by simpa using hany, ?_, ?_⟩
          · intro id hid
            simpa using List.find?_eq_none.mp hmiss id hid
          · rw [← Except.ok.inj h]
            dsimp only
            rw [insert_split hsplit.statements rfl]
            rfl

/-- The slot for a generated proof is in front of the first one there is, or else in front of the
last footer. -/
theorem proofSlot_split (ws : Worksheet) :
    ∃ before after, ws.statements = before ++ after ∧ ws.proofSlot = before.length ∧
      ((∃ old rest, after = old :: rest ∧ old.isProof = true ∧ ∀ t ∈ before, t.isProof = false) ∨
        (∀ t ∈ ws.statements, t.isProof = false) ∧
          ((∃ f rest, after = f :: rest ∧ f.isFooter = true) ∨
            ∀ t ∈ ws.statements, t.isFooter = false)) := by
  rw [proofSlot]
  cases hproof : ws.statements.findIdx? Statement.isProof with
  | some i =>
      obtain ⟨before, old, rest, hss, hlen, hold, hfirst⟩ := split_of_findIdx? hproof
      exact ⟨before, old :: rest, hss, hlen.symm, Or.inl ⟨old, rest, rfl, hold, hfirst⟩⟩
  | none =>
      have none_proof : ∀ t ∈ ws.statements, t.isProof = false :=
        List.findIdx?_eq_none_iff.mp hproof
      cases hfooter : ws.statements.reverse.findIdx? Statement.isFooter with
      | none =>
          refine ⟨ws.statements, [], by simp, by simp, Or.inr ⟨none_proof, Or.inr ?_⟩⟩
          intro t ht
          exact List.findIdx?_eq_none_iff.mp hfooter t (List.mem_reverse.mpr ht)
      | some i =>
          obtain ⟨a, f, b, hrev, hlen, hf, -⟩ := split_of_findIdx? hfooter
          have hss : ws.statements = b.reverse ++ f :: a.reverse := by
            rw [← List.reverse_reverse ws.statements, hrev]
            simp
          refine ⟨b.reverse, f :: a.reverse, hss, ?_,
            Or.inr ⟨none_proof, Or.inl ⟨f, a.reverse, rfl, hf⟩⟩⟩
          have : ws.statements.length = b.length + (a.length + 1) := by
            rw [hss]
            simp
          simp only [Option.getD_none, List.length_reverse]
          omega

/-- The list begins with a generated proof or a footer, unless the worksheet has neither. -/
def BeginsSlot (ws : Worksheet) (after : List Statement) : Prop :=
  (∃ t rest, after = t :: rest ∧ (t.isProof = true ∨ t.isFooter = true)) ∨
    ∀ t ∈ ws.statements, t.isFooter = false

/-- A `$d` statement is put in front of the first generated proof, or else of the last footer. -/
theorem insertDistinctVars_split {vars : List Text} (h : ws.insertDistinctVars vars = .ok ws') :
    2 ≤ vars.length ∧ ∃ before after, ws.statements = before ++ after ∧
      ((∃ old rest, after = old :: rest ∧ old.isProof = true ∧ ∀ t ∈ before, t.isProof = false) ∨
        (∀ t ∈ ws.statements, t.isProof = false) ∧
          ((∃ f rest, after = f :: rest ∧ f.isFooter = true) ∨
            ∀ t ∈ ws.statements, t.isFooter = false)) ∧
      ws' =
        { respan
            { ws with
              statements :=
                before ++
                  newStatement ws.nextId (.distinctVars vars) (distinctVarsText vars) :: after
              nextId := ws.nextId + 1
              generation := ws.generation + 1 } with
          distinctVars := ws.distinctVars ++ [ws.nextId] } := by
  rw [insertDistinctVars] at h
  split at h
  · cases h
  · rename_i hlen
    obtain ⟨before, after, hss, hslot, hafter⟩ := ws.proofSlot_split
    refine ⟨Nat.not_lt.mp hlen, before, after, hss, hafter, ?_⟩
    rw [← Except.ok.inj h]
    dsimp only
    rw [hslot, insert_split hss rfl]
    rfl

/-- A `$d` statement is put into the slot for a generated proof. -/
theorem insertDistinctVars_ok {vars : List Text} (h : ws.insertDistinctVars vars = .ok ws') :
    2 ≤ vars.length ∧ ∃ before after, ws.statements = before ++ after ∧
      ws.BeginsSlot after ∧
      ws' =
        { respan
            { ws with
              statements :=
                before ++
                  newStatement ws.nextId (.distinctVars vars) (distinctVarsText vars) :: after
              nextId := ws.nextId + 1
              generation := ws.generation + 1 } with
          distinctVars := ws.distinctVars ++ [ws.nextId] } := by
  obtain ⟨hlen, before, after, hss, hafter, hws⟩ := insertDistinctVars_split h
  refine ⟨hlen, before, after, hss, ?_, hws⟩
  obtain ⟨old, rest, rfl, hold, -⟩ | ⟨-, ⟨f, rest, rfl, hf⟩ | hnone⟩ := hafter
  · exact Or.inl ⟨old, rest, rfl, Or.inl hold⟩
  · exact Or.inl ⟨f, rest, rfl, Or.inr hf⟩
  · exact Or.inr hnone

/-- Removing one statement of a list without equal ids. -/
theorem remove_split {before after : List Statement} {old : Statement}
    (hss : ws.statements = before ++ old :: after) (hids : ws.ids.Nodup) :
    ws.remove [old.id] =
      respan
        { ws with
          statements := before ++ after
          cursor := ws.cursor.forget old.id
          distinctVars := ws.distinctVars.filter (! [old.id].contains ·)
          selected := ws.selected.filter (! [old.id].contains ·)
          generation := ws.generation + 1 } := by
  have hkeep : ws.statements.filter (! [old.id].contains ·.id) = before ++ after := by
    rw [ids, hss, List.map_append, List.map_cons, List.nodup_append, List.nodup_cons] at hids
    obtain ⟨-, ⟨hold, -⟩, hne⟩ := hids
    have left : ∀ t ∈ before, t.id ≠ old.id := by
      intro t ht
      exact hne t.id (List.mem_map_of_mem ht) old.id (by simp)
    have right : ∀ t ∈ after, t.id ≠ old.id := by
      intro t ht heq
      exact hold (heq ▸ List.mem_map_of_mem ht)
    rw [hss, List.filter_append, List.filter_cons_of_neg (by simp)]
    congr 1
    · exact List.filter_eq_self.mpr fun t ht => by simp [left t ht]
    · exact List.filter_eq_self.mpr fun t ht => by simp [right t ht]
  rw [remove, if_neg (by simp), hkeep]
  rfl

/-- A generated proof is put in the place of the one there is, or into the slot for it. -/
theorem insertProof_split (st : Settings) (ws : Worksheet) (proof : CompressedProof)
    (hids : ws.ids.Nodup) :
    let new := newStatement ws.nextId (.proof (.compressed proof))
      (proof.layout st.proofTextWidth st.proofIndent)
    (∃ before old after, ws.statements = before ++ old :: after ∧ old.isProof = true ∧
      ws.insertProof st proof =
        respan
          { ws with
            statements := before ++ new :: after
            cursor := ws.cursor.forget old.id
            distinctVars := ws.distinctVars.filter (! [old.id].contains ·)
            selected := ws.selected.filter (! [old.id].contains ·)
            nextId := ws.nextId + 1
            generation := ws.generation + 2 }) ∨
    (∃ before after, ws.statements = before ++ after ∧
      (∀ t ∈ ws.statements, t.isProof = false) ∧
      ((∃ f rest, after = f :: rest ∧ f.isFooter = true) ∨
        ∀ t ∈ ws.statements, t.isFooter = false) ∧
      ws.insertProof st proof =
        respan
          { ws with
            statements := before ++ new :: after
            nextId := ws.nextId + 1
            generation := ws.generation + 1 }) := by
  intro new
  obtain ⟨before, after, hss, hslot, ⟨old, rest, rfl, hold, -⟩ | ⟨hnone, hfooter⟩⟩ :=
    ws.proofSlot_split
  · refine Or.inl ⟨before, old, rest, hss, hold, ?_⟩
    have hget : ws.statements[before.length]? = some old := by
      rw [hss, List.getElem?_append_right (Nat.le_refl _)]
      simp
    -- the removal lays the other statements out, and the insertion does so again
    have hremoved : (ws.remove [old.id]).statements =
        (respanFrom 0 0 (before ++ rest)).take before.length ++
          (respanFrom 0 0 (before ++ rest)).drop before.length := by
      rw [remove_split hss hids, List.take_append_drop]
      rfl
    have hlen : ((respanFrom 0 0 (before ++ rest)).take before.length).length = before.length := by
      have := congrArg List.length (map_unplaced_respanFrom 0 0 (before ++ rest))
      simp only [List.length_map, List.length_append] at this
      rw [List.length_take]
      omega
    rw [insertProof, hslot, hget]
    simp only [Option.filter_some, hold, if_true, Option.map_some, Option.toList_some]
    rw [insert_split hremoved hlen, remove_split hss hids]
    unfold respan
    congr 1
    apply respanFrom_congr
    have laid_map := map_unplaced_respanFrom 0 0 (before ++ rest)
    rw [List.map_append] at laid_map
    rw [List.map_append, List.map_cons, List.map_take, List.map_drop, laid_map, List.map_append,
      List.map_cons, List.take_left' (by simp), List.drop_left' (by simp)]
  · refine Or.inr ⟨before, after, hss, hnone, hfooter, ?_⟩
    have hget : ws.statements[before.length]?.filter Statement.isProof = none := by
      rw [Option.filter_eq_none_iff]
      intro t ht
      simp [hnone t (List.mem_of_getElem? ht)]
    rw [insertProof, hslot, hget]
    simp only [Option.map_none, Option.toList_none]
    rw [remove, if_pos (by simp), insert_split hss rfl]

/-- Moving the cursor binds it to the step that is named. -/
theorem moveCursor_split {field : Field} (h : ws.moveCursor step field = .ok ws') :
    ∃ before s after, ws.SplitsAt step before s after ∧
      ws' =
        { ws with
          cursor := ws.cursor.moveTo (.statement s.id field before.length ws.generation) } := by
  obtain ⟨i, hi, h⟩ := bind_eq_ok h
  obtain ⟨before, s, after, hsplit, rfl⟩ := requireStep_ok hi
  have hget : ws.statements[before.length]? = some s := by
    rw [hsplit.statements, List.getElem?_append_right (Nat.le_refl _)]
    simp
  simp only [hget] at h
  exact ⟨before, s, after, hsplit, (Except.ok.inj h).symm⟩

/-- Moving the cursor changes nothing else. -/
theorem moveCursor_ok {field : Field} (h : ws.moveCursor step field = .ok ws') :
    ∃ c, ws' = { ws with cursor := c } := by
  obtain ⟨before, s, after, -, hws⟩ := moveCursor_split h
  exact ⟨_, hws⟩

end Worksheet

end ProofSheet
