import ProofSheet.Proofs.LoadedShape

set_option autoImplicit false

/-! # Names of steps

The steps of a worksheet that loads cleanly have different names, and they keep different names
through all calls as long as there is room: an inserted step gets a number that no step has,
except that the number stays at the greatest possible one when a step has that already
(`Worksheet.stepIds_nodup_iff`). Then two steps have the same name, and they do from then on.

The number of an inserted step is fresh because the greatest number that the worksheet counts is
a bound on all of them (`Worksheet.Numbered`).
-/

namespace ProofSheet

namespace Worksheet

variable {ws ws' : Worksheet} {db : Database} {st : Settings}

/-- No step has a number beyond the greatest one that the worksheet counts. -/
structure Numbered (ws : Worksheet) : Prop where
  bound : ∀ n, .number n ∈ ws.stepIds → n ≤ ws.greatestStep
  range : ws.greatestStep ≤ StepId.maxNumber

theorem stepIds_of_revises (revises : ws.Revises ws') : ws'.stepIds = ws.stepIds := by
  have hmap : ws'.contents.map Content.stepId? = ws.contents.map Content.stepId? := by
    rw [contents_eq, contents_eq, List.map_map, List.map_map]
    refine map_eq_of_forall₂ revises ?_
    rintro e e' ⟨-, hrevised⟩
    exact hrevised.stepId?
  rw [stepIds_eq, stepIds_eq]
  have := congrArg (List.filterMap id) hmap
  rwa [List.filterMap_map, List.filterMap_map] at this

theorem stepIds_of_entries {before after : List Statement} {id : StatementId} {c : Content}
    (h : ws.entries = before.map Statement.entry ++ (id, c) :: after.map Statement.entry) :
    ws.stepIds = before.filterMap Statement.stepId? ++
      (c.stepId?.toList ++ after.filterMap Statement.stepId?) := by
  rw [stepIds_eq, contents_of_entries h, List.filterMap_append, List.filterMap_map,
    List.filterMap_cons, List.filterMap_map]
  cases c.stepId? <;> rfl

/-- An edit leaves the names of the steps alone, unless it inserts a step, which has the next
number then. -/
theorem stepIds_of_changes {e : Edit} (h : ws.Changes e ws') :
    (e.isInsertStep = false ∧ ws'.stepIds = ws.stepIds ∧ ws'.greatestStep = ws.greatestStep) ∨
      (e.isInsertStep = true ∧ ws'.greatestStep = ws.nextStepNumber ∧
        ∃ before after, ws.stepIds = before ++ after ∧
          ws'.stepIds = before ++ .number ws.nextStepNumber :: after) := by
  have put : ∀ {before after : List Statement} {id : StatementId} {c : Content},
      ws.statements = before ++ after → c.stepId? = none →
      ws'.entries = before.map Statement.entry ++ (id, c) :: after.map Statement.entry →
      ws'.stepIds = ws.stepIds := by
    intro before after id c hss hc hentries
    rw [stepIds_of_entries hentries, hc, stepIds, hss, List.filterMap_append]
    rfl
  cases h with
  | revise not_insert revises same =>
      exact Or.inl ⟨not_insert, stepIds_of_revises revises, same.greatestStep⟩
  | insertStep split _ _ hentries same =>
      refine Or.inr ⟨rfl, same.greatestStep, _, _, ?_, stepIds_of_entries hentries⟩
      rw [stepIds, split.statements, List.filterMap_append]
      rfl
  | insertDistinctVars split _ hentries same =>
      exact Or.inl ⟨rfl, put split rfl hentries, same.greatestStep⟩
  | insertProof split _ _ hentries same =>
      exact Or.inl ⟨rfl, put split rfl hentries, same.greatestStep⟩
  | replaceProof split hold hentries same =>
      refine Or.inl ⟨rfl, ?_, same.greatestStep⟩
      have hid : Statement.stepId? _ = none :=
        Content.stepId?_of_not_step (Content.step?_of_isProof hold)
      rw [stepIds_of_entries hentries, stepIds, split, List.filterMap_append,
        List.filterMap_cons_none hid]
      rfl

theorem stepIds_renumber {interval changed : Nat}
    (h : ws.renumber interval = .ok (ws', changed)) :
    ws'.stepIds = ws.stepIds.map (ws.newNames interval).apply := by
  obtain ⟨-, -, rfl⟩ := renumber_ok h
  rw [stepIds_respan, stepIds, stepIds, List.filterMap_map, List.map_filterMap]
  congr 1
  funext s
  exact Renaming.stepId?_applyContent _ s.content

/-! ## The bound on the numbers -/

/-- The next number is beyond the greatest one, unless there is none. -/
theorem Numbered.next (h : ws.Numbered) :
    ws.greatestStep ≤ ws.nextStepNumber ∧ ws.nextStepNumber ≤ StepId.maxNumber := by
  have := h.range
  unfold nextStepNumber
  omega

/-- The next number is in use only if the greatest possible number is. -/
theorem Numbered.fresh (h : ws.Numbered) :
    .number ws.nextStepNumber ∈ ws.stepIds ↔ .number StepId.maxNumber ∈ ws.stepIds := by
  have hrange := h.range
  by_cases hfull : ws.greatestStep = StepId.maxNumber
  · -- there is no number beyond the greatest one, which is given again
    have hnext : ws.nextStepNumber = StepId.maxNumber := by
      unfold nextStepNumber
      omega
    rw [hnext]
  · -- neither number is in use, as both are beyond the bound
    have hnext : ws.nextStepNumber = ws.greatestStep + 1 := by
      unfold nextStepNumber
      omega
    constructor
    · intro hmem
      have := h.bound _ hmem
      omega
    · intro hmem
      have := h.bound _ hmem
      omega

theorem Numbered.revise (h : ws.Numbered) (revises : ws.Revises ws') (same : ws.SameIndex ws') :
    ws'.Numbered := by
  refine ⟨?_, ?_⟩
  · rw [stepIds_of_revises revises, same.greatestStep]
    exact h.bound
  · rw [same.greatestStep]
    exact h.range

theorem Numbered.renumber {interval changed : Nat}
    (h : ws.renumber interval = .ok (ws', changed)) : ws'.Numbered := by
  have hids := stepIds_renumber h
  obtain ⟨-, hrange, rfl⟩ := renumber_ok h
  refine ⟨fun n hn => ?_, hrange⟩
  rw [hids, List.mem_map] at hn
  obtain ⟨id, hid, hname⟩ := hn
  obtain ⟨-, hqed⟩ | ⟨i, hi, -, hmultiple⟩ := newNames_cases interval hid
  · rw [hqed] at hname
    cases hname
  · rw [hmultiple, StepId.number.injEq] at hname
    rw [← hname]
    exact Nat.mul_le_mul_left interval hi

theorem Numbered.edit {e : Edit} (h : ws.Numbered) (hchange : ws.Changes e ws') :
    ws'.Numbered := by
  obtain ⟨hlow, hhigh⟩ := h.next
  obtain ⟨-, hids, hgreatest⟩ | ⟨-, hgreatest, before, after, hids, hids'⟩ :=
    stepIds_of_changes hchange
  · exact ⟨by rw [hids, hgreatest]; exact h.bound, by rw [hgreatest]; exact h.range⟩
  · refine ⟨fun n hn => ?_, by rw [hgreatest]; exact hhigh⟩
    rw [hids', List.mem_append, List.mem_cons, or_left_comm, ← List.mem_append, ← hids] at hn
    rw [hgreatest]
    rcases hn with heq | hmem
    · exact Nat.le_of_eq (StepId.number.inj heq)
    · exact Nat.le_trans (h.bound n hmem) hlow

/-! ## Loading -/

/-- The names of the steps that are read are different, and their numbers are bounded. -/
theorem numbered_readText {text : Text} (hnil : ws.statements = []) (hzero : ws.greatestStep = 0)
    (h : ws.readText db st text = .ok ws') : ws'.stepIds.Nodup ∧ ws'.Numbered := by
  refine keeps_readText (I := fun ws => ws.stepIds.Nodup ∧ ws.Numbered) h ?_ ?_
  · have hids : ws.stepIds = [] := by
      rw [stepIds, hnil]
      rfl
    refine ⟨by rw [hids]; exact List.nodup_nil, fun n hn => ?_, by rw [hzero]; exact Nat.zero_le _⟩
    rw [hids] at hn
    cases hn
  · rintro b - c ws₁ ws₂ - hsaid ⟨hadm, hextends⟩ ⟨hnodup, hbound, hrange⟩
    have hids : ws₂.stepIds = ws₁.stepIds ++ c.stepId?.toList := hextends.stepIds
    have hgreatest : ws₂.greatestStep =
        max ws₁.greatestStep ((c.stepId?.map StepId.value).getD 0) := hextends.greatestStep
    cases hc : c.stepId? with
    | none =>
        rw [hc] at hids hgreatest
        refine ⟨by rw [hids]; simpa using hnodup, fun n hn => ?_, ?_⟩
        · rw [hids, Option.toList_none, List.append_nil] at hn
          rw [hgreatest]
          exact Nat.le_trans (hbound n hn) (Nat.le_max_left _ _)
        · rw [hgreatest]
          exact Nat.max_le.mpr ⟨hrange, Nat.zero_le _⟩
    | some id =>
        rw [hc] at hids hgreatest
        have hfresh : id ∉ ws₁.stepIds := hadm.fresh hc
        refine ⟨?_, fun n hn => ?_, ?_⟩
        · rw [hids, Option.toList_some, List.nodup_append]
          refine ⟨hnodup, List.nodup_singleton _, fun a ha a' ha' heq => ?_⟩
          rw [List.mem_singleton.mp ha'] at heq
          exact hfresh (heq ▸ ha)
        · rw [hids, Option.toList_some, List.mem_append, List.mem_singleton] at hn
          rw [hgreatest]
          rcases hn with hmem | rfl
          · exact Nat.le_trans (hbound n hmem) (Nat.le_max_left _ _)
          · exact Nat.le_max_right _ _
        · rw [hgreatest]
          refine Nat.max_le.mpr ⟨hrange, ?_⟩
          cases id with
          | number n => exact (hsaid.number_range hc).2
          | qed => exact Nat.zero_le _

theorem numbered_load {request : Request} {text : Text}
    (clean : (load db st request text).broken = false) :
    (load db st request text).stepIds.Nodup ∧ (load db st request text).Numbered := by
  obtain ⟨read, selected, ws, c, ids, hread, hresolve, -, -, hload⟩ := load_clean clean
  obtain ⟨proved, hshaped⟩ := shaped_readText hread
  obtain ⟨hnodup, hbound, hrange⟩ := numbered_readText rfl rfl hread
  obtain ⟨kept, r, passes, keeps⟩ := resolveLocalRefs_ok hresolve hshaped.nodup
  have hsub : ws.stepIds.Sublist read.stepIds := by
    rw [stepIds, keeps.statements, filterMap_stepId?_respanFrom]
    exact passes.stepIds_sublist
  have hlevels := stepIds_of_revises (revises_measureLevels ws)
  have hids : (load db st request text).stepIds = ws.stepIds := by
    rw [hload]
    exact hlevels
  have hgreatest : (load db st request text).greatestStep = read.greatestStep := by
    rw [hload]
    exact keeps.greatestStep
  refine ⟨?_, ?_, ?_⟩
  · rw [hids]
    exact hnodup.sublist hsub
  · intro n hn
    rw [hids] at hn
    rw [hgreatest]
    exact hbound n (hsub.subset hn)
  · rw [hgreatest]
    exact hrange

/-! ## Different names -/

/-- After an edit the steps have different names exactly if they had before, and the edit did not
insert a step without room for its number. -/
theorem nodup_edit {e : Edit} (h : ws.Numbered) (hchange : ws.Changes e ws') :
    ws'.stepIds.Nodup ↔ ws.stepIds.Nodup ∧
      (e.isInsertStep = true → .number StepId.maxNumber ∉ ws.stepIds) := by
  obtain ⟨hnot, hids, -⟩ | ⟨hinsert, -, before, after, hids, hids'⟩ := stepIds_of_changes hchange
  · rw [hids, hnot]
    simp
  · rw [hids', List.nodup_middle, List.nodup_cons, ← hids, h.fresh, hinsert]
    simp only [true_implies]
    exact and_comm

theorem nodup_renumber {interval changed : Nat}
    (h : ws.renumber interval = .ok (ws', changed)) : ws'.stepIds.Nodup ↔ ws.stepIds.Nodup := by
  have hids := stepIds_renumber h
  obtain ⟨hpos, -, -⟩ := renumber_ok h
  rw [hids]
  constructor
  · exact List.Nodup.of_map _
  · intro hnodup
    exact hnodup.map_on fun a ha b hb => newNames_injOn hpos ha hb

/-- After some moves the steps have different names exactly if they had before, and there was room
for the number of every step that was inserted. -/
theorem nodup_moves {proved : Bool} {edits : List (Worksheet × Edit)}
    (hshaped : ws.Shaped (.closed proved)) (h : ws.Numbered) (hmoves : Moves ws edits ws') :
    (∀ p ∈ edits, p.1.Numbered) ∧
      (ws'.stepIds.Nodup ↔ ws.stepIds.Nodup ∧
        ∀ p ∈ edits, p.2.isInsertStep = true → .number StepId.maxNumber ∉ p.1.stepIds) := by
  induction hmoves generalizing proved with
  | done => simp
  | edit granted _ ih =>
      have hchange := changes_of_applyEdit hshaped.nodup granted
      obtain ⟨proved', hshaped'⟩ := hshaped.edit hchange
      obtain ⟨hnumbered, hiff⟩ := ih hshaped' (h.edit hchange)
      refine ⟨List.forall_mem_cons.mpr ⟨h, hnumbered⟩, ?_⟩
      rw [hiff, nodup_edit h hchange, List.forall_mem_cons, and_assoc]
  | levels _ ih =>
      have revises := revises_measureLevels
      have same : ∀ ws : Worksheet, ws.SameIndex ws.measureLevels :=
        fun _ => ⟨rfl, rfl, rfl, rfl, rfl, rfl⟩
      have hrest := ih (hshaped.revise (revises _) (same _)) (h.revise (revises _) (same _))
      rwa [stepIds_of_revises (revises _)] at hrest
  | renumber granted _ ih =>
      rw [← nodup_renumber granted]
      exact ih (hshaped.renumber granted) (.renumber granted)

/-- The steps of a worksheet that has been loaded cleanly, and on which some calls have been made,
have different names exactly if no step was inserted while a step had the greatest possible
number. And an inserted step gets a number that is in use exactly in that case. -/
theorem stepIds_nodup_iff {request : Request} {text : Text}
    (clean : (load db st request text).broken = false) (calls : List Call) :
    (((load db st request text).afterCalls calls).stepIds.Nodup ↔
        ∀ p ∈ (load db st request text).grantedBy calls, p.2.isInsertStep = true →
          .number StepId.maxNumber ∉ p.1.stepIds) ∧
      ∀ p ∈ (load db st request text).grantedBy calls, p.2.isInsertStep = true →
        (.number p.1.nextStepNumber ∈ p.1.stepIds ↔
          .number StepId.maxNumber ∈ p.1.stepIds) := by
  obtain ⟨proved, hshaped⟩ := shaped_load clean
  obtain ⟨hnodup, hnumbered⟩ := numbered_load clean
  obtain ⟨hbounds, hiff⟩ := nodup_moves hshaped hnumbered (moves_afterCalls _ calls)
  refine ⟨hiff.trans (and_iff_right hnodup), fun p hp _ => ?_⟩
  exact (hbounds p hp).fresh

theorem stepIds_nodup_iff_shortText :
    (load .empty {} {} shortText).broken = false ∧
      (((load .empty {} {} shortText).afterCalls
          [.edits {} [.insertStep .qed [] none ⟨[['p']]⟩]]).stepIds.Nodup ↔
        ∀ p ∈ (load .empty {} {} shortText).grantedBy
            [.edits {} [.insertStep .qed [] none ⟨[['p']]⟩]],
          p.2.isInsertStep = true → .number StepId.maxNumber ∉ p.1.stepIds) :=
  ⟨shortText_loads, (stepIds_nodup_iff shortText_loads _).1⟩

/-- A worksheet with a step that has the greatest possible number. -/
def fullText : Text :=
  "$( <MM> <PROOF_ASST> THEOREM=t LOC_AFTER=?\n4294967295::a |- p\nqed:: |- q\n$)\n".toList

/-- Where there is no room for the number of an inserted step, two steps have the same name. -/
theorem stepIds_repeat :
    (load .empty {} {} fullText).broken = false ∧
      ¬ ((load .empty {} {} fullText).afterCalls
        [.edits {} [.insertStep .qed [] none ⟨[['|', '-'], ['r']]⟩]]).stepIds.Nodup := by
  decide +kernel

end Worksheet

end ProofSheet
