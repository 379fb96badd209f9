import ProofSheet.Proofs.Intact
import ProofSheet.Proofs.WellShaped
import Mathlib.Order.Bounds.Basic

set_option autoImplicit false

/-! # Levels are longest paths

The level of a step is the length of the longest chain of citations from `qed` down to it
(`Worksheet.level_isGreatest`). The levels are found in one pass over the derivation steps, from the
last to the first. The invariant of the pass is about the steps that it has been through: for every
name, `Levels.Measures` compares its level with the chains that these steps make. One more step
makes chains only to what it cites, and to itself if it is `qed` (`Levels.path_cons`); and as
citations go backwards, all chains to that step are known by then.
-/

namespace ProofSheet

namespace Levels

variable {levels : Levels} {id : StepId} {n : Nat}

/-! ## Raising -/

theorem lookup_raise_self (levels : Levels) (id : StepId) (n : Nat) :
    (levels.raise n id).lookup id = some ((levels.lookup id).elim n (max · n)) := by
  unfold raise
  cases hold : levels.lookup id with
  | none => rw [List.lookup_cons, beq_self_eq_true]; rfl
  | some old =>
      dsimp only [Option.elim_some]
      induction levels with
      | nil => cases hold
      | cons p rest ih =>
          obtain ⟨i, m⟩ := p
          rw [List.lookup_cons] at hold
          by_cases hi : i = id
          · rw [List.map_cons, if_pos hi, List.lookup_cons, hi, beq_self_eq_true]
          · have hbeq : (id == i) = false := beq_eq_false_iff_ne.mpr (Ne.symm hi)
            rw [hbeq] at hold
            rw [List.map_cons, if_neg hi, List.lookup_cons, hbeq]
            exact ih hold

/-- A step that is cited is raised, however often it is. -/
theorem lookup_raises_of_mem {cited : List StepId} (h : id ∈ cited) :
    (cited.foldl (·.raise n ·) levels).lookup id =
      some ((levels.lookup id).elim n (max · n)) := by
  induction cited generalizing levels with
  | nil => cases h
  | cons i rest ih =>
      rw [List.foldl_cons]
      by_cases hrest : id ∈ rest
      · rw [ih hrest]
        by_cases hi : id = i
        · subst hi
          rw [lookup_raise_self]
          cases levels.lookup id <;> simp
        · rw [lookup_raise_of_ne hi]
      · rw [lookup_raises_of_not_mem hrest, (List.mem_cons.mp h).resolve_right hrest,
          lookup_raise_self]

/-! ## Chains of names -/

/-- There is a chain of `n` citations from `qed` to a name. -/
inductive Path (ps : List (StepId × List StepId)) : Nat → StepId → Prop
  | qed {cited : List StepId} : (.qed, cited) ∈ ps → Path ps 0 .qed
  | cite {n : Nat} {p : StepId × List StepId} {id : StepId} :
      Path ps n p.1 → p ∈ ps → id ∈ p.2 → Path ps (n + 1) id

/-- The names are different, and what is cited is none of the names from there on. -/
def Ordered (ps : List (StepId × List StepId)) : Prop :=
  (∀ p ∈ ps, p.1 ∉ p.2) ∧ ps.Pairwise fun p q => p.1 ≠ q.1 ∧ q.1 ∉ p.2

variable {ps : List (StepId × List StepId)} {p : StepId × List StepId}

theorem Path.mono {qs : List (StepId × List StepId)} (hsub : ps ⊆ qs) (h : Path ps n id) :
    Path qs n id := by
  induction h with
  | qed hmem => exact .qed (hsub hmem)
  | cite _ hp hid ih => exact .cite ih (hsub hp) hid

theorem not_path (h : ∀ p ∈ ps, p.1 ≠ .qed) : ¬ Path ps n id := by
  intro hpath
  induction hpath with
  | qed hmem => exact h _ hmem rfl
  | cite _ _ _ ih => exact ih

/-- The lengths of the chains to a name. -/
def lengths (ps : List (StepId × List StepId)) (id : StepId) : Set Nat := {n | Path ps n id}

/-- The lengths of the chains to a step, as soon as the steps after it are known. -/
def headLengths (ps : List (StepId × List StepId)) (id : StepId) : Set Nat :=
  {n | Path ps n id ∨ (n = 0 ∧ id = .qed)}

/-- A further step makes chains to itself, if it is `qed`, and to what it cites. -/
theorem path_cons (ordered : Ordered (p :: ps)) :
    Path (p :: ps) n id ↔
      Path ps n id ∨ (n = 0 ∧ id = .qed ∧ p.1 = .qed) ∨
        (id ∈ p.2 ∧ ∃ m ∈ headLengths ps p.1, m + 1 = n) := by
  obtain ⟨irreflexive, pairwise⟩ := ordered
  obtain ⟨hhead, -⟩ := List.pairwise_cons.mp pairwise
  constructor
  · intro h
    induction h with
    | qed hmem =>
        rcases List.mem_cons.mp hmem with rfl | hmem
        · exact Or.inr (Or.inl ⟨rfl, rfl, rfl⟩)
        · exact Or.inl (.qed hmem)
    | @cite n q id _ hq hid ih =>
        rcases List.mem_cons.mp hq with rfl | hq
        · -- the chain comes from the further step, which does not cite itself
          refine Or.inr (Or.inr ⟨hid, n, ?_, rfl⟩)
          rcases ih with hpath | ⟨hzero, hqed, -⟩ | ⟨hmem, -⟩
          · exact Or.inl hpath
          · exact Or.inr ⟨hzero, hqed⟩
          · exact absurd hmem (irreflexive _ List.mem_cons_self)
        · -- the chain comes from a later step, which the further step does not cite
          obtain ⟨hne, hnot⟩ := hhead q hq
          rcases ih with hpath | ⟨-, hqed, hpqed⟩ | ⟨hmem, -⟩
          · exact Or.inl (.cite hpath hq hid)
          · exact absurd (hpqed.trans hqed.symm) hne
          · exact absurd hmem hnot
  · have opened : p.1 = .qed → Path (p :: ps) 0 .qed := by
      intro hqed
      have hmem : (StepId.qed, p.2) ∈ p :: ps := hqed ▸ List.mem_cons_self
      exact .qed hmem
    rintro (hpath | ⟨rfl, rfl, hqed⟩ | ⟨hid, m, hpath | ⟨rfl, hqed⟩, rfl⟩)
    · exact hpath.mono (List.subset_cons_self _ _)
    · exact opened hqed
    · exact .cite (hpath.mono (List.subset_cons_self _ _)) List.mem_cons_self hid
    · exact .cite (hqed ▸ opened hqed) List.mem_cons_self hid

theorem lengths_cons_cited (ordered : Ordered (p :: ps)) (hid : id ∈ p.2) :
    lengths (p :: ps) id = lengths ps id ∪ (· + 1) '' headLengths ps p.1 := by
  have hne : ¬ (id = .qed ∧ p.1 = .qed) := by
    rintro ⟨hqed, hpqed⟩
    exact ordered.1 p List.mem_cons_self (hpqed ▸ hqed ▸ hid)
  ext n
  show Path (p :: ps) n id ↔ Path ps n id ∨ ∃ m ∈ headLengths ps p.1, m + 1 = n
  simp only [path_cons ordered, hid, hne, and_false, false_or, true_and]

theorem lengths_cons_self (ordered : Ordered (p :: ps)) :
    lengths (p :: ps) p.1 = headLengths ps p.1 := by
  have hnot : p.1 ∉ p.2 := ordered.1 p List.mem_cons_self
  ext n
  show Path (p :: ps) n p.1 ↔ Path ps n p.1 ∨ (n = 0 ∧ p.1 = .qed)
  simp only [path_cons ordered, hnot, and_self, false_and, or_false]

theorem lengths_cons_other (ordered : Ordered (p :: ps)) (hid : id ∉ p.2) (hne : id ≠ p.1) :
    lengths (p :: ps) id = lengths ps id := by
  have hqed : ¬ (id = .qed ∧ p.1 = .qed) := fun h => hne (h.1.trans h.2.symm)
  ext n
  show Path (p :: ps) n id ↔ Path ps n id
  simp only [path_cons ordered, hid, hqed, and_false, false_and, or_false]

/-! ## The invariant of the pass -/

/-- A level is the length of the longest of some chains, and there is none if there are no
chains. -/
def Measures (lengths : Set Nat) : Option Nat → Prop
  | none => lengths = ∅
  | some level => IsGreatest lengths level

/-- More chains raise a level. -/
theorem Measures.union {old more : Set Nat} {level : Option Nat} (h : Measures old level)
    (hmore : IsGreatest more n) : Measures (old ∪ more) (some (level.elim n (max · n))) := by
  cases level with
  | none =>
      have hempty : old = ∅ := h
      rw [hempty, Set.empty_union]
      exact hmore
  | some level => exact IsGreatest.union h hmore

/-- The level that a step is visited with. -/
theorem measures_head (ordered : Ordered (p :: ps))
    (later : Measures (lengths ps p.1) ((follow ps).lookup p.1)) :
    Measures (headLengths ps p.1) (if p.1.isQed then some 0 else (follow ps).lookup p.1) := by
  by_cases hqed : p.1 = .qed
  · -- no later step is `qed`, so there are no chains yet
    have not_qed : ∀ q ∈ ps, q.1 ≠ .qed := by
      intro q hq heq
      exact ((List.pairwise_cons.mp ordered.2).1 q hq).1 (hqed.trans heq.symm)
    have hzero : headLengths ps p.1 = {0} := by
      ext n
      simp [headLengths, not_path not_qed, hqed]
    rw [hzero, hqed]
    exact isGreatest_singleton
  · have hnot : p.1.isQed = false := by simpa [StepId.isQed] using hqed
    have hsame : headLengths ps p.1 = lengths ps p.1 := by
      ext n
      simp [headLengths, lengths, hqed]
    rw [hsame, hnot]
    exact later

/-- The pass measures the chains that it has been through. -/
theorem measures_follow (ordered : Ordered ps) (id : StepId) :
    Measures (lengths ps id) ((follow ps).lookup id) := by
  induction ps generalizing id with
  | nil => exact Set.eq_empty_iff_forall_notMem.mpr fun n => not_path fun p hp => (by cases hp)
  | cons p rest ih =>
      have later := ih ⟨fun q hq => ordered.1 q (List.mem_cons_of_mem _ hq),
        (List.pairwise_cons.mp ordered.2).2⟩
      have head := measures_head ordered (later p.1)
      have union_head : lengths rest p.1 ∪ headLengths rest p.1 = headLengths rest p.1 :=
        Set.union_eq_right.mpr fun n hn => Or.inl hn
      show Measures _ (((follow rest).visitAt p).lookup id)
      unfold visitAt
      cases hlevel : (if p.1.isQed then some 0 else (follow rest).lookup p.1) with
      | none =>
          -- no chain leads to the step, so it makes none
          have hempty : headLengths rest p.1 = ∅ := by rwa [hlevel] at head
          have hsame : lengths (p :: rest) id = lengths rest id := by
            by_cases hcited : id ∈ p.2
            · rw [lengths_cons_cited ordered hcited, hempty, Set.image_empty, Set.union_empty]
            · by_cases hid : id = p.1
              · rw [hempty, Set.union_empty] at union_head
                rw [hid, lengths_cons_self ordered, hempty, union_head]
              · exact lengths_cons_other ordered hcited hid
          rw [hsame]
          exact later id
      | some n =>
          have greatest : IsGreatest (headLengths rest p.1) n := by rwa [hlevel] at head
          dsimp only
          by_cases hcited : id ∈ p.2
          · have hid : id ≠ p.1 := fun heq => ordered.1 p List.mem_cons_self (heq ▸ hcited)
            have further : IsGreatest ((· + 1) '' headLengths rest p.1) (n + 1) := by
              refine ⟨Set.mem_image_of_mem _ greatest.1, ?_⟩
              rintro - ⟨m, hm, rfl⟩
              exact Nat.succ_le_succ (greatest.2 hm)
            rw [lookup_raises_of_mem hcited, lookup_raise_of_ne hid,
              lengths_cons_cited ordered hcited]
            exact (later id).union further
          · rw [lookup_raises_of_not_mem hcited]
            by_cases hid : id = p.1
            · rw [hid, lookup_raise_self, lengths_cons_self ordered, ← union_head]
              exact (later p.1).union greatest
            · rw [lookup_raise_of_ne hid, lengths_cons_other ordered hcited hid]
              exact later id

end Levels

/-! ## Chains of statements -/

/-- A derivation step cites a proof step. -/
def Statement.Cites (s t : Statement) : Prop :=
  ∃ d id, s.content = .derivation d ∧ id ∈ d.cited ∧ t.stepId? = some id

namespace Worksheet

variable {ws : Worksheet} {db : Database} {st : Settings} {n : Nat}

/-- There is a chain of `n` hypothesis references from `qed` to a statement. -/
inductive ChainTo (ws : Worksheet) : Nat → Statement → Prop
  | qed {s : Statement} : s ∈ ws.statements → s.stepId? = some .qed → ChainTo ws 0 s
  | cite {n : Nat} {s t : Statement} :
      ChainTo ws n s → t ∈ ws.statements → s.Cites t → ChainTo ws (n + 1) t

/-- The names of the derivation steps, with what they cite. -/
def citing (ws : Worksheet) : List (StepId × List StepId) :=
  ws.contents.filterMap Content.citing?

theorem mem_citing {p : StepId × List StepId} : p ∈ ws.citing ↔
    ∃ s ∈ ws.statements, ∃ d, s.content = .derivation d ∧ p = (d.id, d.cited) := by
  rw [citing, contents, List.filterMap_map, List.mem_filterMap]
  refine exists_congr fun s => and_congr_right fun _ => ?_
  show s.content.citing? = some p ↔ _
  cases s.content with
  | derivation d => simp [Content.citing?, Content.derivation?, eq_comm]
  | _ => simp [Content.citing?, Content.derivation?]

theorem ChainTo.mem {s : Statement} (h : ws.ChainTo n s) : s ∈ ws.statements := by
  cases h with
  | qed hs _ => exact hs
  | cite _ hs _ => exact hs

theorem stepId?_of_derivation {s : Statement} {d : Derivation} (hd : s.content = .derivation d) :
    s.stepId? = some d.id := by
  rw [Statement.stepId?_eq, hd]
  rfl

/-- A chain of statements is a chain of names. -/
theorem chainTo_iff (qed_derives : ∀ s ∈ ws.statements, s.stepId? = some .qed →
      ∃ d, s.content = .derivation d) {s : Statement} (hs : s ∈ ws.statements) {id : StepId}
    (hid : s.stepId? = some id) : ws.ChainTo n s ↔ Levels.Path ws.citing n id := by
  constructor
  · intro h
    induction h generalizing id with
    | qed hs hqed =>
        obtain ⟨d, hd⟩ := qed_derives _ hs hqed
        have hname := stepId?_of_derivation hd
        rw [hqed, Option.some.injEq] at hname hid
        rw [← hid]
        have hmem : (StepId.qed, d.cited) ∈ ws.citing :=
          mem_citing.mpr ⟨_, hs, d, hd, by rw [hname]⟩
        exact .qed hmem
    | cite hchain ht hcites ih =>
        obtain ⟨d, id', hd, hcited, hid'⟩ := hcites
        rw [hid', Option.some.injEq] at hid
        rw [← hid]
        exact .cite (p := (d.id, d.cited)) (ih hchain.mem (stepId?_of_derivation hd))
          (mem_citing.mpr ⟨_, hchain.mem, d, hd, rfl⟩) hcited
  · intro h
    induction h generalizing s with
    | qed _ => exact .qed hs hid
    | cite _ hp hcited ih =>
        obtain ⟨t, ht, d, hd, rfl⟩ := mem_citing.mp hp
        exact .cite (ih ht (stepId?_of_derivation hd)) hs ⟨d, _, hd, hcited, hid⟩

theorem mem_stepIds_of_citing {cs : List Content} {p : StepId × List StepId}
    (hp : p ∈ cs.filterMap Content.citing?) : p.1 ∈ cs.filterMap Content.stepId? := by
  obtain ⟨c, hc, hciting⟩ := List.mem_filterMap.mp hp
  cases c with
  | derivation d =>
      cases hciting
      exact List.mem_filterMap.mpr ⟨_, hc, rfl⟩
  | _ => cases hciting

/-- What steps with different names cite backwards is in order. -/
theorem ordered_of_along {earlier : List StepId} {cs : List Content}
    (hcites : Along CitesOnly earlier cs)
    (nodup : (earlier ++ cs.filterMap Content.stepId?).Nodup) :
    Levels.Ordered (cs.filterMap Content.citing?) := by
  induction cs generalizing earlier with
  | nil => exact ⟨fun p hp => (by cases hp), List.Pairwise.nil⟩
  | cons c rest ih =>
      obtain ⟨hc, hrest⟩ := along_cons.mp hcites
      have hids : (c :: rest).filterMap Content.stepId? =
          c.stepId?.toList ++ rest.filterMap Content.stepId? := by
        rw [List.filterMap_cons]
        cases c.stepId? <;> rfl
      rw [hids, ← List.append_assoc] at nodup
      have ordered := ih hrest nodup
      cases c with
      | derivation d =>
          obtain ⟨front, -, disjoint⟩ := List.nodup_append.mp nodup
          -- what the step cites is among the names before it
          have cited : ∀ id ∈ d.cited, id ∈ earlier := hc.citesEarlier d rfl
          have hself : d.id ∉ d.cited := fun hmem =>
            (List.nodup_append.mp front).2.2 _ (cited _ hmem) _ List.mem_cons_self rfl
          refine ⟨List.forall_mem_cons.mpr ⟨hself, ordered.1⟩,
            List.pairwise_cons.mpr ⟨fun q hq => ?_, ordered.2⟩⟩
          have hlater := mem_stepIds_of_citing hq
          constructor
          · exact disjoint _ (List.mem_append_right _ List.mem_cons_self) _ hlater
          · exact fun hmem => disjoint _ (List.mem_append_left _ (cited _ hmem)) _ hlater rfl
      | _ => exact ordered

/-- The step `qed` is a derivation step. -/
theorem Shaped.qed_derives {p : Phase} (h : ws.Shaped p) {s : Statement} (hs : s ∈ ws.statements)
    (hqed : s.stepId? = some .qed) : ∃ d, s.content = .derivation d := by
  obtain ⟨before, after, hss⟩ := List.append_of_mem hs
  obtain ⟨p₁, p₂, -, hnext, -⟩ := h.split before hss
  obtain ⟨-, -, -, -, not_hypothesis, -⟩ := Phase.next_requires hnext
  have isQed : s.content.isQed = true := by
    rw [Content.isQed, beq_iff_eq, ← Statement.stepId?_eq]
    exact hqed
  cases hc : s.content with
  | derivation d => exact ⟨d, rfl⟩
  | hypothesis step =>
      rw [(not_hypothesis (by rw [hc]; rfl)).2] at isQed
      cases isQed
  | _ =>
      rw [hc] at isQed
      cases isQed

/-- The levels of an intact worksheet are the lengths of the longest chains. -/
theorem Intact.isGreatest_level (h : ws.Intact) {s : Statement} (hs : s ∈ ws.statements)
    {step : Step} (hstep : s.step? = some step) :
    IsGreatest {n | ws.ChainTo n s} step.level ∨ ({n | ws.ChainTo n s} = ∅ ∧ step.level = 0) := by
  obtain ⟨proved, shaped⟩ := h.shaped
  have hid : s.stepId? = some step.id := by rw [Statement.stepId?, hstep]; rfl
  have hchains : {n | ws.ChainTo n s} = Levels.lengths ws.citing step.id := by
    ext n
    exact chainTo_iff (fun t ht => shaped.qed_derives ht) hs hid
  have hlevel := h.levelled s.content (mem_contents hs) step hstep
  have nodup := h.nodup
  rw [stepIds_eq] at nodup
  have measures : Levels.Measures (Levels.lengths ws.citing step.id)
      ((Levels.follow ws.citing).lookup step.id) :=
    Levels.measures_follow (ordered_of_along h.cites nodup) step.id
  have hlevels : Levels.of ws.statements = Levels.follow ws.citing := ws.levels_eq
  rw [hchains, hlevel, hlevels]
  cases hlookup : (Levels.follow ws.citing).lookup step.id with
  | none =>
      rw [hlookup] at measures
      exact Or.inr ⟨measures, rfl⟩
  | some level =>
      rw [hlookup] at measures
      exact Or.inl measures

/-- In a worksheet that has been loaded cleanly, and on which some calls have been made, the level
of a step is the length of the longest chain of hypothesis references from `qed` to it, and zero if
there is no chain, as long as the steps have different names. -/
theorem level_isGreatest {request : Request} {text : Text}
    (clean : (load db st request text).broken = false) (calls : List Call)
    (nodup : ((load db st request text).afterCalls calls).stepIds.Nodup) :
    let after := (load db st request text).afterCalls calls
    ∀ s ∈ after.statements, ∀ step, s.step? = some step →
      IsGreatest {n | after.ChainTo n s} step.level ∨
        ({n | after.ChainTo n s} = ∅ ∧ step.level = 0) :=
  fun _ hs _ hstep => (intact_afterCalls clean calls nodup).isGreatest_level hs hstep

theorem level_isGreatest_shortText :
    let after := (load .empty {} {} shortText).afterCalls
      [.renumber 10, .edits {} [.insertStep .qed [.number 10] none ⟨[['p']]⟩]]
    (load .empty {} {} shortText).broken = false ∧ after.stepIds.Nodup ∧
      ∀ s ∈ after.statements, ∀ step, s.step? = some step →
        IsGreatest {n | after.ChainTo n s} step.level ∨
          ({n | after.ChainTo n s} = ∅ ∧ step.level = 0) := by
  intro after
  have nodup : after.stepIds.Nodup := by decide +kernel
  exact ⟨shortText_loads, nodup, level_isGreatest shortText_loads _ nodup⟩

end Worksheet

end ProofSheet
