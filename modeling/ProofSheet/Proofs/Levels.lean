import ProofSheet.Proofs.Citations
import ProofSheet.Proofs.StepIds

set_option autoImplicit false

/-! # Levels stay right

The levels of a worksheet depend on nothing but the names of its derivation steps and what they
cite (`Levels.of_eq`). So they change only when they are measured: an inserted step is not cited
yet and has level zero (`Levels.follow_insert`), and renumbering gives a step its level under its
new name (`Levels.follow_renamed`). A worksheet whose steps have the levels that they should have
(`Worksheet.Levelled`) therefore keeps that up.
-/

namespace ProofSheet

/-- The name of a derivation step and what it cites. -/
def Content.citing? (c : Content) : Option (StepId × List StepId) :=
  c.derivation?.map fun d => (d.id, d.cited)

namespace Levels

variable {levels : Levels} {id : StepId} {n : Nat}

/-- The steps that a needed step cites are one level further. -/
def visitAt (levels : Levels) (p : StepId × List StepId) : Levels :=
  match if p.1.isQed then some 0 else levels.lookup p.1 with
  | none => levels
  | some n => p.2.foldl (·.raise (n + 1) ·) (levels.raise n p.1)

/-- The levels that follow from what steps cite. -/
def follow (ps : List (StepId × List StepId)) : Levels :=
  ps.foldr (fun p levels => levels.visitAt p) []

theorem of_eq (ss : List Statement) :
    Levels.of ss = follow ((ss.map Statement.content).filterMap Content.citing?) := by
  have hmap : (ss.map Statement.content).filterMap Content.citing? =
      (ss.filterMap Statement.derivation?).map fun d => (d.id, d.cited) := by
    rw [List.filterMap_map, List.map_filterMap]
    rfl
  rw [follow, hmap, List.foldr_map]
  rfl

/-! ## Steps that are not cited -/

theorem lookup_raise_of_ne {i : StepId} (h : id ≠ i) :
    (levels.raise n i).lookup id = levels.lookup id := by
  have hbeq : (id == i) = false := beq_eq_false_iff_ne.mpr h
  unfold raise
  cases levels.lookup i with
  | none => rw [List.lookup_cons, hbeq]
  | some old =>
      dsimp only
      induction levels with
      | nil => rfl
      | cons p rest ih =>
          obtain ⟨j, m⟩ := p
          rw [List.map_cons, List.lookup_cons, ih]
          by_cases hj : j = i
          · subst hj
            rw [if_pos rfl, List.lookup_cons, hbeq]
          · rw [if_neg hj, List.lookup_cons]

theorem lookup_raises_of_not_mem {cited : List StepId} (h : id ∉ cited) :
    (cited.foldl (·.raise n ·) levels).lookup id = levels.lookup id := by
  induction cited generalizing levels with
  | nil => rfl
  | cons i rest ih =>
      rw [List.mem_cons, not_or] at h
      rw [List.foldl_cons, ih h.2, lookup_raise_of_ne h.1]

/-- A step other than `qed` that no step cites has no level. -/
theorem lookup_follow_eq_none {ps : List (StepId × List StepId)} (not_qed : id ≠ .qed)
    (h : ∀ p ∈ ps, id ∉ p.2) : (follow ps).lookup id = none := by
  induction ps with
  | nil => rfl
  | cons p rest ih =>
      obtain ⟨hp, hrest⟩ := List.forall_mem_cons.mp h
      have hnone := ih hrest
      show ((follow rest).visitAt p).lookup id = none
      unfold visitAt
      cases hlevel : (if p.1.isQed then some 0 else (follow rest).lookup p.1) with
      | none => exact hnone
      | some n =>
          -- the step that raises others has a level, so it is another step
          have hne : id ≠ p.1 := by
            rintro rfl
            have hqed : p.1.isQed = false := by simpa [StepId.isQed] using not_qed
            rw [hqed, if_neg (by decide), hnone] at hlevel
            cases hlevel
          dsimp only
          rw [lookup_raises_of_not_mem hp, lookup_raise_of_ne hne, hnone]

/-- A step that no later step cites makes no difference. -/
theorem follow_insert {ps qs : List (StepId × List StepId)} {cited : List StepId}
    (not_qed : id ≠ .qed) (h : ∀ p ∈ qs, id ∉ p.2) :
    follow (ps ++ (id, cited) :: qs) = follow (ps ++ qs) := by
  have hnone := lookup_follow_eq_none not_qed h
  have hqed : id.isQed = false := by simpa [StepId.isQed] using not_qed
  -- a step without a level raises nothing
  have hvisit : (follow qs).visitAt (id, cited) = follow qs := by
    unfold visitAt
    dsimp only
    rw [hqed, if_neg (by decide), hnone]
  unfold follow at hvisit ⊢
  rw [List.foldr_append, List.foldr_append, List.foldr_cons, hvisit]

/-! ## Steps with other names -/

section Renamed

variable {f : StepId → StepId} {known : List StepId}

/-- The levels under other names. -/
def renamed (f : StepId → StepId) (levels : Levels) : Levels := levels.map fun p => (f p.1, p.2)

/-- All levels are those of steps that are known. -/
def Within (levels : Levels) (known : List StepId) : Prop := ∀ p ∈ levels, p.1 ∈ known

theorem Within.raise (h : levels.Within known) (hid : id ∈ known) :
    (levels.raise n id).Within known := by
  intro p hp
  unfold Levels.raise at hp
  cases hlookup : levels.lookup id with
  | none =>
      rw [hlookup] at hp
      rcases List.mem_cons.mp hp with rfl | hp
      · exact hid
      · exact h p hp
  | some old =>
      rw [hlookup] at hp
      obtain ⟨q, hq, rfl⟩ := List.mem_map.mp hp
      have hmem := h q hq
      dsimp only
      split
      · exact hmem
      · exact hmem

theorem lookup_renamed (hinj : ∀ a ∈ known, ∀ b ∈ known, f a = f b → a = b)
    (h : levels.Within known) (hid : id ∈ known) :
    (levels.renamed f).lookup (f id) = levels.lookup id := by
  induction levels with
  | nil => rfl
  | cons p rest ih =>
      obtain ⟨i, m⟩ := p
      obtain ⟨hi, hrest⟩ := List.forall_mem_cons.mp h
      have hsame : (f id == f i) = (id == i) := by
        rw [Bool.eq_iff_iff, beq_iff_eq, beq_iff_eq]
        exact ⟨hinj id hid i hi, congrArg f⟩
      rw [renamed, List.map_cons, List.lookup_cons, List.lookup_cons, hsame, ← renamed, ih hrest]

theorem raise_renamed (hinj : ∀ a ∈ known, ∀ b ∈ known, f a = f b → a = b)
    (h : levels.Within known) (hid : id ∈ known) :
    (levels.renamed f).raise n (f id) = (levels.raise n id).renamed f := by
  unfold raise
  rw [lookup_renamed hinj h hid]
  cases levels.lookup id with
  | none => rfl
  | some old =>
      dsimp only
      rw [renamed, renamed, List.map_map, List.map_map]
      refine List.map_congr_left fun p hp => ?_
      have hsame : f p.1 = f id ↔ p.1 = id := ⟨hinj _ (h p hp) _ hid, congrArg f⟩
      by_cases heq : p.1 = id
      · simp [heq]
      · simp [heq, mt hsame.mp heq]

theorem raises_renamed (hinj : ∀ a ∈ known, ∀ b ∈ known, f a = f b → a = b)
    (h : levels.Within known) {cited : List StepId} (hcited : ∀ i ∈ cited, i ∈ known) :
    (cited.map f).foldl (·.raise n ·) (levels.renamed f) =
        (cited.foldl (·.raise n ·) levels).renamed f ∧
      (cited.foldl (·.raise n ·) levels).Within known := by
  induction cited generalizing levels with
  | nil => exact ⟨rfl, h⟩
  | cons i rest ih =>
      obtain ⟨hi, hrest⟩ := List.forall_mem_cons.mp hcited
      rw [List.map_cons, List.foldl_cons, List.foldl_cons, raise_renamed hinj h hi]
      exact ih (h.raise hi) hrest

/-- Under other names, steps have the levels that they had. -/
theorem follow_renamed (hinj : ∀ a ∈ known, ∀ b ∈ known, f a = f b → a = b)
    (hqed : ∀ i, f i = .qed ↔ i = .qed) {ps : List (StepId × List StepId)}
    (hps : ∀ p ∈ ps, p.1 ∈ known ∧ ∀ i ∈ p.2, i ∈ known) :
    follow (ps.map fun p => (f p.1, p.2.map f)) = (follow ps).renamed f ∧
      (follow ps).Within known := by
  induction ps with
  | nil => exact ⟨rfl, fun p hp => (by cases hp)⟩
  | cons p rest ih =>
      obtain ⟨⟨hid, hcited⟩, hrest⟩ := List.forall_mem_cons.mp hps
      obtain ⟨hfollow, hwithin⟩ := ih hrest
      have hsame : (f p.1).isQed = p.1.isQed := by
        rw [Bool.eq_iff_iff, StepId.isQed, StepId.isQed, beq_iff_eq, beq_iff_eq]
        exact hqed p.1
      show (follow (rest.map _)).visitAt (f p.1, p.2.map f) = ((follow rest).visitAt p).renamed f ∧
        ((follow rest).visitAt p).Within known
      rw [hfollow]
      unfold visitAt
      dsimp only
      rw [hsame, lookup_renamed hinj hwithin hid]
      cases (if p.1.isQed then some 0 else (follow rest).lookup p.1) with
      | none => exact ⟨rfl, hwithin⟩
      | some n =>
          dsimp only
          rw [raise_renamed hinj hwithin hid]
          exact raises_renamed hinj (hwithin.raise hid) hcited

end Renamed

end Levels

/-- The name and the level of a step, and what it cites. -/
def Content.standing (c : Content) : Option (StepId × Nat) × Option (StepId × List StepId) :=
  (c.step?.map fun s => (s.id, s.level), c.citing?)

namespace Statement

/-! ## Edits of one step -/

theorem standing_withRef (label : Text) (s : Statement) :
    (s.withRef label).content.standing = s.content.standing := by
  show ((s.content.mapDerivation _).mapStep _).standing = _
  cases s.content <;> rfl

theorem standing_withFormula (formula : Formula) (s : Statement) :
    (s.withFormula formula).content.standing = s.content.standing := by
  show ((s.content.mapDerivation _).mapStep _).standing = _
  cases s.content <;> rfl

theorem standing_withStatus (unification : Unification) (distinctCheck : DistinctCheck)
    (proof : Option (List Text)) (s : Statement) :
    (s.withStatus unification distinctCheck proof).content.standing = s.content.standing := by
  show (s.content.mapDerivation _).standing = _
  cases s.content <;> rfl

end Statement

namespace Worksheet

variable {ws ws' : Worksheet} {st : Settings}

/-- The levels of the steps are what they would be if they were measured. -/
def Levelled (ws : Worksheet) : Prop :=
  ∀ c ∈ ws.contents, ∀ step, c.step? = some step →
    step.level = ((Levels.of ws.statements).lookup step.id).getD 0

theorem levels_eq (ws : Worksheet) :
    Levels.of ws.statements = Levels.follow (ws.contents.filterMap Content.citing?) :=
  Levels.of_eq ws.statements

/-- Only names, levels and citations matter. -/
theorem Levelled.of_standing (h : ws.Levelled)
    (hsame : ws'.contents.map Content.standing = ws.contents.map Content.standing) :
    ws'.Levelled := by
  have citing_of : ∀ cs : List Content,
      cs.filterMap Content.citing? = (cs.map Content.standing).filterMap Prod.snd := by
    intro cs
    rw [List.filterMap_map]
    rfl
  have hlevels : Levels.of ws'.statements = Levels.of ws.statements := by
    rw [levels_eq, levels_eq, citing_of, citing_of, hsame]
  intro c' hc' step' hstep'
  have hmem : c'.standing ∈ ws.contents.map Content.standing := by
    rw [← hsame]
    exact List.mem_map_of_mem hc'
  obtain ⟨c, hc, hstanding⟩ := List.mem_map.mp hmem
  have hpair : c.step?.map (fun s => (s.id, s.level)) = some (step'.id, step'.level) := by
    have := congrArg Prod.fst hstanding
    rw [Content.standing, Content.standing, hstep'] at this
    exact this
  obtain ⟨step, hstep, heq⟩ := Option.map_eq_some_iff.mp hpair
  have hid : step.id = step'.id := congrArg Prod.fst heq
  have hlevel : step.level = step'.level := congrArg Prod.snd heq
  rw [hlevels, ← hid, ← hlevel]
  exact h c hc step hstep

/-- Measured levels are right. -/
theorem levelled_measureLevels (ws : Worksheet) : ws.measureLevels.Levelled := by
  let levels := Levels.of ws.statements
  have hcontents : ws.measureLevels.contents = ws.contents.map (Content.mapStep levels.record) := by
    rw [contents, contents, List.map_map]
    show (ws.statements.map (·.mapStep levels.record)).map Statement.content = _
    rw [List.map_map]
    rfl
  have hlevels : Levels.of ws.measureLevels.statements = levels := by
    show _ = Levels.of ws.statements
    rw [levels_eq, levels_eq, hcontents, List.filterMap_map]
    congr 1
    refine congrArg (List.filterMap · ws.contents) (funext fun c => ?_)
    cases c <;> rfl
  intro c' hc' step' hstep'
  rw [hcontents] at hc'
  obtain ⟨c, hc, rfl⟩ := List.mem_map.mp hc'
  rw [hlevels]
  cases c with
  | hypothesis s =>
      cases hstep'
      rfl
  | derivation d =>
      cases hstep'
      rfl
  | _ => cases hstep'

/-- Measuring levels that are right changes nothing. -/
theorem Levelled.measured (h : ws.Levelled) :
    ws.statements.map (·.mapStep (Levels.of ws.statements).record) = ws.statements := by
  have same : ∀ s ∈ ws.statements, s.mapStep (Levels.of ws.statements).record = s := by
    intro s hs
    have hlevel := h s.content (mem_contents hs)
    obtain ⟨id, content, lead, tail, start, position⟩ := s
    have hcontent : content.mapStep (Levels.of ws.statements).record = content := by
      cases content with
      | hypothesis step =>
          have heq := hlevel step rfl
          show Content.hypothesis { step with level := _ } = _
          rw [← heq]
      | derivation d =>
          have heq : d.level = _ := hlevel d.toStep rfl
          show Content.derivation { d with level := _ } = _
          rw [← heq]
      | _ => rfl
    show Statement.mk _ (content.mapStep _) _ _ _ _ = _
    rw [hcontent]
  rw [List.map_congr_left same, List.map_id']

theorem Levelled.measureLevels_eq (h : ws.Levelled) : ws.measureLevels = ws := by
  have hmeasured : ws.measureLevels =
      { ws with statements := ws.statements.map (·.mapStep (Levels.of ws.statements).record) } := rfl
  rw [hmeasured, h.measured]

/-- A step that no step cites may be put in with level zero. -/
theorem Levelled.insert (h : ws.Levelled) {before after : List Statement} {id : StatementId}
    {d : Derivation} (hss : ws.statements = before ++ after)
    (hentries : ws'.entries =
      before.map Statement.entry ++ (id, .derivation d) :: after.map Statement.entry)
    (hlevel : d.level = 0) (not_qed : d.id ≠ .qed)
    (uncited : ∀ d', .derivation d' ∈ ws.contents → d.id ∉ d'.cited) : ws'.Levelled := by
  have hold : ws.contents = before.map Statement.content ++ after.map Statement.content := by
    rw [contents, hss, List.map_append]
  have hnew := contents_of_entries hentries
  have uncited_by : ∀ p ∈ ws.contents.filterMap Content.citing?, d.id ∉ p.2 := by
    intro p hp
    obtain ⟨c, hc, hciting⟩ := List.mem_filterMap.mp hp
    cases c with
    | derivation d' =>
        cases hciting
        exact uncited d' hc
    | _ => cases hciting
  have hlevels : Levels.of ws'.statements = Levels.of ws.statements := by
    have hnone : ∀ p ∈ (after.map Statement.content).filterMap Content.citing?, d.id ∉ p.2 := by
      intro p hp
      apply uncited_by p
      rw [hold, List.filterMap_append]
      exact List.mem_append_right _ hp
    rw [levels_eq, levels_eq, hnew, hold, List.filterMap_append, List.filterMap_append]
    exact Levels.follow_insert not_qed hnone
  intro c hc step hstep
  rw [hlevels]
  rw [hnew, List.mem_append, List.mem_cons, or_left_comm, ← List.mem_append, ← hold] at hc
  rcases hc with rfl | hc
  · cases hstep
    rw [levels_eq, Levels.lookup_follow_eq_none not_qed uncited_by]
    exact hlevel
  · exact h c hc step hstep

/-- What steps cite are steps. -/
theorem CitesBackwards.citesOnly (h : ws.CitesBackwards) {c : Content} (hc : c ∈ ws.contents) :
    CitesOnly ws.stepIds c := by
  obtain ⟨before, after, hcontents⟩ := List.append_of_mem hc
  rw [CitesBackwards, hcontents, along_append, along_cons, List.nil_append] at h
  rw [stepIds_eq, hcontents, List.filterMap_append]
  exact CitesOnly.mono (List.subset_append_left _ _) c h.2.1

theorem CitesBackwards.cited_mem (h : ws.CitesBackwards) {d : Derivation}
    (hd : .derivation d ∈ ws.contents) {id : StepId} (hid : id ∈ d.cited) : id ∈ ws.stepIds :=
  (h.citesOnly hd).citesEarlier d rfl id hid

/-- A renamed step cites what it cited, under the new names. -/
theorem citing?_applyContent (names : Renaming) (c : Content) :
    (names.applyContent c).citing? =
      c.citing?.map fun p => (names.apply p.1, p.2.map names.apply) := by
  cases c with
  | derivation d =>
      have hcited : (d.hyps.map names.applyCitation).filterMap Citation.step? =
          d.cited.map names.apply := by
        rw [Derivation.cited, List.filterMap_map, List.map_filterMap]
        congr 1
        funext entry
        cases entry <;> rfl
      show some (names.apply d.id, (d.hyps.map names.applyCitation).filterMap Citation.step?) = _
      rw [hcited]
      rfl
  | _ => rfl

/-- Renumbering keeps the levels right. -/
theorem Levelled.renumber {interval changed : Nat} (h : ws.Levelled) (hcites : ws.CitesBackwards)
    (hrenumber : ws.renumber interval = .ok (ws', changed)) : ws'.Levelled := by
  obtain ⟨hpos, -, rfl⟩ := renumber_ok hrenumber
  let names := ws.newNames interval
  have hids : ∀ c ∈ ws.contents, ∀ step, c.step? = some step → step.id ∈ ws.stepIds := by
    intro c hc step hstep
    rw [stepIds_eq]
    refine List.mem_filterMap.mpr ⟨c, hc, ?_⟩
    rw [Content.stepId?, hstep]
    rfl
  have hknown : ∀ p ∈ ws.contents.filterMap Content.citing?,
      p.1 ∈ ws.stepIds ∧ ∀ i ∈ p.2, i ∈ ws.stepIds := by
    intro p hp
    obtain ⟨c, hc, hciting⟩ := List.mem_filterMap.mp hp
    cases c with
    | derivation d =>
        cases hciting
        exact ⟨hids _ hc _ rfl, fun i hi => hcites.cited_mem hc hi⟩
    | _ => cases hciting
  have hinj : ∀ a ∈ ws.stepIds, ∀ b ∈ ws.stepIds, names.apply a = names.apply b → a = b :=
    fun a ha b hb => newNames_injOn hpos ha hb
  obtain ⟨hfollow, hwithin⟩ := Levels.follow_renamed hinj (newNames_eq_qed ws interval) hknown
  have hcontents : (respan
      { ws with
        statements := ws.statements.map names.applyStatement
        greatestStep := interval * ws.numberedIds.length }).contents =
      ws.contents.map names.applyContent := by
    rw [contents_respan, contents, contents, List.map_map, List.map_map]
    rfl
  intro c' hc' step' hstep'
  rw [levels_eq, hcontents, List.filterMap_map]
  -- what the steps cite now is what they cited, under the new names
  have hciting : ws.contents.filterMap (Content.citing? ∘ names.applyContent) =
      (ws.contents.filterMap Content.citing?).map
        fun p => (names.apply p.1, p.2.map names.apply) := by
    rw [List.map_filterMap]
    exact congrArg (List.filterMap · ws.contents) (funext (citing?_applyContent names))
  rw [hciting, hfollow]
  rw [hcontents] at hc'
  obtain ⟨c, hc, rfl⟩ := List.mem_map.mp hc'
  -- the step keeps its level and is found under its new name
  obtain ⟨step, hstep, hid, hlevel⟩ : ∃ step, c.step? = some step ∧
      step'.id = names.apply step.id ∧ step'.level = step.level := by
    cases c with
    | hypothesis s =>
        cases hstep'
        exact ⟨s, rfl, rfl, rfl⟩
    | derivation d =>
        cases hstep'
        exact ⟨d.toStep, rfl, rfl, rfl⟩
    | _ => cases hstep'
  rw [hid, hlevel, Levels.lookup_renamed hinj hwithin (hids c hc step hstep), h c hc step hstep,
    levels_eq]

/-! ## Edits -/

/-- Changing a statement without touching its name, its level or what it cites. -/
theorem Levelled.reviseAt (h : ws.Levelled) {before after : List Statement} {s s' : Statement}
    (hss : ws.statements = before ++ s :: after)
    (hentries : ws'.entries = (before ++ s' :: after).map Statement.entry)
    (hstanding : s'.content.standing = s.content.standing) : ws'.Levelled := by
  refine h.of_standing ?_
  have hnew : ws'.contents = (before ++ s' :: after).map Statement.content := by
    rw [contents_eq, hentries, List.map_map]
    rfl
  rw [hnew, contents, hss, List.map_append, List.map_append, List.map_append, List.map_append,
    List.map_cons, List.map_cons, List.map_cons, List.map_cons, hstanding]

/-- A statement that is not a step may be put in, perhaps in the place of others. -/
theorem Levelled.exchange (h : ws.Levelled) {before after : List Statement} {id : StatementId}
    {c : Content} (dropped : List Statement) (hss : ws.statements = before ++ (dropped ++ after))
    (hdropped : ∀ t ∈ dropped, t.content.step? = none)
    (hentries : ws'.entries =
      before.map Statement.entry ++ (id, c) :: after.map Statement.entry)
    (hc : c.step? = none) : ws'.Levelled := by
  have hold : ws.contents =
      before.map Statement.content ++ (dropped.map Statement.content ++
        after.map Statement.content) := by
    rw [contents, hss, List.map_append, List.map_append]
  have hnew := contents_of_entries hentries
  have no_citing : ∀ {c : Content}, c.step? = none → c.citing? = none := by
    intro c hc
    rw [Content.citing?, Content.derivation?_of_not_step hc, Option.map_none]
  have hnone : (dropped.map Statement.content).filterMap Content.citing? = [] := by
    rw [List.filterMap_map, List.filterMap_eq_nil_iff]
    exact fun t ht => no_citing (hdropped t ht)
  have hlevels : Levels.of ws'.statements = Levels.of ws.statements := by
    rw [levels_eq, levels_eq, hnew, hold, List.filterMap_append, List.filterMap_append,
      List.filterMap_append, hnone, List.filterMap_cons_none (no_citing hc), List.nil_append]
  intro c' hc' step hstep
  rw [hlevels]
  refine h c' ?_ step hstep
  rw [hnew, List.mem_append, List.mem_cons] at hc'
  rw [hold, List.mem_append, List.mem_append]
  rcases hc' with hc' | rfl | hc'
  · exact Or.inl hc'
  · rw [hc] at hstep
    cases hstep
  · exact Or.inr (Or.inr hc')

/-- An edit that is granted keeps the levels right, if it gives no step a name that is in use. -/
theorem Levelled.edit {e : Edit} (h : ws.Levelled) (hids : ws.ids.Nodup)
    (hcites : ws.CitesBackwards) (granted : ws.applyEdit st e = .ok ws')
    (fresh : e.isInsertStep = true → .number ws.nextStepNumber ∉ ws.stepIds) : ws'.Levelled := by
  have none_dropped : ∀ t ∈ ([] : List Statement), t.content.step? = none :=
    fun t ht => (by cases ht)
  cases e with
  | setRef step label =>
      obtain ⟨before, s, after, split, rfl⟩ := setRef_ok granted
      exact h.reviseAt split.statements (entries_respan _) (s.standing_withRef label)
  | setFormula step formula =>
      obtain ⟨before, s, after, split, rfl⟩ := setFormula_ok granted
      exact h.reviseAt split.statements (entries_respan _) (s.standing_withFormula formula)
  | setStatus step unification distinctCheck proof =>
      obtain ⟨before, s, after, split, -, rfl⟩ := setStatus_ok granted
      exact h.reviseAt split.statements rfl
        (s.standing_withStatus unification distinctCheck proof)
  | insertStep step hyps ref formula =>
      obtain ⟨before, s, after, split, -, -, rfl⟩ := insertStep_ok granted
      -- the name of the new step is not in use, so no step cites it
      refine h.insert split.statements ((entries_respan _).trans List.map_append) rfl
        (fun heq => (by cases heq)) ?_
      intro d hd hmem
      exact fresh rfl (hcites.cited_mem hd hmem)
  | insertDistinctVars vars =>
      obtain ⟨-, before, after, hss, -, rfl⟩ := insertDistinctVars_ok granted
      exact h.exchange [] hss none_dropped ((entries_respan _).trans List.map_append) rfl
  | insertProof proof =>
      have inserted : ws.insertProof st proof = ws' := Except.ok.inj granted
      rw [← inserted]
      obtain ⟨before, old, after, hss, hold, hws⟩ | ⟨before, after, hss, -, -, hws⟩ :=
        insertProof_split st ws proof hids
      · rw [hws]
        refine h.exchange [old] hss ?_ ((entries_respan _).trans List.map_append) rfl
        intro t ht
        rw [List.mem_singleton.mp ht]
        exact Content.step?_of_isProof hold
      · rw [hws]
        exact h.exchange [] hss none_dropped ((entries_respan _).trans List.map_append) rfl
  | placeCursor step field =>
      obtain ⟨c, rfl⟩ := moveCursor_ok granted
      exact h

end Worksheet

end ProofSheet
