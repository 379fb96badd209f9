import ProofSheet.Proofs.LoadedShape
import Mathlib.Data.List.Induction

set_option autoImplicit false

/-! # What the shape means

A worksheet that loads cleanly has a header first and a footer last, hypotheses before derivation
steps, `qed` as its last step, and after it at most one generated proof; and its indexes agree
with its statements (`Worksheet.WellShaped`). Each clause is read off from the phases that the
statements go through, and all of this stays so whatever calls follow
(`Worksheet.wellShaped_afterCalls`).
-/

namespace ProofSheet

namespace Worksheet

variable {ws : Worksheet} {db : Database} {st : Settings} {p : Phase}

/-- The step that the worksheet has as `qed`. -/
def qedStep? (ws : Worksheet) : Option Statement := ws.qed.bind ws.find?

/-- The shape of a worksheet, clause by clause. -/
structure WellShaped (ws : Worksheet) : Prop where
  header : ∃ s rest, ws.statements = s :: rest ∧ s.isHeader = true ∧
    ∀ t ∈ rest, t.isHeader = false
  footer : ∃ rest s, ws.statements = rest ++ [s] ∧ s.isFooter = true ∧
    ∀ t ∈ rest, t.isFooter = false
  /-- The step `qed` is there once, it is the last step, the worksheet knows it, and no generated
  proof comes before it. -/
  qed : ∃ before s after, ws.statements = before ++ s :: after ∧ s.stepId? = some .qed ∧
    ws.qedStep? = some s ∧ (∀ t ∈ before, t.stepId? ≠ some .qed ∧ t.isProof = false) ∧
    ∀ t ∈ after, t.isStep = false
  hypotheses : ∀ before s after, ws.statements = before ++ s :: after → s.isHypothesis = true →
    ∀ t ∈ before, t.derivation? = none
  proof : ws.statements.countP Statement.isProof ≤ 1
  hypothesisCount : ws.hypothesisCount = ws.statements.countP Statement.isHypothesis
  workVars : ∀ s ∈ ws.statements, ∀ d, s.derivation? = some d →
    (d.hasWorkVars = true ↔ ∃ f, d.formula = some f ∧ f.hasWorkVars = true)

theorem Shaped.split (h : ws.Shaped p) (before : List Statement) {after : List Statement}
    {s : Statement} (hss : ws.statements = before ++ s :: after) :
    ∃ p₁ p₂, Phase.opening.after (before.map Statement.content) = some p₁ ∧
      p₁.next s.content = some p₂ ∧ p₂.after (after.map Statement.content) = some p := by
  have hphase := h.phase
  rw [contents, hss, List.map_append, List.map_cons] at hphase
  exact Phase.after_split hphase

/-- Nothing follows the footer. -/
theorem Shaped.eq_nil_of_footer (h : ws.Shaped p) {before rest : List Statement} {f : Statement}
    (hss : ws.statements = before ++ f :: rest) (hf : f.isFooter = true) : rest = [] := by
  obtain ⟨p₁, p₂, -, hnext, hrest⟩ := h.split before hss
  obtain ⟨-, -, -, -, hclosed⟩ := Phase.next_tells hnext
  rw [← Statement.isFooter_eq, hf, Bool.or_true] at hclosed
  exact List.map_eq_nil_iff.mp (Phase.eq_nil_of_closed hclosed hrest)

/-- What the phase tells of some statements, for a kind of statement that it tells of. -/
theorem any_content {f : Statement → Bool} {g : Content → Bool} (hfg : ∀ s, f s = g s.content)
    {ss : List Statement} : (ss.map Statement.content).any g = false ↔ ∀ t ∈ ss, f t = false := by
  rw [List.any_map, List.any_eq_false]
  simp [hfg]

theorem isQed_eq_false {c : Content} : c.isQed = false ↔ c.stepId? ≠ some .qed := by
  rw [Content.isQed, beq_eq_false_iff_ne]

theorem Shaped.header (h : ws.Shaped p) (hp : p.isOpen = true) :
    ∃ s rest, ws.statements = s :: rest ∧ s.isHeader = true ∧ ∀ t ∈ rest, t.isHeader = false := by
  cases hss : ws.statements with
  | nil =>
      have hphase := h.phase
      rw [contents, hss] at hphase
      cases hphase
      cases hp
  | cons s rest =>
      obtain ⟨p₁, p₂, hnil, hnext, -⟩ := h.split [] hss
      cases hnil
      have hheader : s.isHeader = true := (Phase.next_requires hnext).1.mpr rfl
      refine ⟨s, rest, rfl, hheader, fun t ht => ?_⟩
      obtain ⟨a, b, rfl⟩ := List.append_of_mem ht
      obtain ⟨q₁, q₂, hbefore, hnext', -⟩ := h.split (s :: a) hss
      have hopen : q₁.isOpen = true := by
        rw [(Phase.after_tells hbefore).1, List.map_cons, List.any_cons, ← Statement.isHeader_eq,
          hheader, Bool.true_or, Bool.or_true]
      rw [Statement.isHeader_eq, Bool.eq_false_iff]
      intro ht
      rw [(Phase.next_requires hnext').1.mp ht] at hopen
      cases hopen

theorem Shaped.footer (h : ws.Shaped p) (hp : p.isClosed = true) :
    ∃ rest s, ws.statements = rest ++ [s] ∧ s.isFooter = true ∧ ∀ t ∈ rest, t.isFooter = false := by
  rcases List.eq_nil_or_concat ws.statements with hss | ⟨rest, s, hss⟩
  · have hphase := h.phase
    rw [contents, hss] at hphase
    cases hphase
    cases hp
  · rw [List.concat_eq_append] at hss
    obtain ⟨p₁, p₂, hbefore, hnext, hend⟩ := h.split _ hss
    cases hend
    obtain ⟨-, -, -, -, hclosed⟩ := Phase.next_tells hnext
    have hopen := (Phase.next_requires hnext).2.1
    rw [hopen, Bool.false_or, hp] at hclosed
    refine ⟨rest, s, hss, hclosed.symm, ?_⟩
    rw [← any_content Statement.isFooter_eq]
    obtain ⟨-, -, -, -, htells⟩ := Phase.after_tells hbefore
    exact htells.symm.trans hopen

theorem Shaped.qedStep (h : ws.Shaped p) (hp : p.isConcluded = true) :
    ∃ before s after, ws.statements = before ++ s :: after ∧ s.stepId? = some .qed ∧
      ws.qedStep? = some s ∧ (∀ t ∈ before, t.stepId? ≠ some .qed ∧ t.isProof = false) ∧
      ∀ t ∈ after, t.isStep = false := by
  have hany : ws.contents.any Content.isQed = true := by
    obtain ⟨-, -, htells, -⟩ := Phase.after_tells h.phase
    exact htells.symm.trans hp
  obtain ⟨c, hc, hqed⟩ := List.any_eq_true.mp hany
  obtain ⟨s, hs, rfl⟩ := List.mem_map.mp hc
  have hid : s.stepId? = some .qed := by rwa [Content.isQed, beq_iff_eq] at hqed
  have hstep : s.content.isStep = true := by
    rw [← Content.isSome_stepId?, ← Statement.stepId?_eq, hid]
    rfl
  obtain ⟨before, after, hss⟩ := List.append_of_mem hs
  obtain ⟨p₁, p₂, hbefore, hnext, -⟩ := h.split _ hss
  obtain ⟨-, -, hconcluded, hproved, -⟩ := Phase.after_tells hbefore
  have hopen : p₁.isConcluded = false := (Phase.next_requires hnext).2.2.2.2.2 hstep
  have hunproved : p₁.isProved = false := by
    cases p₁ with
    | concluded proved => cases hopen
    | closed proved => cases hopen
    | _ => rfl
  have no_qed : ∀ t ∈ before, t.content.isQed = false :=
    (any_content fun _ => rfl).mp (hconcluded.symm.trans hopen)
  have no_proof : ∀ t ∈ before, t.isProof = false :=
    (any_content Statement.isProof_eq).mp (hproved.symm.trans hunproved)
  refine ⟨before, s, after, hss, hid, ?_, ?_, ?_⟩
  · rw [qedStep?, h.qed s.entry (List.mem_map_of_mem hs) hqed]
    exact find?_of_nodup h.nodup hs
  · exact fun t ht => ⟨isQed_eq_false.mp (no_qed t ht), no_proof t ht⟩
  · intro t ht
    obtain ⟨a, b, rfl⟩ := List.append_of_mem ht
    have hss' : ws.statements = (before ++ s :: a) ++ t :: b := by rw [hss, List.append_assoc]; rfl
    obtain ⟨q₁, q₂, hbefore', hnext', -⟩ := h.split _ hss'
    obtain ⟨-, -, htells, -⟩ := Phase.after_tells hbefore'
    rw [Statement.isStep_eq, Bool.eq_false_iff]
    intro hstep'
    have hopen' := (Phase.next_requires hnext').2.2.2.2.2 hstep'
    have no_qed' : ∀ u ∈ before ++ s :: a, u.content.isQed = false :=
      (any_content fun _ => rfl).mp (htells.symm.trans hopen')
    have := no_qed' s (by simp)
    rw [hqed] at this
    cases this

theorem Shaped.hypotheses_first (h : ws.Shaped p) {before after : List Statement} {s : Statement}
    (hss : ws.statements = before ++ s :: after) (hs : s.isHypothesis = true) :
    ∀ t ∈ before, t.derivation? = none := by
  obtain ⟨p₁, p₂, hbefore, hnext, -⟩ := h.split _ hss
  obtain ⟨-, htells, -⟩ := Phase.after_tells hbefore
  have hnone : p₁.isDerived = false := ((Phase.next_requires hnext).2.2.2.2.1 hs).1
  have no_derivation : ∀ t ∈ before, t.derivation?.isSome = false :=
    (any_content fun t => t.content.isSome_derivation?).mp (htells.symm.trans hnone)
  intro t ht
  simpa using no_derivation t ht

/-- A kind of element of which each one has none before it is there at most once. -/
theorem countP_le_one {α : Type} {f : α → Bool} {l : List α}
    (h : ∀ a x b, l = a ++ x :: b → f x = true → ∀ y ∈ a, f y = false) : l.countP f ≤ 1 := by
  induction l using List.reverseRecOn with
  | nil => exact Nat.zero_le _
  | append_singleton l x ih =>
      have hl : l.countP f ≤ 1 := by
        refine ih fun a y b hsplit => h a y (b ++ [x]) ?_
        rw [hsplit, List.append_assoc]
        rfl
      rw [List.countP_append, List.countP_singleton]
      by_cases hx : f x = true
      · have hzero : l.countP f = 0 :=
          List.countP_eq_zero.mpr fun y hy => Bool.eq_false_iff.mp (h l x [] rfl hx y hy)
        have hone : (if f x = true then 1 else 0) = 1 := if_pos hx
        omega
      · rw [if_neg hx]
        exact hl

theorem Shaped.proof_once (h : ws.Shaped p) : ws.statements.countP Statement.isProof ≤ 1 := by
  refine countP_le_one fun before s after hss hs => ?_
  obtain ⟨p₁, p₂, hbefore, hnext, -⟩ := h.split _ hss
  obtain ⟨-, -, -, htells, -⟩ := Phase.after_tells hbefore
  have hnone : p₁.isProved = false := ((Phase.next_requires hnext).2.2.2.1 hs).2
  exact (any_content Statement.isProof_eq).mp (htells.symm.trans hnone)

theorem Shaped.wellShaped {proved : Bool} (h : ws.Shaped (.closed proved)) : ws.WellShaped where
  header := h.header rfl
  footer := h.footer rfl
  qed := h.qedStep rfl
  hypotheses _ _ _ hss hs := h.hypotheses_first hss hs
  proof := h.proof_once
  hypothesisCount := by
    rw [h.hypothesisCount, contents, List.countP_map]
    rfl
  workVars s hs d hd := by
    have hnotes : d.hasWorkVars = d.formula.any Formula.hasWorkVars :=
      h.workVars d (Content.derivation?_eq_some.mp hd ▸ mem_contents hs)
    rw [hnotes, Option.any_eq_true]

/-- A worksheet that loads cleanly keeps its shape, whatever calls to renumber, to apply edits and
to process it follow. -/
theorem wellShaped_afterCalls {request : Request} {text : Text}
    (clean : (load db st request text).broken = false) (calls : List Call) :
    ((load db st request text).afterCalls calls).WellShaped := by
  obtain ⟨proved, h⟩ := shaped_afterCalls clean calls
  exact h.wellShaped

theorem wellShaped_shortText :
    (load .empty {} {} shortText).broken = false ∧
      ((load .empty {} {} shortText).afterCalls
        [.renumber 10, .edits {} [.insertStep .qed [.number 10] none ⟨[['p']]⟩]]).WellShaped :=
  ⟨shortText_loads, wellShaped_afterCalls shortText_loads _⟩

end Worksheet

end ProofSheet
