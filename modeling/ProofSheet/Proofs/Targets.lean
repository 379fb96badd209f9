import ProofSheet.Proofs.LocalRefs

set_option autoImplicit false

/-! # What local references stand for

A local reference stands for the first step before it that has its target as printed id or as
label, and that step may not be a local reference itself (`StandsFor`). Local references are
resolved without a fault exactly if each of them stands for a step
(`Worksheet.resolveLocalRefs_isOk_iff`). The pass over the statements knows at each of them the
contents before it, which is the invariant of the proof (`Resolution.Remembers`).
-/

namespace ProofSheet

namespace Content

/-- The step is a local reference. -/
def isLocalRef (c : Content) : Bool := c.derivation?.any (·.localRef.isSome)

/-- The printed id or the label of the step is the target. -/
def isNamed (target : Text) (c : Content) : Bool :=
  c.step?.any fun s => s.id.text == target || s.ref == some target

/-- What later steps can refer to, if the content is a step. -/
def citable? (c : Content) : Option Citable :=
  c.step?.map fun s =>
    { id := s.id, ref := s.ref, formula := s.formula, isLocalRef := c.isLocalRef }

end Content

/-- The first step with the target's name has this id, and it is not a local reference. -/
def StandsFor (before : List Content) (target : Text) (id : StepId) : Prop :=
  ∃ c, before.find? (·.isNamed target) = some c ∧ c.isLocalRef = false ∧ c.stepId? = some id

/-- Every local reference of the content stands for a step among the contents before it. -/
def Resolvable (before : List Content) (c : Content) : Prop :=
  ∀ d target, c = .derivation d → .localRef target ∈ d.hyps ∨ d.localRef = some target →
    ∃ id, StandsFor before target id

/-! ## What the pass knows -/

theorem any_isNamed_citable? (target : Text) (c : Content) :
    c.citable?.any (·.isNamed target) = c.isNamed target := by
  rw [Content.citable?, Content.isNamed]
  cases c.step? <;> rfl

/-- The search of the pass finds what the target stands for. -/
theorem standsFor_iff {before : List Content} {target : Text} {id : StepId} :
    StandsFor before target id ↔
      ∃ found, Citable.find (before.filterMap Content.citable?) target = .ok found ∧
        found.id = id := by
  have hfind : (before.filterMap Content.citable?).find? (·.isNamed target) =
      (before.find? (·.isNamed target)).bind Content.citable? := by
    rw [List.find?_filterMap]
    simp only [any_isNamed_citable?]
  unfold StandsFor Citable.find
  rw [hfind]
  cases hc : before.find? (·.isNamed target) with
  | none => simp
  | some c =>
      -- what is named is a step
      have hnamed : c.isNamed target = true := List.find?_some hc
      obtain ⟨s, hs⟩ : ∃ s, c.step? = some s := by
        rw [Content.isNamed, Option.any_eq_true] at hnamed
        exact ⟨hnamed.choose, hnamed.choose_spec.1⟩
      have hcitable : c.citable? = some ⟨s.id, s.ref, s.formula, c.isLocalRef⟩ := by
        rw [Content.citable?, hs]
        rfl
      have hid : c.stepId? = some s.id := by
        rw [Content.stepId?, hs]
        rfl
      rw [Option.bind_some, hcitable]
      by_cases hlocal : c.isLocalRef = true
      · simp [hlocal]
      · simp [hlocal, hid]

namespace Resolution

/-- The steps that the pass has gone over. -/
def Remembers (r : Resolution) (before : List Content) : Prop :=
  r.earlier = before.filterMap Content.citable?

variable {r r₁ : Resolution} {before : List Content}

theorem Remembers.step (h : r.Remembers before) {c : Content} {s : Step} (hs : c.step? = some s) :
    (r.remember s c.isLocalRef).Remembers (before ++ [c]) := by
  have hcitable : c.citable? = some ⟨s.id, s.ref, s.formula, c.isLocalRef⟩ := by
    rw [Content.citable?, hs]
    rfl
  unfold Remembers at h ⊢
  rw [List.filterMap_append, ← h, List.filterMap_cons_some hcitable]
  rfl

theorem Remembers.other (h : r.Remembers before) {c : Content} (hc : c.step? = none) :
    r.Remembers (before ++ [c]) := by
  have hcitable : c.citable? = none := by rw [Content.citable?, hc, Option.map_none]
  unfold Remembers at h ⊢
  rw [List.filterMap_append, ← h, List.filterMap_cons_none hcitable]
  exact (List.append_nil _).symm

theorem Remembers.redirect (h : r.Remembers before) {s : Statement} {d : Derivation}
    {target : Text} (hlocal : d.localRef = some target) (found : StepId)
    (messages : List Message) :
    (r.redirect s d found messages).Remembers (before ++ [.derivation d]) := by
  have hc : (Content.derivation d).isLocalRef = true := by
    rw [Content.isLocalRef]
    simp [Content.derivation?, hlocal]
  have hstep := h.step (c := .derivation d) rfl
  rw [hc] at hstep
  exact hstep

/-- The target is found exactly if it stands for a step. -/
theorem Remembers.find_isOk_iff (h : r.Remembers before) {target : Text} :
    (∃ found, Citable.find r.earlier target = .ok found) ↔ ∃ id, StandsFor before target id := by
  rw [h]
  constructor
  · rintro ⟨found, hfound⟩
    exact ⟨found.id, standsFor_iff.mpr ⟨found, hfound, rfl⟩⟩
  · rintro ⟨id, hid⟩
    obtain ⟨found, hfound, -⟩ := standsFor_iff.mp hid
    exact ⟨found, hfound⟩

/-- An entry is resolved exactly if it is no local reference or stands for a step. -/
theorem Remembers.resolveCitation_isOk_iff (h : r.Remembers before) (entry : Citation) :
    (∃ entry', r.resolveCitation entry = .ok entry') ↔
      ∀ target, entry = .localRef target → ∃ id, StandsFor before target id := by
  cases entry with
  | step id => simp [resolveCitation]
  | unknown => simp [resolveCitation]
  | localRef target =>
      simp only [Citation.localRef.injEq, forall_eq']
      rw [← h.find_isOk_iff, resolveCitation]
      cases Citable.find r.earlier target <;> simp [Except.map]

theorem Remembers.resolveCitations_isOk_iff (h : r.Remembers before) {hyps : List Citation} :
    (∃ hyps', r.resolveCitations hyps = (hyps', none)) ↔
      ∀ target, .localRef target ∈ hyps → ∃ id, StandsFor before target id := by
  induction hyps with
  | nil => simp [resolveCitations]
  | cons entry rest ih =>
      have hentry := h.resolveCitation_isOk_iff entry
      have hmem : (∀ target, .localRef target ∈ entry :: rest → ∃ id, StandsFor before target id) ↔
          (∀ target, entry = .localRef target → ∃ id, StandsFor before target id) ∧
            ∀ target, .localRef target ∈ rest → ∃ id, StandsFor before target id := by
        simp only [List.mem_cons, or_imp, forall_and, eq_comm]
      rw [hmem, ← hentry, ← ih, resolveCitations]
      cases r.resolveCitation entry with
      | error cause => simp
      | ok entry' =>
          cases r.resolveCitations rest with
          | mk rest' failure => simp

/-- A statement is passed exactly if its local references stand for steps. -/
theorem Remembers.resolveStatement_isOk_iff (h : r.Remembers before) (label : Option Text)
    (s : Statement) :
    (∃ s' r₁, r.resolveStatement label s = (s', .ok r₁)) ↔ Resolvable before s.content := by
  unfold resolveStatement
  cases hder : s.derivation? with
  | none =>
      have hc : ∀ d, s.content ≠ .derivation d := by
        intro d hd
        rw [Statement.derivation?, hd] at hder
        cases hder
      have hresolvable : Resolvable before s.content := fun d target hd => absurd hd (hc d)
      cases s.step? <;> simp [hresolvable]
  | some d =>
      have hd : s.content = .derivation d := Content.derivation?_eq_some.mp hder
      -- the entries are resolved first, then the reference of the step itself
      have hsplit : Resolvable before s.content ↔
          (∀ target, .localRef target ∈ d.hyps → ∃ id, StandsFor before target id) ∧
            ∀ target, d.localRef = some target → ∃ id, StandsFor before target id := by
        rw [hd]
        constructor
        · intro hall
          exact ⟨fun target ht => hall d target rfl (Or.inl ht),
            fun target ht => hall d target rfl (Or.inr ht)⟩
        · rintro ⟨hhyps, href⟩ d' target hd'
          cases hd'
          exact Or.rec (hhyps target) (href target)
      rw [hsplit, ← h.resolveCitations_isOk_iff]
      dsimp only
      cases r.resolveCitations d.hyps with
      | mk hyps failure =>
          cases failure with
          | some cause => simp
          | none =>
              unfold resolveStep
              cases hlocal : d.localRef with
              | none => simp [mapError_ok]
              | some target =>
                  simp only [Option.some.injEq, forall_eq']
                  rw [← h.find_isOk_iff]
                  cases Citable.find r.earlier target <;> simp [mapError_ok, mapError_error]

theorem Remembers.resolveStatement (h : r.Remembers before) {label : Option Text}
    {s s' : Statement}
    (hs : r.resolveStatement label s = (s', .ok r₁)) : r₁.Remembers (before ++ [s.content]) := by
  unfold Resolution.resolveStatement at hs
  cases hder : s.derivation? with
  | none =>
      cases hstep : s.step? with
      | none =>
          simp only [hder, hstep, Prod.mk.injEq, Except.ok.injEq] at hs
          rw [← hs.2]
          exact h.other hstep
      | some step =>
          simp only [hder, hstep, Prod.mk.injEq, Except.ok.injEq] at hs
          have hlocal : s.content.isLocalRef = false := by
            rw [Content.isLocalRef, show s.content.derivation? = none from hder]
            rfl
          have := h.step (c := s.content) hstep
          rwa [hlocal, hs.2] at this
  | some d =>
      have hd : s.content = .derivation d := Content.derivation?_eq_some.mp hder
      simp only [hder] at hs
      cases hres : r.resolveCitations d.hyps with
      | mk hyps failure =>
          cases failure with
          | some cause => simp [hres] at hs
          | none =>
              simp only [hres, Prod.mk.injEq] at hs
              obtain ⟨-, hs⟩ := hs
              rw [hd]
              unfold resolveStep at hs
              cases hlocal : d.localRef with
              | none =>
                  simp only [hlocal, mapError_ok, Except.ok.injEq] at hs
                  have hc : (Content.derivation d).isLocalRef = false := by
                    simp [Content.isLocalRef, Content.derivation?, hlocal]
                  have := h.step (c := .derivation d) (s := d.toStep) rfl
                  rwa [hc, hs] at this
              | some target =>
                  simp only [hlocal] at hs
                  cases hfound : Citable.find r.earlier target with
                  | error cause => simp [hfound, mapError_error] at hs
                  | ok found =>
                      simp only [hfound, mapError_ok, Except.ok.injEq] at hs
                      rw [← hs]
                      exact h.redirect hlocal found.id _

/-- The statements are passed exactly if their local references stand for steps. -/
theorem Remembers.resolveAll_isOk_iff (h : r.Remembers before) (label : Option Text)
    (ss : List Statement) :
    (∃ resolved r', r.resolveAll label ss = (resolved, .ok r')) ↔
      EachAfter (fun a => Resolvable (before ++ a)) (ss.map Statement.content) := by
  -- the contents before grow with each statement that is passed
  induction ss generalizing r before with
  | nil =>
      have hnone : EachAfter (fun a => Resolvable (before ++ a)) [] := fun a c b hnil => by
        simp at hnil
      simp [resolveAll, hnone]
  | cons s rest ih =>
      rw [List.map_cons, eachAfter_cons, List.append_nil, ← h.resolveStatement_isOk_iff label,
        resolveAll]
      cases hs : r.resolveStatement label s with
      | mk s' outcome =>
          cases outcome with
          | error f => simp
          | ok r₁ =>
              have hrest := ih (h.resolveStatement hs)
              simp only [List.append_assoc, List.singleton_append] at hrest
              rw [← hrest]
              cases hall : r₁.resolveAll label rest with
              | mk rest' outcome' => simp [hall]

end Resolution

namespace Worksheet

/-- Local references are resolved without a fault exactly if each of them stands for a step. -/
theorem resolveLocalRefs_isOk_iff {ws : Worksheet} :
    (∃ ws', ws.resolveLocalRefs = .ok ws') ↔ EachAfter Resolvable ws.contents := by
  have remembers : Resolution.Remembers {} [] := rfl
  have hall := remembers.resolveAll_isOk_iff ws.theoremLabel ws.statements
  simp only [List.nil_append] at hall
  rw [contents, ← hall, resolveLocalRefs]
  cases Resolution.resolveAll {} ws.theoremLabel ws.statements with
  | mk resolved outcome => cases outcome <;> simp

end Worksheet

end ProofSheet
