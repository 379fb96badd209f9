import ProofSheet.Proofs.Contents

set_option autoImplicit false

/-! # The phases of a worksheet

From the header to the footer a worksheet goes through phases: hypotheses, then derivation steps,
then what follows `qed`, where one generated proof may stand. Each statement is allowed in some
phases and leads to a phase (`Phase.next`), and a list of statements that is allowed leads from
one phase to another (`Phase.after`). The phase that is reached tells which kinds of statements
there were (`Phase.after_tells`), so the shape of a worksheet can be read off from the fact that
its statements lead from the opening to the end.
-/

namespace ProofSheet

/-- How far a worksheet has come. -/
inductive Phase where
  | opening
  | hypotheses
  | derivations
  /-- After `qed`; the generated proof may have come. -/
  | concluded (proved : Bool)
  /-- After the footer. -/
  | closed (proved : Bool)
deriving DecidableEq, Repr

namespace Phase

/-- The phase after a statement, if the statement is allowed. -/
def next : Phase → Content → Option Phase
  | opening, .header _ => some hypotheses
  | hypotheses, .hypothesis s => if s.id = .qed then none else some hypotheses
  | hypotheses, .derivation d => some (if d.id = .qed then concluded false else derivations)
  | derivations, .derivation d => some (if d.id = .qed then concluded false else derivations)
  | concluded proved, .proof _ => if proved then none else some (concluded true)
  | concluded proved, .footer => some (closed proved)
  | hypotheses, .comment _ => some hypotheses
  | hypotheses, .distinctVars _ => some hypotheses
  | derivations, .comment _ => some derivations
  | derivations, .distinctVars _ => some derivations
  | concluded proved, .comment _ => some (concluded proved)
  | concluded proved, .distinctVars _ => some (concluded proved)
  | _, _ => none

/-- The phase after some statements, if they are allowed. -/
def after (p : Phase) : List Content → Option Phase
  | [] => some p
  | c :: rest => (p.next c).bind (·.after rest)

/-! ## What a phase tells -/

/-- The header has come. -/
def isOpen : Phase → Bool
  | opening => false
  | _ => true

/-- A derivation step has come. -/
def isDerived : Phase → Bool
  | derivations | concluded _ | closed _ => true
  | _ => false

/-- The step `qed` has come. -/
def isConcluded : Phase → Bool
  | concluded _ | closed _ => true
  | _ => false

/-- The generated proof has come. -/
def isProved : Phase → Bool
  | concluded proved | closed proved => proved
  | _ => false

/-- The footer has come. -/
def isClosed : Phase → Bool
  | closed _ => true
  | _ => false

end Phase

/-- The step is `qed`. -/
def Content.isQed (c : Content) : Bool := c.stepId? == some .qed

namespace Phase

variable {p q : Phase} {c : Content} {cs ds : List Content}

/-- What a phase tells changes with the statement that it allows. -/
theorem next_tells (h : p.next c = some q) :
    q.isOpen = (p.isOpen || c.isHeader) ∧ q.isDerived = (p.isDerived || c.isDerivation) ∧
      q.isConcluded = (p.isConcluded || c.isQed) ∧ q.isProved = (p.isProved || c.isProof) ∧
      q.isClosed = (p.isClosed || c.isFooter) := by
  unfold next at h
  split at h
  case h_2 s =>
    by_cases hid : s.id = .qed
    · rw [if_pos hid] at h
      cases h
    · rw [if_neg hid] at h
      cases h
      simp [isOpen, isDerived, isConcluded, isProved, isClosed, Content.isQed, hid,
        Content.isHeader, Content.isDerivation, Content.isProof, Content.isFooter]
  case h_3 d | h_4 d =>
    by_cases hid : d.id = .qed
    · rw [if_pos hid] at h
      cases h
      simp [isOpen, isDerived, isConcluded, isProved, isClosed, Content.isQed, hid,
        Content.isHeader, Content.isDerivation, Content.isProof, Content.isFooter]
    · rw [if_neg hid] at h
      cases h
      simp [isOpen, isDerived, isConcluded, isProved, isClosed, Content.isQed, hid,
        Content.isHeader, Content.isDerivation, Content.isProof, Content.isFooter]
  case h_5 proved body =>
    cases proved with
    | true => cases h
    | false =>
        cases h
        simp [isOpen, isDerived, isConcluded, isProved, isClosed, Content.isQed, Content.stepId?,
          Content.step?, Content.isHeader, Content.isDerivation, Content.isProof,
          Content.isFooter]
  case h_13 => cases h
  all_goals
    cases h
    simp [isOpen, isDerived, isConcluded, isProved, isClosed, Content.isQed, Content.stepId?,
      Content.step?, Content.isHeader, Content.isDerivation, Content.isProof, Content.isFooter]

/-- A header is allowed first, a footer only after `qed`, a generated proof once and after `qed`, a
hypothesis before derivation steps, and a proof step before `qed`. -/
theorem next_requires (h : p.next c = some q) :
    (c.isHeader = true ↔ p.isOpen = false) ∧ p.isClosed = false ∧
      (c.isFooter = true → p.isConcluded = true) ∧
      (c.isProof = true → p.isConcluded = true ∧ p.isProved = false) ∧
      (c.isHypothesis = true → p.isDerived = false ∧ c.isQed = false) ∧
      (c.isStep = true → p.isConcluded = false) := by
  unfold next at h
  split at h
  case h_2 s =>
    have hid : s.id ≠ .qed := by
      intro hid
      rw [if_pos hid] at h
      cases h
    simp [isOpen, isDerived, isConcluded, isClosed, Content.isQed, hid, Content.isHeader,
      Content.isProof, Content.isFooter]
  case h_5 proved body =>
    cases proved with
    | true => cases h
    | false =>
        simp [isOpen, isConcluded, isProved, isClosed, Content.isHypothesis, Content.isStep,
          Content.step?, Content.isHeader, Content.isProof, Content.isFooter]
  case h_13 => cases h
  all_goals
    simp [isOpen, isDerived, isConcluded, isProved, isClosed, Content.isHypothesis, Content.isStep,
      Content.step?, Content.isHeader, Content.isProof, Content.isFooter]

/-- A statement other than the header is allowed if it meets these requirements. -/
theorem exists_next (hopen : p.isOpen = true) (hclosed : p.isClosed = false)
    (hheader : c.isHeader = false) (hfooter : c.isFooter = true → p.isConcluded = true)
    (hproof : c.isProof = true → p.isConcluded = true ∧ p.isProved = false)
    (hhyp : c.isHypothesis = true → p.isDerived = false ∧ c.isQed = false)
    (hstep : c.isStep = true → p.isConcluded = false) : ∃ q, p.next c = some q := by
  cases c with
  | header h => cases hheader
  | footer =>
      have concluded := hfooter rfl
      cases p with
      | concluded proved => exact ⟨closed proved, rfl⟩
      | closed proved => cases hclosed
      | _ => cases concluded
  | proof body =>
      obtain ⟨concluded, hproved⟩ := hproof rfl
      cases p with
      | concluded proved =>
          cases hproved
          exact ⟨_, rfl⟩
      | closed proved => cases hclosed
      | _ => cases concluded
  | hypothesis s =>
      obtain ⟨hderived, hqed⟩ := hhyp rfl
      have hid : s.id ≠ .qed := by simpa [Content.isQed] using hqed
      cases p with
      | hypotheses => exact ⟨hypotheses, if_neg hid⟩
      | opening => cases hopen
      | _ => cases hderived
  | derivation d =>
      have before := hstep rfl
      cases p with
      | hypotheses => exact ⟨_, rfl⟩
      | derivations => exact ⟨_, rfl⟩
      | opening => cases hopen
      | _ => cases before
  | comment text =>
      cases p with
      | opening => cases hopen
      | closed proved => cases hclosed
      | _ => exact ⟨_, rfl⟩
  | distinctVars vars =>
      cases p with
      | opening => cases hopen
      | closed proved => cases hclosed
      | _ => exact ⟨_, rfl⟩

/-! ## Lists of statements -/

theorem after_append : p.after (cs ++ ds) = (p.after cs).bind (·.after ds) := by
  induction cs generalizing p with
  | nil => rfl
  | cons c rest ih =>
      rw [List.cons_append, after, after]
      cases p.next c with
      | none => rfl
      | some q => exact ih

/-- A statement among others is allowed in the phase that the ones before it lead to. -/
theorem after_split (h : p.after (cs ++ c :: ds) = some q) :
    ∃ p₁ p₂, p.after cs = some p₁ ∧ p₁.next c = some p₂ ∧ p₂.after ds = some q := by
  rw [after_append, Option.bind_eq_some_iff] at h
  obtain ⟨p₁, hcs, h⟩ := h
  rw [after, Option.bind_eq_some_iff] at h
  obtain ⟨p₂, hc, hds⟩ := h
  exact ⟨p₁, p₂, hcs, hc, hds⟩

theorem after_of_split {p₁ p₂ : Phase} (hcs : p.after cs = some p₁) (hc : p₁.next c = some p₂)
    (hds : p₂.after ds = some q) : p.after (cs ++ c :: ds) = some q := by
  rw [after_append, hcs, Option.bind_some, after, hc, Option.bind_some, hds]

theorem after_concat {p₁ : Phase} (hcs : p.after cs = some p₁) (hc : p₁.next c = some q) :
    p.after (cs ++ [c]) = some q := after_of_split hcs hc rfl

/-- What a phase tells is what was there. -/
theorem after_tells (h : p.after cs = some q) :
    q.isOpen = (p.isOpen || cs.any Content.isHeader) ∧
      q.isDerived = (p.isDerived || cs.any Content.isDerivation) ∧
      q.isConcluded = (p.isConcluded || cs.any Content.isQed) ∧
      q.isProved = (p.isProved || cs.any Content.isProof) ∧
      q.isClosed = (p.isClosed || cs.any Content.isFooter) := by
  induction cs generalizing p with
  | nil =>
      cases h
      simp
  | cons c rest ih =>
      rw [after, Option.bind_eq_some_iff] at h
      obtain ⟨p₁, hc, hrest⟩ := h
      obtain ⟨h₁, h₂, h₃, h₄, h₅⟩ := next_tells hc
      obtain ⟨k₁, k₂, k₃, k₄, k₅⟩ := ih hrest
      simp only [List.any_cons, ← Bool.or_assoc, ← h₁, ← h₂, ← h₃, ← h₄, ← h₅]
      exact ⟨k₁, k₂, k₃, k₄, k₅⟩

/-- Nothing is allowed after the footer. -/
theorem eq_nil_of_closed (hp : p.isClosed = true) (h : p.after cs = some q) : cs = [] := by
  cases cs with
  | nil => rfl
  | cons c rest =>
      rw [after, Option.bind_eq_some_iff] at h
      obtain ⟨p₁, hc, -⟩ := h
      rw [(next_requires hc).2.1] at hp
      cases hp

/-! ## Statements that are changed or added -/

/-- Of a step it only matters whether it is `qed`. -/
theorem next_hypothesis {s s' : Step} (h : s'.id = .qed ↔ s.id = .qed) :
    p.next (.hypothesis s') = p.next (.hypothesis s) := by
  cases p <;> simp [next, h]

theorem next_derivation {d d' : Derivation} (h : d'.id = .qed ↔ d.id = .qed) :
    p.next (.derivation d') = p.next (.derivation d) := by
  cases p <;> simp [next, h]

theorem next_proof_congr (body body' : ProofBody) :
    p.next (.proof body) = p.next (.proof body') := by
  cases p <;> rfl

/-- A derivation step that is not `qed` may be put in front of another one. -/
theorem next_insert {d : Derivation} (hd : d.id ≠ .qed) (hstep : c.isDerivation = true)
    (h : p.next c = some q) : ∃ p₁, p.next (.derivation d) = some p₁ ∧ p₁.next c = some q := by
  cases c with
  | derivation d' =>
      cases p with
      | hypotheses => exact ⟨derivations, by simp [next, hd], h⟩
      | derivations => exact ⟨derivations, by simp [next, hd], h⟩
      | _ => cases h
  | _ => cases hstep

/-- A `$d` statement may be put in front of a generated proof or the footer. -/
theorem next_distinctVars (vars : List Text) (hslot : c.isProof = true ∨ c.isFooter = true)
    (h : p.next c = some q) : p.next (.distinctVars vars) = some p := by
  obtain ⟨-, -, hfooter, hproof, -⟩ := next_requires h
  have concluded : p.isConcluded = true := by
    rcases hslot with hc | hc
    · exact (hproof hc).1
    · exact hfooter hc
  cases p with
  | concluded proved => rfl
  | closed proved =>
      have := (next_requires h).2.1
      cases this
  | _ => cases concluded

/-- A generated proof may be put in front of the footer if there is none yet. -/
theorem next_proof (body : ProofBody) (hslot : c.isFooter = true) (hnone : p.isProved = false)
    (h : p.next c = some q) :
    ∃ p₁, p.next (.proof body) = some p₁ ∧ p₁.next c = some (closed true) := by
  obtain ⟨-, hclosed, hfooter, -⟩ := next_requires h
  have concluded := hfooter hslot
  cases p with
  | concluded proved =>
      cases hnone
      cases c with
      | footer => exact ⟨.concluded true, rfl, rfl⟩
      | _ => cases hslot
  | closed proved => cases hclosed
  | _ => cases concluded

/-! ## Steps that are left out -/

/-- The phase is the same, or derivation steps were left out on the way to it. -/
def Below (p q : Phase) : Prop := p = q ∨ p = hypotheses ∧ q = derivations

/-- Leaving out a derivation step that is not `qed`. -/
theorem Below.leave {p' : Phase} (hbelow : p'.Below p) {d : Derivation} (hd : d.id ≠ .qed)
    (h : p.next (.derivation d) = some q) : p'.Below q := by
  have reached : q = derivations ∧ (p = hypotheses ∨ p = derivations) := by
    cases p with
    | hypotheses => simpa [next, hd, eq_comm] using h
    | derivations => simpa [next, hd, eq_comm] using h
    | _ => cases h
  obtain ⟨rfl, rfl | rfl⟩ := reached
  · rcases hbelow with rfl | ⟨-, hne⟩
    · exact Or.inr ⟨rfl, rfl⟩
    · cases hne
  · exact hbelow

/-- Keeping a statement. -/
theorem Below.keep {p' : Phase} (hbelow : p'.Below p) (h : p.next c = some q) :
    ∃ q', p'.next c = some q' ∧ q'.Below q := by
  rcases hbelow with rfl | ⟨rfl, rfl⟩
  · exact ⟨q, h, Or.inl rfl⟩
  · cases c with
    | derivation d => exact ⟨q, h, Or.inl rfl⟩
    | comment text =>
        cases h
        exact ⟨hypotheses, rfl, Or.inr ⟨rfl, rfl⟩⟩
    | distinctVars vars =>
        cases h
        exact ⟨hypotheses, rfl, Or.inr ⟨rfl, rfl⟩⟩
    | _ => cases h

end Phase

end ProofSheet
