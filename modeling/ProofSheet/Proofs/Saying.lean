import ProofSheet.Proofs.StatementParts
import Mathlib.Data.List.Forall2

set_option autoImplicit false

/-! # What a statement says

A statement says something by its lead, the words after it and, for a comment, the whole text
(`Says`). Whether the steps that it cites are there is left open: a hypothesis list is read in the
same way wherever they are known (`readCitations_eq_ok`). The number of a step that is read is in
range (`Says.number_range`).
-/

namespace ProofSheet

/-- The lead is one that a derivation step begins with. -/
def leadsDerivation (lead : Text) : Prop :=
  Worksheet.beginsDerivation lead = true ∧ lead.head? ≠ some '*' ∧ lead.head? ≠ some 'h' ∧
    lead.head? ≠ some 'H'

/-- The hypothesis step that an id, a label field and the words after the lead amount to. -/
def hypothesisOf (id : StepId) (ref : Text) (words : List Text) : Step :=
  { id := id, ref := readLabel ref, formula := formulaOfWords words }

/-- The derivation step that an id, the words after the lead, and what the other two fields say
amount to. -/
def derivationOf (id : StepId) (words : List Text) (hyps : List Citation)
    (reference : Option Text × Option Text) : Derivation :=
  { id := id
    ref := reference.1
    formula := formulaOfWords words
    hyps := hyps
    localRef := reference.2
    hasWorkVars := (formulaOfWords words).any Formula.hasWorkVars }

/-- What a statement with a lead, the words after it, and the text after the lead says. Whether
the steps that it cites are there is left open. -/
inductive Says (db : Database) : Text → List Text → Text → Content → Prop where
  | header {x y label th la tail : Text} (hth : labelAfter? Keyword.theoremKey th = some x)
      (hx : givenLabel x = some label) (hla : labelAfter? Keyword.locAfterKey la = some y)
      (known : ∀ after, givenLabel y = some after →
        (db.find? label).isSome = true ∨ db.knows after = true) :
      Says db Keyword.header [Keyword.metamath, Keyword.proofAssistant, th, la] tail
        (.header ⟨label, givenLabel y⟩)
  | footer {tail : Text} : Says db Keyword.footer [] tail .footer
  | comment {rest tail : Text} {words : List Text} :
      Says db ('*' :: rest) words tail (.comment (trimEnd (rest ++ tail)))
  | distinctVars {words : List Text} {tail : Text} (two : 2 ≤ words.length)
      (distinct : words.Nodup) : Says db Keyword.distinctVars words tail (.distinctVars words)
  | proof {words : List Text} {tail : Text} {body : ProofBody} (hbody : proofOf? words = some body) :
      Says db Keyword.proof words tail (.proof body)
  | hypothesis {letter : Char} {fields tail : Text} {words : List Text} {f : StepFields}
      {id : StepId} (hletter : letter = 'h' ∨ letter = 'H')
      (hf : StepFields.ofHypothesis? fields = some f) (hid : StepId.read f.step = .ok id)
      (not_qed : id ≠ .qed) (no_hyps : trim f.hyps = []) (not_local : f.ref.head? ≠ some '#') :
      Says db (letter :: fields) words tail (.hypothesis (hypothesisOf id f.ref words))
  | derivation {lead tail : Text} {words : List Text} {f : StepFields} {id : StepId}
      {known : List StepId} {hyps : List Citation} {reference : Option Text × Option Text}
      (hlead : leadsDerivation lead) (hf : StepFields.ofDerivation? lead = some f)
      (hid : StepId.read f.step = .ok id) (hhyps : readCitations known f.hyps = .ok hyps)
      (href : readReference id f.ref = .ok reference) :
      Says db lead words tail (.derivation (derivationOf id words hyps reference))

/-! ## Hypothesis lists -/

/-- A hypothesis list is read in the same way wherever the steps that it cites are known. -/
theorem readCitation_eq_ok {known : List StepId} {entry : Text} {c : Citation}
    (h : readCitation known entry = .ok c) (known' : List StepId) :
    (∀ id, c = .step id → id ∈ known) ∧
      ((∀ id, c = .step id → id ∈ known') → readCitation known' entry = .ok c) := by
  unfold readCitation at h ⊢
  split at h
  · cases h
    exact ⟨fun _ hid => (by cases hid), fun _ => rfl⟩
  · cases h
    exact ⟨fun _ hid => (by cases hid), fun _ => rfl⟩
  · cases h
  · cases h
    exact ⟨fun _ hid => (by cases hid), fun _ => rfl⟩
  · cases hread : StepId.read entry with
    | error cause => simp [hread] at h
    | ok id =>
        simp only [hread] at h ⊢
        split at h
        · rename_i hmem
          cases h
          exact ⟨fun id' hid => (by cases hid; exact hmem), fun hk => if_pos (hk id rfl)⟩
        · cases h

theorem mapM_eq_ok {ε α β : Type} {f : α → Except ε β} {l : List α} {bs : List β} :
    l.mapM f = .ok bs ↔ List.Forall₂ (fun a b => f a = .ok b) l bs := by
  induction l generalizing bs with
  | nil =>
      rw [List.mapM_nil]
      constructor
      · intro h
        cases h
        exact .nil
      · intro h
        cases h
        rfl
  | cons a l ih =>
      rw [List.mapM_cons]
      constructor
      · intro h
        obtain ⟨b, hb, k⟩ := bind_eq_ok h
        obtain ⟨bs', hbs', k'⟩ := bind_eq_ok k
        cases k'
        exact .cons hb (ih.mp hbs')
      · intro h
        cases h with
        | cons hb hrest =>
            rw [hb, ih.mpr hrest]
            rfl

/-- A list of computations that fails has failed at one of them. -/
theorem mapM_eq_error {ε α β : Type} {f : α → Except ε β} {l : List α} {e : ε}
    (h : l.mapM f = .error e) : ∃ a ∈ l, f a = .error e := by
  induction l with
  | nil => cases h
  | cons a rest ih =>
      rw [List.mapM_cons] at h
      obtain hfirst | ⟨b, -, hrest⟩ := bind_eq_error h
      · exact ⟨a, List.mem_cons_self, hfirst⟩
      · obtain hrest | ⟨bs, -, hnil⟩ := bind_eq_error hrest
        · obtain ⟨a', ha', hfails⟩ := ih hrest
          exact ⟨a', List.mem_cons_of_mem _ ha', hfails⟩
        · cases hnil

theorem readCitations_eq_ok {known : List StepId} {field : Text} {hyps : List Citation}
    (h : readCitations known field = .ok hyps) (known' : List StepId) :
    (∀ id, .step id ∈ hyps → id ∈ known) ∧
      ((∀ id, .step id ∈ hyps → id ∈ known') → readCitations known' field = .ok hyps) := by
  by_cases hblank : trim field = []
  · rw [readCitations, if_pos hblank] at h ⊢
    cases h
    exact ⟨fun _ hid => (by cases hid), fun _ => rfl⟩
  · rw [readCitations, if_neg hblank] at h ⊢
    rw [mapM_eq_ok] at h ⊢
    generalize (field.splitOn ',').map trim = entries at h ⊢
    constructor
    · intro id hid
      induction h with
      | nil => cases hid
      | cons hc _ ih =>
          rcases List.mem_cons.mp hid with heq | hmem
          · exact (readCitation_eq_ok hc known').1 id heq.symm
          · exact ih hmem
    · intro hk
      induction h with
      | nil => exact .nil
      | cons hc _ ih =>
          refine .cons ?_ (ih fun id hid => hk id (List.mem_cons_of_mem _ hid))
          exact (readCitation_eq_ok hc known').2 fun id hid => hk id (hid ▸ List.mem_cons_self)

/-- A step cites an id if its hypothesis list has an entry for it. -/
theorem mem_cited {d : Derivation} {id : StepId} : id ∈ d.cited ↔ .step id ∈ d.hyps := by
  rw [Derivation.cited, List.mem_filterMap]
  constructor
  · rintro ⟨c, hc, hid⟩
    cases c with
    | step id' =>
        cases hid
        exact hc
    | unknown => cases hid
    | localRef target => cases hid
  · intro h
    exact ⟨.step id, h, rfl⟩

/-! ## Steps -/

/-- A step field is read as `qed` exactly if it is the word. -/
theorem StepId.read_eq_qed {field : Text} {id : StepId} (h : StepId.read field = .ok id) :
    id = .qed ↔ sameLetters (trim field) qedName = true := by
  unfold StepId.read at h
  dsimp only at h
  by_cases hmissing : trim field = [] ∨ trim field = ['?']
  · rw [if_pos hmissing] at h
    cases h
  · rw [if_neg hmissing] at h
    by_cases hname : sameLetters (trim field) qedName = true
    · rw [if_pos hname] at h
      cases h
      simp [hname]
    · rw [if_neg hname] at h
      cases hread : readDecimal (trim field) with
      | none => simp [hread] at h
      | some n =>
          simp only [hread] at h
          split at h
          · cases h
            simp [hname]
          · cases h

/-- A number that is read is in range. -/
theorem StepId.read_range {field : Text} {n : Nat} (h : StepId.read field = .ok (.number n)) :
    0 < n ∧ n ≤ maxNumber := by
  unfold StepId.read at h
  dsimp only at h
  by_cases hmissing : trim field = [] ∨ trim field = ['?']
  · rw [if_pos hmissing] at h
    cases h
  · rw [if_neg hmissing] at h
    by_cases hname : sameLetters (trim field) qedName = true
    · rw [if_pos hname] at h
      cases h
    · rw [if_neg hname] at h
      cases hread : readDecimal (trim field) with
      | none => simp [hread] at h
      | some m =>
          simp only [hread] at h
          by_cases hrange : 0 < m ∧ m ≤ maxNumber
          · rw [if_pos hrange] at h
            cases h
            exact hrange
          · rw [if_neg hrange] at h
            cases h

/-- Every step has a number in range, or is `qed`. -/
theorem Says.number_range {db : Database} {lead tail : Text} {words : List Text} {c : Content}
    {n : Nat} (h : Says db lead words tail c) (hid : c.stepId? = some (.number n)) :
    0 < n ∧ n ≤ StepId.maxNumber := by
  cases h with
  | hypothesis hletter hf hread =>
      rw [Content.stepId?_hypothesis, Option.some.injEq] at hid
      exact StepId.read_range (hread.trans (congrArg Except.ok hid))
  | derivation hlead hf hread =>
      rw [Content.stepId?_derivation, Option.some.injEq] at hid
      exact StepId.read_range (hread.trans (congrArg Except.ok hid))
  | _ => cases hid

theorem Says.notesWorkVars {db : Database} {lead tail : Text} {words : List Text} {d : Derivation}
    (h : Says db lead words tail (.derivation d)) : d.NotesWorkVars := by
  cases h
  rfl

/-- Only a step other than `qed` is read as a local reference. -/
theorem readReference_localRef {id : StepId} {field target : Text} {ref : Option Text}
    (h : readReference id field = .ok (ref, some target)) : id ≠ .qed := by
  unfold readReference at h
  split at h
  · cases h
  · rintro rfl
    simp [StepId.isQed] at h
  · cases h

end ProofSheet
