import ProofSheet.Proofs.Reading

set_option autoImplicit false

/-! # Leads are read back

The lead of a step is written from its fields and read again as its fields. That works for steps
whose names are in range, whose labels are labels (`IsLabel`), and which refer to nothing by a
local reference; the results are `Step.Writable.said` and `Derivation.Writable.said`. What has been
read from a lead without odd blanks has a label of that kind (`isLabel_of_readLabel`).
-/

namespace ProofSheet

/-! ## Pieces of texts -/

theorem isBlank_of_isSeparator {c : Char} (h : isSeparator c = true) : isBlank c = true := by
  have hc : c ∈ [' ', '\t', '\n', '\r', '\x0c'] := by simpa [isSeparator] using h
  simp only [List.mem_cons, List.not_mem_nil, or_false] at hc
  rcases hc with rfl | rfl | rfl | rfl | rfl
  all_goals decide

/-- The text has no blanks. -/
def IsSolid (t : Text) : Prop := ∀ c ∈ t, isBlank c = false

instance (t : Text) : Decidable (IsSolid t) := List.decidableBAll (isBlank · = false) t

theorem IsSolid.trim {t : Text} (h : IsSolid t) : trim t = t := by
  have solid_dropWhile : ∀ u : Text, IsSolid u → u.dropWhile isBlank = u := by
    intro u hu
    cases u with
    | nil => rfl
    | cons c u =>
        refine List.dropWhile_cons_of_neg ?_
        rw [hu c List.mem_cons_self]
        exact Bool.false_ne_true
  have hrev : IsSolid t.reverse := fun c hc => h c (List.mem_reverse.mp hc)
  rw [ProofSheet.trim, trimStart, solid_dropWhile t h, trimEnd, solid_dropWhile _ hrev,
    List.reverse_reverse]

/-- A piece of a split text has only characters of the text, and none at which it is split. -/
theorem mem_of_mem_splitOnP {f : Char → Bool} {t p : Text} (hp : p ∈ t.splitOnP f) {c : Char}
    (hc : c ∈ p) : c ∈ t ∧ f c = false := by
  induction t generalizing p with
  | nil =>
      rw [List.splitOnP_nil, List.mem_singleton] at hp
      rw [hp] at hc
      cases hc
  | cons a t ih =>
      rw [List.splitOnP_cons_eq_if_modifyHead] at hp
      by_cases ha : f a = true
      · rw [if_pos ha] at hp
        rcases List.mem_cons.mp hp with rfl | hp
        · cases hc
        · exact ⟨List.mem_cons_of_mem _ (ih hp hc).1, (ih hp hc).2⟩
      · rw [if_neg ha] at hp
        obtain ⟨r, rs, hr⟩ := List.exists_cons_of_ne_nil (List.splitOnP_ne_nil f t)
        rw [hr, List.modifyHead_cons] at hp
        rcases List.mem_cons.mp hp with rfl | hp
        · rcases List.mem_cons.mp hc with rfl | hc
          · exact ⟨List.mem_cons_self, Bool.eq_false_iff.mpr ha⟩
          · have hmem := ih (by rw [hr]; exact List.mem_cons_self) hc
            exact ⟨List.mem_cons_of_mem _ hmem.1, hmem.2⟩
        · have hmem := ih (by rw [hr]; exact List.mem_cons_of_mem _ hp) hc
          exact ⟨List.mem_cons_of_mem _ hmem.1, hmem.2⟩

theorem mem_of_mem_splitOn {t p : Text} {x : Char} (hp : p ∈ t.splitOn x) {c : Char} (hc : c ∈ p) :
    c ∈ t ∧ c ≠ x := by
  obtain ⟨hmem, hne⟩ := mem_of_mem_splitOnP hp hc
  exact ⟨hmem, by simpa using hne⟩

/-- Three fields are found again between their colons. -/
theorem splitOn_fields {a b c : Text} (ha : ':' ∉ a) (hb : ':' ∉ b) (hc : ':' ∉ c) :
    (a ++ ':' :: (b ++ ':' :: c)).splitOn ':' = [a, b, c] := by
  rw [List.splitOn_append_cons_self_of_not_mem ha, List.splitOn_append_cons_self_of_not_mem hb,
    List.splitOn_eq_singleton hc]

/-! ## Names of steps -/

/-- The name is one that can be read. -/
def StepId.InRange : StepId → Prop
  | number n => 0 < n ∧ n ≤ maxNumber
  | qed => True

theorem toNat_of_isDigit {c : Char} (h : c.isDigit = true) : 48 ≤ c.toNat ∧ c.toNat ≤ 57 := by
  rw [Char.isDigit_iff_toNat] at h
  exact h

theorem toLower_of_isDigit {c : Char} (h : c.isDigit = true) : c.toLower = c := by
  have hrange := toNat_of_isDigit h
  unfold Char.toLower
  by_cases hupper : c.val ≥ 'A'.val ∧ c.val ≤ 'Z'.val
  · have hlow : 65 ≤ c.toNat := UInt32.le_iff_toNat_le.mp hupper.1
    omega
  · exact dif_neg hupper

theorem plain_of_isDigit {c : Char} (h : c.isDigit = true) :
    isBlank c = false ∧ c ≠ ':' ∧ c ≠ ',' := by
  have hrange := toNat_of_isDigit h
  refine ⟨?_, ?_, ?_⟩
  · rw [Bool.eq_false_iff]
    intro hblank
    simp only [isBlank, blankRanges, List.any_cons, List.any_nil, Bool.or_false, Bool.or_eq_true,
      Bool.and_eq_true, decide_eq_true_eq] at hblank
    omega
  · rintro rfl
    exact absurd hrange (by decide)
  · rintro rfl
    exact absurd hrange (by decide)

namespace StepId

theorem isDigit_of_mem_decimal {n : Nat} {c : Char} (hc : c ∈ decimal n) : c.isDigit = true :=
  Nat.isDigit_of_mem_toDigits (by decide) (by decide) hc

/-- No character of a name is taken for anything else in a lead. -/
theorem text_plain (id : StepId) : ∀ c ∈ id.text, isBlank c = false ∧ c ≠ ':' ∧ c ≠ ',' := by
  cases id with
  | number n => exact fun c hc => plain_of_isDigit (isDigit_of_mem_decimal hc)
  | qed =>
      intro c hc
      replace hc : c ∈ ['q', 'e', 'd'] := hc
      rw [List.mem_cons, List.mem_cons, List.mem_singleton] at hc
      rcases hc with rfl | rfl | rfl
      · decide
      · decide
      · decide

theorem text_begins (id : StepId) :
    ∃ c t, id.text = c :: t ∧ (c.isDigit = true ∨ c = 'q') := by
  cases id with
  | number n =>
      obtain ⟨c, t, ht⟩ := List.exists_cons_of_ne_nil (Nat.toDigits_ne_nil (n := n) (b := 10))
      refine ⟨c, t, ht, Or.inl (isDigit_of_mem_decimal (n := n) ?_)⟩
      rw [decimal, ht]
      exact List.mem_cons_self
  | qed => exact ⟨'q', ['e', 'd'], rfl, Or.inr rfl⟩

theorem trim_text (id : StepId) : trim id.text = id.text :=
  IsSolid.trim fun c hc => (id.text_plain c hc).1

/-- A name is read back from its text. -/
theorem read_text {id : StepId} (h : id.InRange) : read id.text = .ok id := by
  cases id with
  | qed => decide
  | number n =>
      obtain ⟨c, t, ht⟩ := List.exists_cons_of_ne_nil (Nat.toDigits_ne_nil (n := n) (b := 10))
      have hdecimal : decimal n = c :: t := ht
      have hdigit : c.isDigit = true := by
        apply isDigit_of_mem_decimal (n := n)
        rw [hdecimal]
        exact List.mem_cons_self
      -- a text that begins with a digit is neither missing nor `qed`
      have given : ¬ (decimal n = [] ∨ decimal n = ['?']) := by
        rw [hdecimal]
        rintro (hnil | hquery)
        · cases hnil
        · rw [(List.cons.inj hquery).1] at hdigit
          exact absurd hdigit (by decide)
      have not_qed : ¬ sameLetters (decimal n) qedName = true := by
        rw [hdecimal, sameLetters, qedName, beq_iff_eq, List.map_cons, List.map_cons,
          toLower_of_isDigit hdigit]
        intro hsame
        rw [(List.cons.inj hsame).1] at hdigit
        exact absurd hdigit (by decide)
      have htrim : trim (decimal n) = decimal n := trim_text (number n)
      show read (decimal n) = .ok (number n)
      unfold read
      dsimp only
      rw [htrim, if_neg given, if_neg not_qed, readDecimal_decimal]
      exact if_pos h

end StepId

/-! ## Hypothesis lists -/

namespace Citation

/-- The entry is unknown or names a step that can be read. -/
def Settled (c : Citation) : Prop := c = .unknown ∨ ∃ id : StepId, id.InRange ∧ c = .step id

theorem Settled.text_plain {c : Citation} (h : c.Settled) :
    ∀ x ∈ c.text, isBlank x = false ∧ x ≠ ':' ∧ x ≠ ',' := by
  rcases h with rfl | ⟨id, -, rfl⟩
  · intro x hx
    rw [List.mem_singleton.mp hx]
    decide
  · exact id.text_plain

theorem Settled.text_ne_nil {c : Citation} (h : c.Settled) : c.text ≠ [] := by
  rcases h with rfl | ⟨id, -, rfl⟩
  · exact List.cons_ne_nil _ _
  · obtain ⟨x, t, ht, -⟩ := id.text_begins
    show id.text ≠ []
    rw [ht]
    exact List.cons_ne_nil _ _

/-- An entry is read back from its text, if the step that it names is known. -/
theorem Settled.read_text {c : Citation} (h : c.Settled) {known : List StepId}
    (hknown : ∀ id, c = .step id → id ∈ known) : readCitation known c.text = .ok c := by
  rcases h with rfl | ⟨id, hid, rfl⟩
  · rfl
  · obtain ⟨x, t, ht, hx⟩ := id.text_begins
    have not_query : x ≠ '?' := by
      rintro rfl
      revert hx
      decide
    have not_local : x ≠ '#' := by
      rintro rfl
      revert hx
      decide
    have hread : StepId.read (x :: t) = .ok id := ht ▸ StepId.read_text hid
    show readCitation known id.text = _
    rw [ht]
    unfold readCitation
    split
    · rename_i heq
      cases heq
    · rename_i heq
      exact absurd (List.cons.inj heq).1 not_query
    · rename_i heq
      exact absurd (List.cons.inj heq).1 not_local
    · rename_i heq
      exact absurd (List.cons.inj heq).1 not_local
    · rw [hread]
      exact if_pos (hknown id rfl)

end Citation

/-- The characters of pieces that are joined. -/
theorem mem_joinWith {x : Char} {pieces : List Text} {c : Char} (hc : c ∈ joinWith x pieces) :
    c = x ∨ ∃ p ∈ pieces, c ∈ p := by
  unfold joinWith at hc
  induction pieces with
  | nil => cases hc
  | cons p rest ih =>
      cases rest with
      | nil => exact Or.inr ⟨p, List.mem_cons_self, by simpa using hc⟩
      | cons q rest =>
          rw [List.intercalate_cons_cons, List.mem_append, List.mem_append,
            List.mem_singleton] at hc
          rcases hc with (hp | hx) | hrest
          · exact Or.inr ⟨p, List.mem_cons_self, hp⟩
          · exact Or.inl hx
          · rcases ih hrest with hx | ⟨p', hp', hc'⟩
            · exact Or.inl hx
            · exact Or.inr ⟨p', List.mem_cons_of_mem _ hp', hc'⟩

/-- A hypothesis list is read back from its text, if the steps that it names are known. -/
theorem readCitations_text {hyps : List Citation} (h : ∀ c ∈ hyps, c.Settled)
    {known : List StepId} (hknown : ∀ id, .step id ∈ hyps → id ∈ known) :
    readCitations known (joinWith ',' (hyps.map Citation.text)) = .ok hyps := by
  cases hhyps : hyps with
  | nil => rfl
  | cons first rest =>
      rw [← hhyps]
      have hsplit : (joinWith ',' (hyps.map Citation.text)).splitOn ',' =
          hyps.map Citation.text := by
        refine List.splitOn_intercalate ',' ?_ (by simp [hhyps])
        intro t ht hcomma
        obtain ⟨c, hc, rfl⟩ := List.mem_map.mp ht
        exact ((h c hc).text_plain ',' hcomma).2.2 rfl
      have solid : IsSolid (joinWith ',' (hyps.map Citation.text)) := by
        intro x hx
        rcases mem_joinWith hx with rfl | ⟨t, ht, hxt⟩
        · decide
        · obtain ⟨c, hc, rfl⟩ := List.mem_map.mp ht
          exact ((h c hc).text_plain x hxt).1
      have given : joinWith ',' (hyps.map Citation.text) ≠ [] := by
        intro hnil
        rw [hnil, List.splitOn_eq_singleton List.not_mem_nil] at hsplit
        rw [hhyps, List.map_cons] at hsplit
        have hfirst : first ∈ hyps := by rw [hhyps]; exact List.mem_cons_self
        exact (h first hfirst).text_ne_nil (List.cons.inj hsplit).1.symm
      have htrim : (hyps.map Citation.text).map trim = hyps.map Citation.text := by
        rw [List.map_map]
        refine List.map_congr_left fun c hc => IsSolid.trim fun x hx => ?_
        exact ((h c hc).text_plain x hx).1
      rw [readCitations, solid.trim, if_neg given, hsplit, htrim, mapM_eq_ok,
        List.forall₂_map_left_iff]
      refine List.forall₂_same.mpr fun c hc => (h c hc).read_text fun id hid => ?_
      exact hknown id (hid ▸ hc)

/-! ## Labels -/

/-- The text can stand as a label in a lead. -/
structure IsLabel (l : Text) : Prop where
  nonempty : l ≠ []
  solid : IsSolid l
  no_colon : ':' ∉ l
  not_missing : l ≠ ['?']
  not_local : l.head? ≠ some '#'

instance (l : Text) : Decidable (IsLabel l) :=
  decidable_of_iff (l ≠ [] ∧ IsSolid l ∧ ':' ∉ l ∧ l ≠ ['?'] ∧ l.head? ≠ some '#')
    ⟨fun ⟨h₁, h₂, h₃, h₄, h₅⟩ => ⟨h₁, h₂, h₃, h₄, h₅⟩,
      fun ⟨h₁, h₂, h₃, h₄, h₅⟩ => ⟨h₁, h₂, h₃, h₄, h₅⟩⟩

theorem IsLabel.read {l : Text} (h : IsLabel l) : readLabel l = some l := by
  unfold readLabel
  dsimp only
  rw [h.solid.trim, if_neg]
  rintro (hnil | hquery)
  · exact h.nonempty hnil
  · exact h.not_missing hquery

/-- A label that is read from a field without blanks is the field. -/
theorem isLabel_of_readLabel {field l : Text} (h : readLabel field = some l) (solid : IsSolid field)
    (no_colon : ':' ∉ field) (not_local : field.head? ≠ some '#') : IsLabel l := by
  unfold readLabel at h
  dsimp only at h
  rw [solid.trim] at h
  by_cases hmissing : field = [] ∨ field = ['?']
  · rw [if_pos hmissing] at h
    cases h
  · rw [if_neg hmissing] at h
    cases h
    rw [not_or] at hmissing
    exact ⟨hmissing.1, solid, no_colon, hmissing.2, not_local⟩

/-- The last field of a hypothesis comes from its lead. -/
theorem ref_of_hypothesis {t : Text} {f : StepFields} (h : StepFields.ofHypothesis? t = some f) :
    f.ref = [] ∨ f.ref ∈ t.splitOn ':' := by
  unfold StepFields.ofHypothesis? at h
  split at h
  · cases h
    exact Or.inl rfl
  · rename_i heq
    cases h
    rw [heq]
    exact Or.inr (by simp)
  · rename_i heq
    cases h
    rw [heq]
    exact Or.inr (by simp)
  · cases h

/-- The last field of a derivation step comes from its lead. -/
theorem ref_of_derivation {t : Text} {f : StepFields} (h : StepFields.ofDerivation? t = some f) :
    f.ref = [] ∨ f.ref ∈ t.splitOn ':' := by
  unfold StepFields.ofDerivation? at h
  split at h
  · cases h
    exact Or.inl rfl
  · rename_i step field heq
    rw [heq]
    by_cases hlocal : field.head? = some '#'
    · rw [if_pos hlocal] at h
      cases h
      exact Or.inr (by simp)
    · rw [if_neg hlocal] at h
      cases h
      exact Or.inl rfl
  · rename_i heq
    cases h
    rw [heq]
    exact Or.inr (by simp)
  · cases h

/-- A field that comes from a text without blanks has no blanks and no colons. -/
theorem plain_of_field {t field : Text} (solid : IsSolid t)
    (hfield : field = [] ∨ field ∈ t.splitOn ':') : IsSolid field ∧ ':' ∉ field := by
  rcases hfield with rfl | hmem
  · exact ⟨fun c hc => (by cases hc), List.not_mem_nil⟩
  · refine ⟨fun c hc => solid c (mem_of_mem_splitOn hmem hc).1, fun hc => ?_⟩
    exact (mem_of_mem_splitOn hmem hc).2 rfl

/-- The label that is read as the last field of a derivation step. -/
theorem readReference_label {id : StepId} {field label : Text} {localRef : Option Text}
    (h : readReference id field = .ok (some label, localRef)) :
    readLabel field = some label ∧ field.head? ≠ some '#' := by
  unfold readReference at h
  split at h
  · cases h
  · split at h
    · cases h
    · cases h
  · rename_i hnot_hash hnot_local
    have hlabel : readLabel field = some label := congrArg Prod.fst (Except.ok.inj h)
    refine ⟨hlabel, fun hhead => ?_⟩
    cases field with
    | nil => cases hhead
    | cons c rest =>
        cases hhead
        exact hnot_local rest rfl

/-- The label of a step that is read from a lead without blanks is a label. -/
theorem Says.isLabel {db : Database} {lead tail : Text} {words : List Text} {c : Content}
    {step : Step} {l : Text} (h : Says db lead words tail c) (solid : IsSolid lead)
    (hstep : c.step? = some step) (hl : step.ref = some l) : IsLabel l := by
  cases h with
  | @hypothesis letter fields tail words f id hletter hf hid not_qed no_hyps not_local =>
      cases hstep
      have hfields : IsSolid fields := fun c hc => solid c (List.mem_cons_of_mem _ hc)
      obtain ⟨hsolid, hcolon⟩ := plain_of_field hfields (ref_of_hypothesis hf)
      exact isLabel_of_readLabel hl hsolid hcolon not_local
  | @derivation lead tail words f id known hyps reference hlead hf hid hhyps href =>
      cases hstep
      obtain ⟨ref, localRef⟩ := reference
      cases hl
      obtain ⟨hlabel, not_local⟩ := readReference_label href
      obtain ⟨hsolid, hcolon⟩ := plain_of_field solid (ref_of_derivation hf)
      exact isLabel_of_readLabel hlabel hsolid hcolon not_local
  | _ => cases hstep

/-! ## Leads -/

/-- The step can be named in a lead. -/
structure Step.Writable (s : Step) : Prop where
  inRange : s.id.InRange
  label : ∀ l, s.ref = some l → IsLabel l

/-- The derivation step can be written as a lead; it refers to nothing by a local reference. -/
structure Derivation.Writable (d : Derivation) : Prop extends d.toStep.Writable where
  localRef : d.localRef = none
  hyps : ∀ c ∈ d.hyps, c.Settled

/-- A step as it is read, without a level. -/
def Step.bare (s : Step) : Step := { s with level := 0 }

/-- A derivation step as it is read, without a level and what unification has found out. -/
def Derivation.bare (d : Derivation) : Derivation :=
  { d with
    level := 0
    proof := none
    unification := .untried
    distinctCheck := .untried
    derived := false }

/-- The field can stand last in a lead, and the label, or the lack of one, is read from it. -/
structure SpellsLabel (field : Text) (ref : Option Text) : Prop where
  solid : IsSolid field
  no_colon : ':' ∉ field
  not_local : field.head? ≠ some '#'
  read : readLabel field = ref

theorem SpellsLabel.isLabel {field l : Text} (h : SpellsLabel field (some l)) : IsLabel l :=
  isLabel_of_readLabel h.read h.solid h.no_colon h.not_local

/-- A label is spelled as it is, and the lack of one by a blank field. -/
theorem Step.Writable.spellsLabel {s : Step} (h : s.Writable) :
    SpellsLabel (s.ref.getD []) s.ref := by
  cases hl : s.ref with
  | none => exact ⟨fun c hc => (by cases hc), List.not_mem_nil, by simp, rfl⟩
  | some l =>
      have label := h.label l hl
      exact ⟨label.solid, label.no_colon, label.not_local, label.read⟩

/-- The lead of a derivation step without a local reference has three fields. -/
theorem Derivation.lead_eq {d : Derivation} (hlocal : d.localRef = none) :
    d.lead =
      d.id.text ++ ':' :: (joinWith ',' (d.hyps.map Citation.text) ++ ':' :: d.ref.getD []) := by
  have hreference : d.referenceText = d.ref.getD [] := by
    unfold Derivation.referenceText
    rw [hlocal]
    cases d.ref <;> rfl
  rw [Derivation.lead, hreference]
  simp

/-- The hypothesis list of a lead is one field. -/
theorem Derivation.Writable.hypsText {d : Derivation} (h : d.Writable) :
    IsSolid (joinWith ',' (d.hyps.map Citation.text)) ∧
      ':' ∉ joinWith ',' (d.hyps.map Citation.text) := by
  have plain : ∀ x ∈ joinWith ',' (d.hyps.map Citation.text), isBlank x = false ∧ x ≠ ':' := by
    intro x hx
    rcases mem_joinWith hx with rfl | ⟨t, ht, hxt⟩
    · decide
    · obtain ⟨c, hc, rfl⟩ := List.mem_map.mp ht
      obtain ⟨hblank, hcolon, -⟩ := (h.hyps c hc).text_plain x hxt
      exact ⟨hblank, hcolon⟩
  exact ⟨fun x hx => (plain x hx).1, fun hx => (plain ':' hx).2 rfl⟩

/-- The hypothesis with a field in place of its label. -/
def Step.spelling (s : Step) (field : Text) : Step := { s with ref := some field }

/-- The derivation step with a field in place of its label. -/
def Derivation.spelling (d : Derivation) (field : Text) : Derivation :=
  { d with toStep := d.toStep.spelling field }

/-- A hypothesis is read back from its lead, however its label is spelled. -/
theorem Step.Writable.said {s : Step} (h : s.Writable) (db : Database) (not_qed : s.id ≠ .qed)
    {field : Text} (spells : SpellsLabel field s.ref) {words : List Text}
    (hwords : s.formula = formulaOfWords words) (tail : Text) :
    Says db (s.spelling field).hypothesisLead words tail (.hypothesis s.bare) := by
  have hid : ':' ∉ s.id.text := fun hx => (s.id.text_plain ':' hx).2.1 rfl
  have hf : StepFields.ofHypothesis? (s.id.text ++ ':' :: ([] ++ ':' :: field)) =
      some { step := s.id.text, hyps := [], ref := field } := by
    rw [StepFields.ofHypothesis?, splitOn_fields hid List.not_mem_nil spells.no_colon]
  have said : Says db ('h' :: (s.id.text ++ ':' :: ([] ++ ':' :: field))) words tail
      (.hypothesis (hypothesisOf s.id field words)) :=
    .hypothesis (Or.inl rfl) hf (StepId.read_text h.inRange) not_qed rfl spells.not_local
  have hsame : hypothesisOf s.id field words = s.bare := by
    rw [hypothesisOf, spells.read, ← hwords]
    rfl
  rw [hsame] at said
  exact said

/-- A derivation step is read back from its lead, however its label is spelled. -/
theorem Derivation.Writable.said {d : Derivation} (h : d.Writable) (db : Database)
    (workVars : d.NotesWorkVars) {field : Text} (spells : SpellsLabel field d.ref)
    {words : List Text} (hwords : d.formula = formulaOfWords words) (tail : Text) :
    Says db (d.spelling field).lead words tail (.derivation d.bare) := by
  have hid : ':' ∉ d.id.text := fun hx => (d.id.text_plain ':' hx).2.1 rfl
  have hlead : (d.spelling field).lead =
      d.id.text ++ ':' :: (joinWith ',' (d.hyps.map Citation.text) ++ ':' :: field) :=
    Derivation.lead_eq (d := d.spelling field) h.localRef
  have hf : StepFields.ofDerivation? (d.spelling field).lead =
      some
        { step := d.id.text
          hyps := joinWith ',' (d.hyps.map Citation.text)
          ref := field } := by
    rw [hlead, StepFields.ofDerivation?, splitOn_fields hid h.hypsText.2 spells.no_colon]
  -- a name begins with a digit or a letter that no other lead begins with
  have begins : leadsDerivation (d.spelling field).lead := by
    obtain ⟨x, t, ht, hx⟩ := d.id.text_begins
    have hhead : (d.spelling field).lead.head? = some x := by
      rw [hlead, ht]
      rfl
    have unlike : ∀ y : Char, y.isDigit = false → y ≠ 'q' →
        (d.spelling field).lead.head? ≠ some y := by
      intro y hdigit hq heq
      rw [hhead] at heq
      cases heq
      rcases hx with hx | hx
      · rw [hx] at hdigit
        cases hdigit
      · exact hq hx
    refine ⟨?_, unlike '*' rfl (by decide), unlike 'h' rfl (by decide), unlike 'H' rfl (by decide)⟩
    rw [Worksheet.beginsDerivation, hlead]
    simp
  have hhyps : readCitations d.cited (joinWith ',' (d.hyps.map Citation.text)) = .ok d.hyps :=
    readCitations_text h.hyps fun id hmem => mem_cited.mpr hmem
  have href : readReference d.id field = .ok (d.ref, none) := by
    have not_local := spells.not_local
    unfold readReference
    split
    · exact absurd rfl not_local
    · exact absurd rfl not_local
    · rw [spells.read]
  have said : Says db (d.spelling field).lead words tail
      (.derivation (derivationOf d.id words d.hyps (d.ref, none))) :=
    .derivation begins hf (StepId.read_text h.inRange) hhyps href
  have hsame : derivationOf d.id words d.hyps (d.ref, none) = d.bare := by
    unfold derivationOf Derivation.bare
    rw [← hwords, ← h.localRef, ← workVars]
  rw [hsame] at said
  exact said

end ProofSheet
