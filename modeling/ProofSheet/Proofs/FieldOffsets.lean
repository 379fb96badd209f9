import ProofSheet.Proofs.Rereading
import ProofSheet.Statement.Field

set_option autoImplicit false

/-! # Where the fields of a step are

The offsets of the fields of a step are found by counting the colons of its lead, while the step was
read by splitting the lead at the colons. Both agree. The step field is what the lead begins with,
behind the letter of a hypothesis. A hypothesis list is behind the first colon, and a label without
blanks is what the lead ends with, behind the second colon (`EndsWithLabel`). There is one
exception. A hypothesis may have its label behind its only colon, and then the offset of the label
is the end of the lead (`Statement.Spelled.ref_iff`).

What the text of a step spells (`Statement.Spelled`) is the same whether its lead was read or is
written anew (`Statement.spelled_of_kept`), so all of this is true of a loaded worksheet
(`Worksheet.fields_load`).
-/

namespace ProofSheet

/-! ## After a colon -/

theorem afterColon_of_not_mem {t : Text} (h : ':' ∉ t) (n : Nat) : afterColon n t = t.length := by
  induction t with
  | nil => cases n <;> rfl
  | cons c rest ih =>
      rw [List.mem_cons, not_or] at h
      have hc : ¬c = ':' := fun heq => h.1 heq.symm
      cases n with
      | zero => rw [afterColon, if_neg hc, ih h.2, List.length_cons, Nat.add_comm]
      | succ n => rw [afterColon, if_neg hc, ih h.2, List.length_cons, Nat.add_comm]

theorem afterColon_zero {a : Text} (h : ':' ∉ a) (b : Text) :
    afterColon 0 (a ++ ':' :: b) = a.length + 1 := by
  induction a with
  | nil => rfl
  | cons c rest ih =>
      rw [List.mem_cons, not_or] at h
      have hc : ¬c = ':' := fun heq => h.1 heq.symm
      rw [List.cons_append, afterColon, if_neg hc, ih h.2, List.length_cons, Nat.add_comm]

theorem afterColon_succ {a : Text} (h : ':' ∉ a) (n : Nat) (b : Text) :
    afterColon (n + 1) (a ++ ':' :: b) = a.length + 1 + afterColon n b := by
  induction a with
  | nil => rfl
  | cons c rest ih =>
      rw [List.mem_cons, not_or] at h
      have hc : ¬c = ':' := fun heq => h.1 heq.symm
      rw [List.cons_append, afterColon, if_neg hc, ih h.2, List.length_cons]
      omega

theorem count_pair {a b : Text} (ha : ':' ∉ a) (hb : ':' ∉ b) :
    (a ++ ':' :: b).count ':' = 1 := by
  rw [List.count_append, List.count_cons_self, List.count_eq_zero.mpr ha,
    List.count_eq_zero.mpr hb]

theorem count_triple {a b c : Text} (ha : ':' ∉ a) (hb : ':' ∉ b) (hc : ':' ∉ c) :
    (a ++ ':' :: (b ++ ':' :: c)).count ':' = 2 := by
  rw [List.count_append, List.count_cons_self, count_pair hb hc, List.count_eq_zero.mpr ha]

/-- A text begins with the first of its pieces. -/
theorem Pieces.head_prefix {t a : Text} {rest : List Text} (h : Pieces ':' t (a :: rest)) :
    a <+: t := by
  rw [h.joined]
  cases rest with
  | nil => simp [joinWith]
  | cons b rest => exact ⟨_, (by rw [joinWith, List.intercalate_cons_cons, List.append_assoc])⟩

theorem Pieces.pair {t a b : Text} (h : Pieces ':' t [a, b]) :
    ':' ∉ a ∧ ':' ∉ b ∧ t = a ++ ':' :: b := by
  refine ⟨h.apart a (by simp), h.apart b (by simp), ?_⟩
  rw [h.joined]
  simp [joinWith]

theorem Pieces.triple {t a b c : Text} (h : Pieces ':' t [a, b, c]) :
    ':' ∉ a ∧ ':' ∉ b ∧ ':' ∉ c ∧ t = a ++ ':' :: (b ++ ':' :: c) := by
  refine ⟨h.apart a (by simp), h.apart b (by simp), h.apart c (by simp), ?_⟩
  rw [h.joined]
  simp [joinWith]

/-! ## Where a label stands -/

/-- The text ends with a label behind its second colon, or behind its only one. -/
inductive EndsWithLabel (t l : Text) : Prop where
  | second {a b : Text} (ha : ':' ∉ a) (hb : ':' ∉ b) (hl : ':' ∉ l)
      (h : t = a ++ ':' :: (b ++ ':' :: l))
  | only {a : Text} (ha : ':' ∉ a) (hl : ':' ∉ l) (h : t = a ++ ':' :: l)

theorem EndsWithLabel.cons {t l : Text} (h : EndsWithLabel t l) {x : Char} (hx : x ≠ ':') :
    EndsWithLabel (x :: t) l := by
  have not_mem : ∀ {a : Text}, ':' ∉ a → ':' ∉ x :: a := fun ha =>
    List.not_mem_cons_of_ne_of_not_mem hx.symm ha
  cases h with
  | second ha hb hl h => exact .second (not_mem ha) hb hl (by rw [h, List.cons_append])
  | only ha hl h => exact .only (not_mem ha) hl (by rw [h, List.cons_append])

/-- A label that is read from a field without blanks is the field. -/
theorem eq_of_readLabel {field l : Text} (h : readLabel field = some l) (solid : IsSolid field) :
    field = l ∧ l ≠ [] := by
  unfold readLabel at h
  dsimp only at h
  rw [solid.trim] at h
  split at h
  · cases h
  · next hgiven =>
    cases h
    exact ⟨rfl, fun hnil => hgiven (Or.inl hnil)⟩

theorem ne_nil_of_readLabel {field l : Text} (h : readLabel field = some l) : field ≠ [] := by
  rintro rfl
  cases h

theorem HypothesisFields.endsWithLabel {t : Text} {f : StepFields} (h : HypothesisFields t f)
    (given : f.ref ≠ []) : EndsWithLabel t f.ref := by
  cases h with
  | step => exact absurd rfl given
  | label pieces =>
      obtain ⟨ha, hl, ht⟩ := pieces.pair
      exact .only ha hl ht
  | all pieces =>
      obtain ⟨ha, hb, hl, ht⟩ := pieces.triple
      exact .second ha hb hl ht

theorem DerivationFields.endsWithLabel {t : Text} {f : StepFields} (h : DerivationFields t f)
    (given : f.ref ≠ []) : EndsWithLabel t f.ref := by
  cases h with
  | step | hyps => exact absurd rfl given
  | localRef pieces =>
      obtain ⟨ha, hl, ht⟩ := pieces.pair
      exact .only ha hl ht
  | all pieces =>
      obtain ⟨ha, hb, hl, ht⟩ := pieces.triple
      exact .second ha hb hl ht

/-- Only behind two colons there is a label. -/
theorem DerivationFields.count_eq_two {t : Text} {f : StepFields} (h : DerivationFields t f)
    (given : f.ref ≠ []) (not_local : f.ref.head? ≠ some '#') : t.count ':' = 2 := by
  cases h with
  | step | hyps => exact absurd rfl given
  | localRef => exact absurd rfl not_local
  | all pieces =>
      obtain ⟨ha, hb, hl, ht⟩ := pieces.triple
      rw [ht, count_triple ha hb hl]

/-- Only behind a colon there is a hypothesis list. -/
theorem DerivationFields.colon_mem {t : Text} {f : StepFields} (h : DerivationFields t f)
    (given : f.hyps ≠ []) : ':' ∈ t := by
  cases h with
  | step | localRef => exact absurd rfl given
  | hyps pieces => simp [pieces.pair.2.2]
  | all pieces => simp [pieces.triple.2.2.2]

namespace Statement

/-- The fields that the lead of a step is read as. -/
def fields? (s : Statement) : Option StepFields :=
  if s.isHypothesis then StepFields.ofHypothesis? (s.lead.drop 1)
  else StepFields.ofDerivation? s.lead

/-- The lead is that of a hypothesis with its label behind the only colon. -/
def IsShort (s : Statement) : Prop := s.isHypothesis = true ∧ s.lead.count ':' = 1

/-- How the text of a step spells what the step says. -/
structure Spelled (s : Statement) (step : Step) : Prop where
  laid : s.chunk.IsLaid
  letter : s.isHypothesis = true → s.lead.head? ≠ some ':'
  fields : ∃ f, s.fields? = some f ∧ StepId.read f.step = .ok step.id ∧
    ∀ l, step.ref = some l →
      readLabel f.ref = some l ∧ (s.isHypothesis = false → s.lead.count ':' = 2)
  hyps : ∀ d, s.content = .derivation d → d.hyps ≠ [] → ':' ∈ s.lead
  formula : step.formula = formulaOfWords (wordsOf s.tail)

/-- The offsets of the fields of a step are where the fields were read. -/
structure FieldsFound (s : Statement) (step : Step) : Prop where
  id : ∃ f, s.fields? = some f ∧ StepId.read f.step = .ok step.id ∧
    f.step <+: s.text.drop (s.fieldOffset .step)
  ref : ∀ l, step.ref = some l → IsSolid s.lead →
    (l <+: s.text.drop (s.fieldOffset .ref) ∧ s.fieldAt (s.fieldOffset .ref) = .ref ↔ ¬s.IsShort)
  /-- The label of a short lead is where a hypothesis list would be. -/
  short : ∀ l, step.ref = some l → IsSolid s.lead → s.IsShort →
    l <+: s.text.drop (s.fieldOffset .hyps) ∧ s.fieldOffset .ref = s.lead.length ∧
      s.fieldAt (s.fieldOffset .ref) = .hyps
  hyps : ∀ d, s.content = .derivation d → d.hyps ≠ [] → s.fieldAt (s.fieldOffset .hyps) = .hyps
  formula : ∀ symbol rest, step.formula = some ⟨symbol :: rest⟩ → IsSolid symbol →
    symbol <+: s.text.drop (s.fieldOffset .formula) ∧
      s.fieldAt (s.fieldOffset .formula) = .formula

variable {s : Statement} {step : Step}

/-- The step field is what the lead begins with. -/
theorem prefix_of_fields {f : StepFields} (hne : s.lead ≠ []) (h : s.fields? = some f) :
    f.step <+: s.text.drop (s.fieldOffset .step) := by
  unfold fields? at h
  unfold fieldOffset
  dsimp only
  split at h
  · next hyp =>
      have hdrop : (s.lead.drop 1) <+: s.text.drop 1 := by
        obtain ⟨x, rest, hlead⟩ := List.exists_cons_of_ne_nil hne
        rw [text, hlead]
        exact List.prefix_append rest s.tail
      rw [if_pos hyp]
      refine List.IsPrefix.trans ?_ hdrop
      cases hypothesisFields_iff.mpr h with
      | step pieces | label pieces | all pieces => exact pieces.head_prefix
  · next hyp =>
      rw [if_neg hyp]
      refine List.IsPrefix.trans ?_ (List.prefix_append s.lead s.tail)
      cases derivationFields_iff.mpr h with
      | step pieces | hyps pieces | localRef pieces | all pieces => exact pieces.head_prefix

/-- A label stands at the end of the lead. -/
theorem Spelled.endsWithLabel (h : s.Spelled step) {l : Text} (hl : step.ref = some l)
    (solid : IsSolid s.lead) : EndsWithLabel s.lead l := by
  obtain ⟨f, hf, -, hlabel⟩ := h.fields
  have hread := (hlabel l hl).1
  unfold fields? at hf
  split at hf
  · next hyp =>
      have hletter := h.letter hyp
      obtain ⟨x, rest, hlead⟩ := List.exists_cons_of_ne_nil h.laid.lead_ne
      replace hlead : s.lead = x :: rest := hlead
      rw [hlead] at hf hletter solid ⊢
      have hfield : IsSolid f.ref := fun y hy =>
        solid y (List.mem_cons_of_mem _ (mem_of_field (ref_of_hypothesis hf) y hy).1)
      obtain ⟨rfl, given⟩ := eq_of_readLabel hread hfield
      have hx : x ≠ ':' := by
        rintro rfl
        exact hletter rfl
      exact ((hypothesisFields_iff.mpr hf).endsWithLabel given).cons hx
  · have hfield : IsSolid f.ref := fun y hy =>
      solid y (mem_of_field (ref_of_derivation hf) y hy).1
    obtain ⟨rfl, given⟩ := eq_of_readLabel hread hfield
    exact (derivationFields_iff.mpr hf).endsWithLabel given

/-- What is at an offset within the lead. -/
theorem at_split (hstep : s.isStep = true) {a b : Text} (h : s.lead = a ++ b) :
    s.text.drop a.length = b ++ s.tail ∧
      s.fieldAt a.length =
        match a.count ':' with
        | 0 => .step
        | 1 => .hyps
        | _ => .ref := by
  constructor
  · rw [text, h, List.append_assoc, List.drop_left]
  · have hle : ¬s.lead.length < a.length := by
      rw [h, List.length_append]
      omega
    rw [fieldAt, hstep, if_neg hle, h, List.take_left]
    rfl

/-- What is behind the first colon. -/
theorem at_hyps (hstep : s.isStep = true) {a b : Text} (ha : ':' ∉ a)
    (hlead : s.lead = a ++ ':' :: b) :
    b <+: s.text.drop (s.fieldOffset .hyps) ∧ s.fieldAt (s.fieldOffset .hyps) = .hyps := by
  have hoffset : s.fieldOffset .hyps = (a ++ [':']).length := by
    rw [fieldOffset, hlead, afterColon_zero ha, List.length_append, List.length_singleton]
  have hsplit : s.lead = (a ++ [':']) ++ b := by simp [hlead]
  obtain ⟨hdrop, hat⟩ := at_split hstep hsplit
  rw [count_pair ha List.not_mem_nil] at hat
  rw [hoffset, hdrop]
  exact ⟨List.prefix_append b s.tail, hat⟩

/-- What is behind the second colon. -/
theorem at_ref (hstep : s.isStep = true) {a b c : Text} (ha : ':' ∉ a) (hb : ':' ∉ b)
    (hlead : s.lead = a ++ ':' :: (b ++ ':' :: c)) :
    c <+: s.text.drop (s.fieldOffset .ref) ∧ s.fieldAt (s.fieldOffset .ref) = .ref := by
  have hoffset : s.fieldOffset .ref = (a ++ ':' :: (b ++ [':'])).length := by
    rw [fieldOffset, hlead, afterColon_succ ha, afterColon_zero hb, List.length_append,
      List.length_cons, List.length_append, List.length_singleton]
    omega
  have hsplit : s.lead = (a ++ ':' :: (b ++ [':'])) ++ c := by simp [hlead]
  obtain ⟨hdrop, hat⟩ := at_split hstep hsplit
  rw [count_triple ha hb List.not_mem_nil] at hat
  rw [hoffset, hdrop]
  exact ⟨List.prefix_append c s.tail, hat⟩

/-- Without a second colon, the offset of the label is the end of the lead. -/
theorem at_end (hstep : s.isStep = true) {a b : Text} (ha : ':' ∉ a) (hb : ':' ∉ b)
    (hlead : s.lead = a ++ ':' :: b) :
    s.fieldOffset .ref = s.lead.length ∧ s.fieldAt (s.fieldOffset .ref) = .hyps := by
  have hoffset : s.fieldOffset .ref = s.lead.length := by
    rw [fieldOffset, hlead, afterColon_succ ha, afterColon_of_not_mem hb, List.length_append,
      List.length_cons]
    omega
  obtain ⟨-, hat⟩ := at_split hstep (List.append_nil s.lead).symm
  rw [hlead, count_pair ha hb, ← hlead] at hat
  rw [hoffset]
  exact ⟨rfl, hat⟩

/-- A lead with a label has two colons, unless it is short. -/
theorem Spelled.isShort_of_count (h : s.Spelled step) {l : Text} (hl : step.ref = some l)
    (hone : s.lead.count ':' = 1) : s.IsShort := by
  refine ⟨?_, hone⟩
  obtain ⟨f, -, -, hlabel⟩ := h.fields
  by_contra hder
  have htwo := (hlabel l hl).2 (Bool.eq_false_iff.mpr hder)
  rw [hone] at htwo
  cases htwo

theorem Spelled.ref_iff (h : s.Spelled step) (hstep : s.isStep = true) {l : Text}
    (hl : step.ref = some l) (solid : IsSolid s.lead) :
    l <+: s.text.drop (s.fieldOffset .ref) ∧ s.fieldAt (s.fieldOffset .ref) = .ref ↔
      ¬s.IsShort := by
  cases h.endsWithLabel hl solid with
  | second ha hb hcolon hlead =>
      refine iff_of_true (at_ref hstep ha hb hlead) ?_
      rintro ⟨-, hone⟩
      rw [hlead, count_triple ha hb hcolon] at hone
      cases hone
  | only ha hcolon hlead =>
      have hshort := h.isShort_of_count hl (by rw [hlead, count_pair ha hcolon])
      refine iff_of_false (fun hfound => ?_) (fun hnot => hnot hshort)
      rw [(at_end hstep ha hcolon hlead).2] at hfound
      cases hfound.2

theorem Spelled.at_short (h : s.Spelled step) (hstep : s.isStep = true) {l : Text}
    (hl : step.ref = some l) (solid : IsSolid s.lead) (hshort : s.IsShort) :
    l <+: s.text.drop (s.fieldOffset .hyps) ∧ s.fieldOffset .ref = s.lead.length ∧
      s.fieldAt (s.fieldOffset .ref) = .hyps := by
  cases h.endsWithLabel hl solid with
  | second ha hb hcolon hlead =>
      have hone := hshort.2
      rw [hlead, count_triple ha hb hcolon] at hone
      cases hone
  | only ha hcolon hlead => exact ⟨(at_hyps hstep ha hlead).1, at_end hstep ha hcolon hlead⟩

/-- The first word of a tail stands behind the separators that it begins with. -/
theorem exists_gap {tail symbol : Text} {rest : List Text} (h : wordsOf tail = symbol :: rest) :
    ∃ gap inner, tail = gap ++ inner ∧ (∀ x ∈ gap, isSeparator x = true) ∧ symbol <+: inner ∧
      symbol ≠ [] := by
  let inner := tail.dropWhile isSeparator
  have hinner : inner ≠ [] := by
    intro hnil
    rw [wordsOf_eq {} tail, show tail.dropWhile isSeparator = [] from hnil, tokensFrom,
      if_pos rfl] at h
    cases h
  have hsymbol : inner.takeWhile (!isSeparator ·) = symbol := by
    rw [wordsOf_eq {} tail, tokensFrom, if_neg hinner, List.map_cons] at h
    exact (List.cons.inj h).1
  refine ⟨tail.takeWhile isSeparator, inner, List.takeWhile_append_dropWhile.symm,
    fun x hx => List.mem_takeWhile_imp hx, hsymbol ▸ List.takeWhile_prefix _, ?_⟩
  obtain ⟨x, more, hx⟩ := List.exists_cons_of_ne_nil hinner
  have hword : isSeparator x = false := by
    refine beginsWord_dropWhile tail x ?_
    rw [show tail.dropWhile isSeparator = x :: more from hx]
    rfl
  rw [← hsymbol, hx, List.takeWhile_cons_of_pos (p := fun c => !isSeparator c) (by simp [hword])]
  exact List.cons_ne_nil _ _

/-- The formula begins behind the blanks after the lead. -/
theorem Spelled.formula_at (h : s.Spelled step) (hstep : s.isStep = true) {symbol : Text}
    {rest : List Text} (hformula : step.formula = some ⟨symbol :: rest⟩) (solid : IsSolid symbol) :
    symbol <+: s.text.drop (s.fieldOffset .formula) ∧
      s.fieldAt (s.fieldOffset .formula) = .formula := by
  have hwords : wordsOf s.tail = symbol :: rest := by
    have hgiven := h.formula.symm.trans hformula
    unfold formulaOfWords at hgiven
    split at hgiven
    · cases hgiven
    · exact congrArg Formula.symbols (Option.some.inj hgiven)
  obtain ⟨gap, inner, htail, hgap, ⟨more, hinner⟩, hne⟩ := exists_gap hwords
  obtain ⟨x, word, hsymbol⟩ := List.exists_cons_of_ne_nil hne
  have hx : isBlank x = false := solid x (hsymbol ▸ List.mem_cons_self)
  -- the symbol begins with no blank, so the blanks end where it begins
  have hblanks : s.tail.takeWhile isBlank = gap := by
    rw [htail, List.takeWhile_append_of_pos fun y hy => isBlank_of_isSeparator (hgap y hy),
      ← hinner, hsymbol, List.cons_append, List.takeWhile_cons_of_neg (by rw [hx]; decide),
      List.append_nil]
  have hshort : ¬gap.length = s.tail.length := by
    rw [htail, ← hinner, hsymbol]
    simp
  have hoffset : s.fieldOffset .formula = (s.lead ++ gap).length := by
    rw [fieldOffset, hblanks, if_neg hshort, List.length_append]
  have hgap_ne : gap ≠ [] := by
    rintro rfl
    have hsep := h.laid.apart x (by
      show x ∈ s.tail.head?
      rw [htail, ← hinner, hsymbol]
      rfl)
    rw [isBlank_of_isSeparator hsep] at hx
    cases hx
  have hbehind : s.lead.length < (s.lead ++ gap).length := by
    rw [List.length_append]
    have := List.length_pos_iff.mpr hgap_ne
    omega
  constructor
  · rw [hoffset, text, htail, ← List.append_assoc, List.drop_left]
    exact ⟨more, hinner⟩
  · rw [hoffset, fieldAt, hstep, if_pos hbehind]
    rfl

theorem Spelled.found (h : s.Spelled step) (hstep : s.content.step? = some step) :
    s.FieldsFound step := by
  have hisStep : s.isStep = true := by rw [isStep, step?, hstep, Option.isSome_some]
  refine ⟨?_, fun l hl solid => h.ref_iff hisStep hl solid,
    fun l hl solid hshort => h.at_short hisStep hl solid hshort, fun d hd hne => ?_,
    fun symbol rest hformula solid => h.formula_at hisStep hformula solid⟩
  · obtain ⟨f, hf, hread, -⟩ := h.fields
    exact ⟨f, hf, hread, prefix_of_fields h.laid.lead_ne hf⟩
  · obtain ⟨a, b, hlead, ha⟩ := List.eq_append_cons_of_mem (h.hyps d hd hne)
    exact (at_hyps hisStep ha hlead).2

/-! ## Steps of a loaded worksheet -/

variable {db : Database}

/-- The text of a step that was read spells what it says. -/
theorem spelled_of_said {lead tail : Text} {words : List Text} {c : Content}
    (said : Says db lead words tail c) (hlead : s.lead = lead) (hwords : wordsOf s.tail = words)
    (hcontent : s.content = c) (hstep : c.step? = some step) (laid : s.chunk.IsLaid) :
    s.Spelled step := by
  have hformula := said.formula_eq hstep
  rw [← hwords] at hformula
  cases said with
  | @hypothesis letter fields _ _ f id hletter hf hid =>
      cases hstep
      have hyp : s.isHypothesis = true := by rw [isHypothesis, hcontent]
      have hfields : s.fields? = some f := by
        rw [fields?, if_pos hyp, hlead]
        exact hf
      refine ⟨laid, fun _ hcolon => ?_, ⟨f, hfields, hid, fun l hl => ⟨hl, fun hder => ?_⟩⟩,
        fun d hd => ?_, hformula⟩
      · rw [hlead, List.head?_cons, Option.some.injEq] at hcolon
        rcases hletter with rfl | rfl
        · cases hcolon
        · cases hcolon
      · rw [hyp] at hder
        cases hder
      · rw [hcontent] at hd
        cases hd
  | @derivation _ _ _ f id known hyps reference begins hf hid hhyps href =>
      cases hstep
      have hder : s.isHypothesis = false := by rw [isHypothesis, hcontent]
      have hfields : s.fields? = some f := by
        rw [fields?, hder, hlead]
        exact hf
      refine ⟨laid, fun hyp => ?_, ⟨f, hfields, hid, fun l hl => ?_⟩, fun d hd hne => ?_, hformula⟩
      · rw [hder] at hyp
        cases hyp
      · obtain ⟨ref, localRef⟩ := reference
        obtain rfl : ref = some l := hl
        obtain ⟨hlabel, not_local⟩ := readReference_label href
        refine ⟨hlabel, fun _ => ?_⟩
        rw [hlead]
        exact (derivationFields_iff.mpr hf).count_eq_two (ne_nil_of_readLabel hlabel) not_local
      · rw [hcontent] at hd
        cases hd
        rw [hlead]
        refine (derivationFields_iff.mpr hf).colon_mem fun hnil => hne ?_
        rw [hnil] at hhyps
        exact (Except.ok.inj hhyps).symm
  | _ => cases hstep

/-- A lead that is written for another hypothesis list spells it. -/
theorem spelled_citing {d : Derivation} {hyps : List Citation} {earlier : List StepId}
    (said : Says db s.lead (wordsOf s.tail) s.tail s.content) (hd : s.content = .derivation d)
    (hlocal : d.localRef = none) (hne : hyps ≠ d.hyps)
    (hcites : CitesOnly earlier (.derivation (d.citing hyps)))
    (laid : (s.citing d hyps).chunk.IsLaid) : (s.citing d hyps).Spelled d.toStep := by
  have hstep : s.content.step? = some d.toStep := by rw [hd]; rfl
  have hformula := said.formula_eq hstep
  rw [hd] at said
  obtain ⟨inRange, -, -, ref, -, href, -, ref_chars⟩ := said.spells_derivation
  have hnew : s.citing d hyps =
      { s with content := .derivation (d.citing hyps), lead := (d.citing hyps).lead } := by
    rw [Statement.citing, if_neg hne]
    rfl
  have hyps_apart : ':' ∉ joinWith ',' ((d.citing hyps).hyps.map Citation.text) := by
    intro hx
    rcases mem_joinWith hx with hcomma | ⟨t, ht, hxt⟩
    · cases hcomma
    obtain ⟨entry, hentry, rfl⟩ := List.mem_map.mp ht
    rcases (hcites _ rfl).2 entry hentry with rfl | ⟨id, -, rfl⟩
    · exact absurd hxt (by decide)
    · exact (id.text_plain ':' hxt).2.1 rfl
  have ref_apart : ':' ∉ (d.citing hyps).referenceText := fun hx =>
    (ref_chars ':' (href.mem_referenceText hx)).2 rfl
  have hlead : (d.citing hyps).lead = d.id.text ++
      ':' :: (joinWith ',' ((d.citing hyps).hyps.map Citation.text) ++
        ':' :: (d.citing hyps).referenceText) := by
    rw [Derivation.lead, List.append_assoc, List.cons_append]
    rfl
  have htwo : (d.citing hyps).lead.count ':' = 2 := by
    rw [hlead, count_triple (fun hx => (d.id.text_plain ':' hx).2.1 rfl) hyps_apart ref_apart]
  rw [hnew] at laid ⊢
  refine ⟨laid, fun hyp => (by cases hyp),
    ⟨_, Derivation.fields_lead hyps_apart ref_apart, StepId.read_text inRange,
      fun l hl => ⟨?_, fun _ => htwo⟩⟩,
    fun d' hd' _ => ?_, hformula⟩
  · have hlabel : readLabel l = some l := readLabel_of_readLabel (href.eq_label hl).1
    have htext : (d.citing hyps).referenceText = l := by
      rw [Derivation.referenceText, show (d.citing hyps).localRef = none from hlocal,
        show (d.citing hyps).ref = some l from hl]
    dsimp only
    rw [htext, hlabel]
  · exact List.count_pos_iff.mp (by
      show 0 < (d.citing hyps).lead.count ':'
      omega)

/-- A statement that is kept with a resolved hypothesis list spells what it says. -/
theorem spelled_of_kept {s' : Statement} {earlier : List StepId} (laid : s.chunk.IsLaid)
    (said : Says db s.lead (wordsOf s.tail) s.tail s.content)
    (hkept : s' = s ∨ ∃ d hyps, s.content = .derivation d ∧ d.localRef = none ∧
      s' = s.citing d hyps)
    (hcites : CitesOnly earlier s'.content) (hstep : s'.content.step? = some step) :
    s'.Spelled step := by
  have told := told_of_kept laid said hkept hcites
  rcases hkept with rfl | ⟨d, hyps, hd, hlocal, rfl⟩
  · exact spelled_of_said said rfl rfl rfl hstep laid
  rw [citing_content hd] at hcites hstep
  cases hstep
  by_cases hsame : hyps = d.hyps
  · rw [citing, if_pos hsame]
    exact spelled_of_said said rfl rfl rfl (by rw [hd]; rfl) laid
  · exact spelled_citing said hd hlocal hsame hcites told.laid

/-- A level makes no difference to what the text of a step spells. -/
theorem Relaid.spelled {s' : Statement} (h : s.Relaid s') (spelled : s.Spelled step) {level : Nat}
    (hcontent : s'.content = s.content.mapStep ({ · with level := level })) :
    s'.Spelled { step with level := level } := by
  have hyp : s'.isHypothesis = s.isHypothesis := by
    rw [isHypothesis, isHypothesis, hcontent]
    cases s.content <;> rfl
  have hfields : s'.fields? = s.fields? := by rw [fields?, fields?, hyp, h.lead]
  obtain ⟨laid, letter, fields, hyps, formula⟩ := spelled
  refine ⟨h.chunk ▸ laid, ?_, ?_, ?_, h.tail ▸ formula⟩
  · rw [hyp, h.lead]
    exact letter
  · rw [hfields, hyp, h.lead]
    exact fields
  · intro d hd hne
    rw [hcontent] at hd
    cases hc : s.content with
    | derivation d₀ =>
        rw [hc] at hd
        cases hd
        rw [h.lead]
        exact hyps d₀ hc hne
    | _ =>
        rw [hc] at hd
        cases hd

end Statement

namespace Worksheet

variable {db : Database} {st : Settings}

/-- On a worksheet that loads cleanly the fields of every step are where its text has them, but for
the label of a hypothesis with a single colon. -/
theorem fields_load {request : Request} {text : Text}
    (clean : (load db st request text).broken = false) {s : Statement}
    (hs : s ∈ (load db st request text).statements) {step : Step} (hstep : s.step? = some step) :
    s.FieldsFound step := by
  obtain ⟨read, kept, r, hread, passes, relaid⟩ := passes_load clean
  obtain ⟨s₀, hs₀, hrelaid⟩ := exists_mem_of_forall₂ relaid hs
  obtain ⟨source, earlier, laid, said, hkept, hcites⟩ := kept_of_passes hread passes hs₀
  obtain ⟨level, hcontent⟩ := hrelaid.content
  have hmap : (s₀.content.mapStep ({ · with level := level })).step? = some step :=
    hcontent ▸ hstep
  obtain ⟨step₀, hstep₀, rfl⟩ : ∃ step₀, s₀.content.step? = some step₀ ∧
      { step₀ with level := level } = step := by
    cases hc : s₀.content with
    | hypothesis | derivation =>
        rw [hc] at hmap
        exact ⟨_, rfl, Option.some.inj hmap⟩
    | _ =>
        rw [hc] at hmap
        cases hmap
  have spelled := Statement.spelled_of_kept laid said hkept hcites hstep₀
  exact (hrelaid.spelled spelled hcontent).found hstep

/-- The step that cites the hypothesis has a label behind its second colon. -/
theorem fields_load_shortText :
    (load .empty {} {} shortText).broken = false ∧
      ∃ s ∈ (load .empty {} {} shortText).statements, ∃ step, s.step? = some step ∧
        step.ref = some ['a'] ∧ s.FieldsFound step := by
  obtain ⟨s, hs, step, hstep, hlabel⟩ : ∃ s ∈ (load .empty {} {} shortText).statements,
      ∃ step ∈ s.step?, step.ref = some ['a'] := by decide +kernel
  exact ⟨shortText_loads, s, hs, step, hstep, hlabel, fields_load shortText_loads hs hstep⟩

/-- A worksheet with a hypothesis that has a single colon. -/
def oneColonText : Text :=
  "$( <MM> <PROOF_ASST> THEOREM=t LOC_AFTER=?\nh1:t.1 |- p\nqed:1:ax |- q\n$)\n".toList

/-- The offset of the label of the hypothesis is behind the label, in the hypothesis list. -/
theorem oneColonText_misses :
    (load .empty {} {} oneColonText).broken = false ∧
      ∃ s ∈ (load .empty {} {} oneColonText).statements, ∃ step ∈ s.step?,
        step.ref = some "t.1".toList ∧ s.lead = "h1:t.1".toList ∧ s.fieldOffset .ref = 6 ∧
          ¬"t.1".toList <+: s.text.drop (s.fieldOffset .ref) ∧
          s.fieldAt (s.fieldOffset .ref) = .hyps := by
  decide +kernel

end Worksheet

end ProofSheet
