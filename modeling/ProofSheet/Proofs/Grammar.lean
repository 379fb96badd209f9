import ProofSheet.Proofs.Leads
import Mathlib.Data.List.TakeWhile

set_option autoImplicit false

/-! # The grammar of statements

What a statement consists of is written out here without the functions that read it: a lead is
its fields with colons between them, a hypothesis list is its entries with commas between them, a
generated proof is a list of words that ends with its only `$.`, and so on (`Spells`). The reader
accepts exactly these statements and finds in them what they spell (`spells_iff_says`).
-/

namespace ProofSheet

/-! ## Fields and entries -/

/-- The text consists of pieces, with a separating character between them and in none of them. -/
structure Pieces (x : Char) (t : Text) (pieces : List Text) : Prop where
  nonempty : pieces ≠ []
  joined : t = joinWith x pieces
  apart : ∀ p ∈ pieces, x ∉ p

theorem pieces_iff {x : Char} {t : Text} {pieces : List Text} :
    Pieces x t pieces ↔ t.splitOn x = pieces := by
  constructor
  · rintro ⟨hne, rfl, hapart⟩
    exact List.splitOn_intercalate x hapart hne
  · rintro rfl
    refine ⟨List.splitOn_ne_nil x t, (List.intercalate_splitOn x).symm, fun p hp hx => ?_⟩
    exact (mem_of_mem_splitOn hp hx).2 rfl

/-- The fields of a hypothesis, from its lead without the letter. With one colon, the second field
is the label. -/
inductive HypothesisFields (t : Text) : StepFields → Prop where
  | step {step : Text} (h : Pieces ':' t [step]) : HypothesisFields t { step }
  | label {step ref : Text} (h : Pieces ':' t [step, ref]) : HypothesisFields t { step, ref }
  | all {step hyps ref : Text} (h : Pieces ':' t [step, hyps, ref]) :
      HypothesisFields t { step, hyps, ref }

/-- The fields of a derivation step, from its lead. With one colon, the second field is the
hypothesis list, unless it begins with `#`. -/
inductive DerivationFields (t : Text) : StepFields → Prop where
  | step {step : Text} (h : Pieces ':' t [step]) : DerivationFields t { step }
  | hyps {step hyps : Text} (h : Pieces ':' t [step, hyps]) (plain : hyps.head? ≠ some '#') :
      DerivationFields t { step, hyps }
  | localRef {step target : Text} (h : Pieces ':' t [step, '#' :: target]) :
      DerivationFields t { step, ref := '#' :: target }
  | all {step hyps ref : Text} (h : Pieces ':' t [step, hyps, ref]) :
      DerivationFields t { step, hyps, ref }

theorem hypothesisFields_iff {t : Text} {f : StepFields} :
    HypothesisFields t f ↔ StepFields.ofHypothesis? t = some f := by
  unfold StepFields.ofHypothesis?
  constructor
  · intro h
    cases h with
    | step h | label h | all h => rw [pieces_iff.mp h]
  · intro h
    split at h
    · rename_i hsplit
      cases h
      exact .step (pieces_iff.mpr hsplit)
    · rename_i hsplit
      cases h
      exact .label (pieces_iff.mpr hsplit)
    · rename_i hsplit
      cases h
      exact .all (pieces_iff.mpr hsplit)
    · cases h

theorem derivationFields_iff {t : Text} {f : StepFields} :
    DerivationFields t f ↔ StepFields.ofDerivation? t = some f := by
  unfold StepFields.ofDerivation?
  constructor
  · intro h
    cases h with
    | step h | all h => rw [pieces_iff.mp h]
    | hyps h plain =>
        rw [pieces_iff.mp h]
        exact if_neg plain
    | localRef h =>
        rw [pieces_iff.mp h]
        exact if_pos rfl
  · intro h
    split at h
    · rename_i hsplit
      cases h
      exact .step (pieces_iff.mpr hsplit)
    · rename_i step field hsplit
      by_cases hlocal : field.head? = some '#'
      · obtain ⟨target, rfl⟩ := List.head?_eq_some_iff.mp hlocal
        rw [if_pos hlocal] at h
        cases h
        exact .localRef (pieces_iff.mpr hsplit)
      · rw [if_neg hlocal] at h
        cases h
        exact .hyps (pieces_iff.mpr hsplit) hlocal
    · rename_i hsplit
      cases h
      exact .all (pieces_iff.mpr hsplit)
    · cases h

/-- A step field names a step: blanks around the name do not count, `qed` may have letters of
either case, and a number may have leading zeros. -/
inductive NamesStep (field : Text) : StepId → Prop where
  | qed (h : sameLetters (trim field) StepId.qedName = true) : NamesStep field .qed
  | number {n : Nat} (h : readDecimal (trim field) = some n) (positive : 0 < n)
      (small : n < 0x100000000) : NamesStep field (.number n)

/-- The word `qed` is not a number. -/
theorem readDecimal_of_qed {t : Text} (h : sameLetters t StepId.qedName = true) :
    readDecimal t = none := by
  rw [sameLetters, beq_iff_eq] at h
  cases t with
  | nil => cases h
  | cons c rest =>
      have hc : c.toLower = 'q' := (List.cons.inj h).1
      have not_digit : c.isDigit = false := by
        rw [Bool.eq_false_iff]
        intro hdigit
        rw [← toLower_of_isDigit hdigit, hc] at hdigit
        exact absurd hdigit (by decide)
      rw [readDecimal, if_neg]
      simp [not_digit]

/-- The name of a step is there, and has no character that stands for something else. -/
theorem NamesStep.plain {field : Text} {id : StepId} (h : NamesStep field id) :
    trim field ≠ [] ∧ ∀ c ∈ trim field, c ≠ '?' ∧ c ≠ '#' := by
  cases h with
  | qed h =>
      rw [sameLetters, beq_iff_eq] at h
      refine ⟨fun hnil => ?_, fun c hc => ?_⟩
      · rw [hnil] at h
        cases h
      · have hlower : c.toLower ∈ ['q', 'e', 'd'] := by
          have hmem := List.mem_map_of_mem (f := Char.toLower) hc
          rwa [h] at hmem
        refine ⟨?_, ?_⟩
        · rintro rfl
          exact absurd hlower (by decide)
        · rintro rfl
          exact absurd hlower (by decide)
  | number h =>
      rw [readDecimal] at h
      split at h
      · rename_i digits
        obtain ⟨hne, hall⟩ := digits
        refine ⟨hne, fun c hc => ?_⟩
        have hdigit : c.isDigit = true := List.all_eq_true.mp hall c hc
        refine ⟨?_, ?_⟩
        · rintro rfl
          exact absurd hdigit (by decide)
        · rintro rfl
          exact absurd hdigit (by decide)
      · cases h

theorem namesStep_iff {field : Text} {id : StepId} :
    NamesStep field id ↔ StepId.read field = .ok id := by
  unfold StepId.read
  dsimp only
  constructor
  · intro h
    obtain ⟨hne, hplain⟩ := h.plain
    have given : ¬ (trim field = [] ∨ trim field = ['?']) := by
      rintro (hnil | hquery)
      · exact hne hnil
      · exact (hplain '?' (by simp [hquery])).1 rfl
    rw [if_neg given]
    cases h with
    | qed h => rw [if_pos h]
    | @number n h positive small =>
        have not_qed : ¬ sameLetters (trim field) StepId.qedName = true := by
          intro hqed
          rw [readDecimal_of_qed hqed] at h
          cases h
        have range : 0 < n ∧ n ≤ StepId.maxNumber := by
          unfold StepId.maxNumber
          omega
        rw [if_neg not_qed, h]
        exact if_pos range
  · intro h
    by_cases hmissing : trim field = [] ∨ trim field = ['?']
    · rw [if_pos hmissing] at h
      cases h
    rw [if_neg hmissing] at h
    by_cases hqed : sameLetters (trim field) StepId.qedName = true
    · rw [if_pos hqed] at h
      cases h
      exact .qed hqed
    rw [if_neg hqed] at h
    cases hread : readDecimal (trim field) with
    | none => simp [hread] at h
    | some n =>
        simp only [hread] at h
        by_cases range : 0 < n ∧ n ≤ StepId.maxNumber
        · rw [if_pos range] at h
          cases h
          unfold StepId.maxNumber at range
          exact .number hread range.1 (by omega)
        · rw [if_neg range] at h
          cases h

/-- An entry of a hypothesis list: nothing or `?`, a local reference, or the name of a step. -/
inductive SpellsEntry (entry : Text) : Citation → Prop where
  | unknown (h : entry = [] ∨ entry = ['?']) : SpellsEntry entry .unknown
  | localRef {target : Text} (h : entry = '#' :: target) (given : target ≠ []) :
      SpellsEntry entry (.localRef target)
  | step {id : StepId} (h : NamesStep entry id) : SpellsEntry entry (.step id)

/-- A hypothesis list: a blank field, or entries with commas between them and blanks around. -/
inductive SpellsHyps (field : Text) : List Citation → Prop where
  | none (blank : trim field = []) : SpellsHyps field []
  | entries {entries : List Text} {hyps : List Citation} (given : trim field ≠ [])
      (h : Pieces ',' field entries)
      (each : List.Forall₂ (fun entry => SpellsEntry (trim entry)) entries hyps) :
      SpellsHyps field hyps

/-- The last field of a derivation step: a label, or a local reference, which `qed` may not be. -/
inductive SpellsRef (id : StepId) (field : Text) : Option Text × Option Text → Prop where
  | label (h : field.head? ≠ some '#') : SpellsRef id field (readLabel field, none)
  | localRef {target : Text} (h : field = '#' :: target) (given : target ≠ [])
      (not_qed : id ≠ .qed) : SpellsRef id field (none, some target)

/-- Trimming takes away blanks only. -/
theorem mem_trim {c : Char} {t : Text} (hc : c ∈ t) (not_blank : isBlank c = false) :
    c ∈ trim t := by
  have mem_dropWhile : ∀ {u : Text}, c ∈ u → c ∈ u.dropWhile isBlank := by
    intro u hu
    rw [← List.takeWhile_append_dropWhile (p := isBlank) (l := u), List.mem_append] at hu
    refine hu.resolve_left fun hblank => ?_
    rw [List.mem_takeWhile_imp hblank] at not_blank
    cases not_blank
  rw [trim, trimStart, trimEnd, List.mem_reverse]
  exact mem_dropWhile (List.mem_reverse.mpr (mem_dropWhile hc))

/-- Which entries are read: the ones that can be spelled, if the steps that they name are known. -/
theorem readCitation_iff {known : List StepId} {entry : Text} {c : Citation} :
    readCitation known entry = .ok c ↔
      SpellsEntry entry c ∧ ∀ id, c = .step id → id ∈ known := by
  constructor
  · intro h
    refine ⟨?_, (readCitation_eq_ok h known).1⟩
    unfold readCitation at h
    split at h
    · cases h
      exact .unknown (Or.inl rfl)
    · cases h
      exact .unknown (Or.inr rfl)
    · cases h
    · rename_i target hgiven
      cases h
      exact .localRef rfl fun hnil => hgiven (by rw [hnil])
    · cases hread : StepId.read entry with
      | error cause => simp [hread] at h
      | ok id =>
          simp only [hread] at h
          split at h
          · cases h
            exact .step (namesStep_iff.mpr hread)
          · cases h
  · rintro ⟨h, hknown⟩
    cases h with
    | unknown h => rcases h with rfl | rfl <;> rfl
    | localRef h given =>
        obtain ⟨x, target, rfl⟩ := List.exists_cons_of_ne_nil given
        rw [h]
        rfl
    | @step id h =>
        obtain ⟨hne, hplain⟩ := h.plain
        have hread := namesStep_iff.mp h
        -- the name begins like none of the other forms
        unfold readCitation
        split
        · exact absurd rfl hne
        · exact absurd rfl (hplain '?' (by decide)).1
        · exact absurd rfl (hplain '#' (by decide)).2
        · exact absurd rfl (hplain '#' (mem_trim List.mem_cons_self (by decide))).2
        · rw [hread]
          exact if_pos (hknown id rfl)

theorem readCitations_iff {known : List StepId} {field : Text} {hyps : List Citation} :
    readCitations known field = .ok hyps ↔
      SpellsHyps field hyps ∧ ∀ id, .step id ∈ hyps → id ∈ known := by
  constructor
  · intro h
    refine ⟨?_, (readCitations_eq_ok h known).1⟩
    by_cases hblank : trim field = []
    · rw [readCitations, if_pos hblank] at h
      cases h
      exact .none hblank
    · rw [readCitations, if_neg hblank, mapM_eq_ok, List.forall₂_map_left_iff] at h
      exact .entries hblank (pieces_iff.mpr rfl)
        (h.imp fun _ _ hread => (readCitation_iff.mp hread).1)
  · rintro ⟨h, hknown⟩
    cases h with
    | none blank => rw [readCitations, if_pos blank]
    | entries given h each =>
        rw [readCitations, if_neg given, pieces_iff.mp h, mapM_eq_ok, List.forall₂_map_left_iff]
        clear h
        induction each with
        | nil => exact .nil
        | cons hentry _ ih =>
            refine .cons (readCitation_iff.mpr ⟨hentry, ?_⟩) (ih fun id hid => ?_)
            · rintro id rfl
              exact hknown id List.mem_cons_self
            · exact hknown id (List.mem_cons_of_mem _ hid)

theorem readReference_iff {id : StepId} {field : Text} {reference : Option Text × Option Text} :
    readReference id field = .ok reference ↔ SpellsRef id field reference := by
  unfold readReference
  constructor
  · intro h
    split at h
    · cases h
    · rename_i target hgiven
      by_cases hqed : id.isQed = true
      · rw [if_pos hqed] at h
        cases h
      · rw [if_neg hqed] at h
        cases h
        refine .localRef rfl (fun hnil => hgiven (by rw [hnil])) ?_
        rintro rfl
        exact hqed rfl
    · rename_i hlocal
      cases h
      refine .label fun hhash => ?_
      obtain ⟨target, htarget⟩ := List.head?_eq_some_iff.mp hhash
      exact hlocal target htarget
  · intro h
    cases h with
    | label h =>
        split
        · exact absurd rfl h
        · exact absurd rfl h
        · rfl
    | localRef h given not_qed =>
        obtain ⟨x, target, rfl⟩ := List.exists_cons_of_ne_nil given
        rw [h]
        exact if_neg (by simpa [StepId.isQed] using not_qed)

/-! ## Generated proofs -/

/-- The words after `$=`: labels, or labels between parentheses and codes after them, and then
the only `$.`. -/
inductive SpellsProof : List Text → ProofBody → Prop where
  | normal {labels : List Text} (plain : labels.head? ≠ some Keyword.openLabels)
      (open_end : Keyword.proofEnd ∉ labels) :
      SpellsProof (labels ++ [Keyword.proofEnd]) (.normal labels)
  | compressed {labels pieces : List Text} {codes : List Code}
      (open_labels : Keyword.closeLabels ∉ labels) (open_end : Keyword.proofEnd ∉ labels ++ pieces)
      (hcodes : Code.decode pieces.flatten = .ok codes) :
      SpellsProof
        (Keyword.openLabels :: (labels ++ Keyword.closeLabels :: (pieces ++ [Keyword.proofEnd])))
        (.compressed { labels := labels, codes := codes })

/-- What stands before the first place where a word occurs, and what stands from there on. -/
theorem split_at_first (word : Text) (words : List Text) :
    words = words.takeWhile (· ≠ word) ++ words.dropWhile (· ≠ word) ∧
      word ∉ words.takeWhile (· ≠ word) ∧ ∀ w ∈ (words.dropWhile (· ≠ word)).head?, w = word := by
  refine ⟨List.takeWhile_append_dropWhile.symm, fun hmem => ?_, fun w hw => ?_⟩
  · simpa using List.mem_takeWhile_imp hmem
  · have hnot := List.head?_dropWhile_not (fun w => decide (w ≠ word)) words
    rw [Option.mem_def.mp hw] at hnot
    simpa using hnot

theorem span_at_first {word : Text} {before : List Text} (h : word ∉ before) (after : List Text) :
    (before ++ word :: after).takeWhile (· ≠ word) = before ∧
      (before ++ word :: after).dropWhile (· ≠ word) = word :: after := by
  have hall : ∀ w ∈ before, decide (w ≠ word) = true := by
    intro w hw
    simp only [decide_eq_true_eq]
    rintro rfl
    exact h hw
  rw [List.takeWhile_append_of_pos hall, List.dropWhile_append_of_pos hall]
  simp

theorem proofBodyOf?_of_spells {labels pieces : List Text} {codes : List Code}
    (open_labels : Keyword.closeLabels ∉ labels) (hcodes : Code.decode pieces.flatten = .ok codes) :
    proofBodyOf? (Keyword.openLabels :: (labels ++ Keyword.closeLabels :: pieces)) =
      some (.compressed { labels := labels, codes := codes }) := by
  obtain ⟨htake, hdrop⟩ := span_at_first open_labels pieces
  rw [proofBodyOf?, if_neg (not_not.mpr rfl), hdrop, htake]
  simp only [hcodes]

/-- What is read from the words before the end of a proof is the proof that they spell. -/
theorem spellsProof_of_body {before : List Text} {body : ProofBody}
    (hbefore : Keyword.proofEnd ∉ before) (h : proofBodyOf? before = some body) :
    SpellsProof (before ++ [Keyword.proofEnd]) body := by
  cases before with
  | nil =>
      cases h
      exact .normal (fun heq => (by cases heq)) hbefore
  | cons first rest =>
      rw [proofBodyOf?] at h
      by_cases hopen : first = Keyword.openLabels
      · subst hopen
        rw [if_neg (not_not.mpr rfl)] at h
        obtain ⟨hrest, hlabels, hclose⟩ := split_at_first Keyword.closeLabels rest
        generalize rest.takeWhile (· ≠ Keyword.closeLabels) = labels at h hrest hlabels
        generalize rest.dropWhile (· ≠ Keyword.closeLabels) = closing at h hrest hclose
        cases closing with
        | nil => cases h
        | cons close pieces =>
            obtain rfl : close = Keyword.closeLabels := hclose close rfl
            cases hcodes : Code.decode pieces.flatten with
            | error e => simp [hcodes] at h
            | ok codes =>
                simp only [hcodes, Option.some.injEq] at h
                subst h hrest
                have hend : Keyword.proofEnd ∉ labels ++ pieces := by
                  simp only [List.mem_cons, List.mem_append, not_or] at hbefore ⊢
                  exact ⟨hbefore.2.1, hbefore.2.2.2⟩
                simpa using SpellsProof.compressed hlabels hend hcodes
      · rw [if_pos hopen] at h
        cases h
        exact .normal (by simpa using hopen) hbefore

theorem proofOf?_iff {words : List Text} {body : ProofBody} :
    proofOf? words = some body ↔ SpellsProof words body := by
  constructor
  · intro h
    rw [proofOf?] at h
    obtain ⟨hwords, hbefore, hafter⟩ := split_at_first Keyword.proofEnd words
    generalize words.takeWhile (· ≠ Keyword.proofEnd) = before at h hwords hbefore
    generalize words.dropWhile (· ≠ Keyword.proofEnd) = after at h hwords hafter
    rcases after with - | ⟨last, - | ⟨extra, after⟩⟩
    · cases h
    · obtain rfl : last = Keyword.proofEnd := hafter last rfl
      rw [hwords]
      exact spellsProof_of_body hbefore h
    · cases h
  · intro h
    rw [proofOf?]
    cases h with
    | @normal labels plain open_end =>
        obtain ⟨htake, hdrop⟩ := span_at_first open_end []
        rw [htake, hdrop]
        cases labels with
        | nil => rfl
        | cons first rest => exact if_pos (by simpa using plain)
    | @compressed labels pieces codes open_labels open_end hcodes =>
        let before := Keyword.openLabels :: (labels ++ Keyword.closeLabels :: pieces)
        have hbefore : Keyword.proofEnd ∉ before := by
          simp only [before, List.mem_cons, List.mem_append, not_or] at open_end ⊢
          exact ⟨by decide, open_end.1, by decide, open_end.2⟩
        obtain ⟨htake, hdrop⟩ := span_at_first hbefore []
        have hwords : Keyword.openLabels :: (labels ++ Keyword.closeLabels ::
            (pieces ++ [Keyword.proofEnd])) = before ++ [Keyword.proofEnd] := by
          simp [before]
        rw [hwords, htake, hdrop]
        exact proofBodyOf?_of_spells open_labels hcodes

/-! ## Statements -/

/-- A statement with a lead, words after it and a text after the lead, and what it says. -/
inductive Spells (db : Database) : Text → List Text → Text → Content → Prop where
  /-- The label after which a new theorem is to stand has to be known. -/
  | header {x y tail : Text} (given : x ≠ []) (named : x ≠ ['?'])
      (known : y = [] ∨ y = ['?'] ∨ (db.find? x).isSome = true ∨ db.knows y = true) :
      Spells db Keyword.header
        [Keyword.metamath, Keyword.proofAssistant, Keyword.theoremKey ++ x,
          Keyword.locAfterKey ++ y] tail (.header ⟨x, givenLabel y⟩)
  | footer {tail : Text} : Spells db Keyword.footer [] tail .footer
  | comment {rest tail : Text} {words : List Text} :
      Spells db ('*' :: rest) words tail (.comment (trimEnd (rest ++ tail)))
  | distinctVars {words : List Text} {tail : Text} (two : 2 ≤ words.length)
      (distinct : words.Nodup) : Spells db Keyword.distinctVars words tail (.distinctVars words)
  | proof {words : List Text} {tail : Text} {body : ProofBody} (h : SpellsProof words body) :
      Spells db Keyword.proof words tail (.proof body)
  | hypothesis {letter : Char} {fields tail : Text} {words : List Text} {f : StepFields}
      {id : StepId} (hletter : letter = 'h' ∨ letter = 'H') (hfields : HypothesisFields fields f)
      (hid : NamesStep f.step id) (not_qed : id ≠ .qed) (no_hyps : trim f.hyps = [])
      (not_local : f.ref.head? ≠ some '#') :
      Spells db (letter :: fields) words tail (.hypothesis (hypothesisOf id f.ref words))
  | derivation {lead tail : Text} {words : List Text} {f : StepFields} {id : StepId}
      {hyps : List Citation} {reference : Option Text × Option Text} (hlead : leadsDerivation lead)
      (hfields : DerivationFields lead f) (hid : NamesStep f.step id)
      (hhyps : SpellsHyps f.hyps hyps) (href : SpellsRef id f.ref reference) :
      Spells db lead words tail (.derivation (derivationOf id words hyps reference))

theorem givenLabel_eq_some {x label : Text} :
    givenLabel x = some label ↔ x = label ∧ x ≠ [] ∧ x ≠ ['?'] := by
  unfold givenLabel
  by_cases hmissing : x = [] ∨ x = ['?']
  · rw [if_pos hmissing]
    simp only [reduceCtorEq, false_iff, not_and, not_not]
    rintro rfl hne
    exact hmissing.resolve_left hne
  · rw [if_neg hmissing]
    rw [not_or] at hmissing
    simp [hmissing]

theorem labelAfter?_eq_some {key field x : Text} :
    labelAfter? key field = some x ↔ field = key ++ x := by
  rw [labelAfter?, List.isPrefixOf?_eq_some_iff_append_eq, eq_comm]

/-- The reader accepts the statements of the grammar, and finds in them what they spell. -/
theorem spells_iff_says {db : Database} {lead tail : Text} {words : List Text} {c : Content} :
    Spells db lead words tail c ↔ Says db lead words tail c := by
  constructor
  · intro h
    cases h with
    | @header x y tail given named known =>
        refine .header (labelAfter?_eq_some.mpr rfl) (givenLabel_eq_some.mpr ⟨rfl, given, named⟩)
          (labelAfter?_eq_some.mpr rfl) fun after hafter => ?_
        obtain ⟨rfl, hgiven, hnamed⟩ := givenLabel_eq_some.mp hafter
        exact (known.resolve_left hgiven).resolve_left hnamed
    | footer => exact .footer
    | comment => exact .comment
    | distinctVars two distinct => exact .distinctVars two distinct
    | proof h => exact .proof (proofOf?_iff.mpr h)
    | hypothesis hletter hfields hid not_qed no_hyps not_local =>
        exact .hypothesis hletter (hypothesisFields_iff.mp hfields) (namesStep_iff.mp hid) not_qed
          no_hyps not_local
    | @derivation lead tail words f id hyps reference hlead hfields hid hhyps href =>
        have hread : readCitations (hyps.filterMap Citation.step?) f.hyps = .ok hyps := by
          refine readCitations_iff.mpr ⟨hhyps, fun id hid => ?_⟩
          exact List.mem_filterMap.mpr ⟨.step id, hid, rfl⟩
        exact .derivation hlead (derivationFields_iff.mp hfields) (namesStep_iff.mp hid) hread
          (readReference_iff.mpr href)
  · intro h
    cases h with
    | @header x y label th la tail hth hx hla known =>
        obtain rfl := labelAfter?_eq_some.mp hth
        obtain rfl := labelAfter?_eq_some.mp hla
        obtain ⟨rfl, given, named⟩ := givenLabel_eq_some.mp hx
        refine .header given named ?_
        by_cases hmissing : y = [] ∨ y = ['?']
        · exact hmissing.imp_right Or.inl
        · rw [not_or] at hmissing
          exact Or.inr (Or.inr (known y (givenLabel_eq_some.mpr ⟨rfl, hmissing⟩)))
    | footer => exact .footer
    | comment => exact .comment
    | distinctVars two distinct => exact .distinctVars two distinct
    | proof hbody => exact .proof (proofOf?_iff.mp hbody)
    | hypothesis hletter hf hid not_qed no_hyps not_local =>
        exact .hypothesis hletter (hypothesisFields_iff.mpr hf) (namesStep_iff.mpr hid) not_qed
          no_hyps not_local
    | derivation hlead hf hid hhyps href =>
        exact .derivation hlead (derivationFields_iff.mpr hf) (namesStep_iff.mpr hid)
          (readCitations_iff.mp hhyps).1 (readReference_iff.mp href)

end ProofSheet
