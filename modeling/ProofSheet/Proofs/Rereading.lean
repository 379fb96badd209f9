import ProofSheet.Proofs.Output
import Mathlib.Data.List.DropRight

set_option autoImplicit false

/-! # Leads are read again

The lead that is written from the fields of a step that was read is read again as the same fields
(`Says.reread`). That is so with local references too, and with blanks that separate nothing, since
what was trimmed once stays as it is. There is one exception. A label that begins with `#` is read
from a field with a blank in front of the `#`. It is written without the blank, and then it is taken
for a local reference (`Says.labelPlain_of_reread`). So a lead is read again as it was read exactly
if the label does not begin with `#` (`Worksheet.rereads_iff`).
-/

namespace ProofSheet

/-! ## Trimmed texts -/

theorem trim_trim (t : Text) : trim (trim t) = trim t := by
  have hstart : trimStart (trim t) = trim t := by
    cases htrim : trim t with
    | nil => rfl
    | cons x rest =>
        have hprefix : trim t <+: trimStart t := List.rdropWhile_prefix isBlank _
        obtain ⟨more, hmore⟩ := htrim ▸ hprefix
        have hx := List.head?_dropWhile_not isBlank t
        rw [show t.dropWhile isBlank = x :: (rest ++ more) from hmore.symm] at hx
        exact List.dropWhile_cons_of_neg (by simpa using hx)
  rw [trim, hstart]
  exact List.rdropWhile_idempotent isBlank _

theorem readLabel_of_readLabel {field l : Text} (h : readLabel field = some l) :
    readLabel l = some l := by
  unfold readLabel at h ⊢
  dsimp only at h ⊢
  split at h
  · cases h
  · next hgiven =>
    cases h
    rw [trim_trim, if_neg hgiven]

/-! ## Entries -/

theorem NamesStep.inRange {field : Text} {id : StepId} (h : NamesStep field id) : id.InRange := by
  cases h with
  | qed => trivial
  | number h positive small => exact ⟨positive, Nat.le_of_lt_succ small⟩

/-- Every character of an entry that is written comes from the entry that was read, or is not taken
for anything. -/
theorem SpellsEntry.mem_text {entry : Text} {c : Citation} (h : SpellsEntry (trim entry) c)
    {x : Char} (hx : x ∈ c.text) : x ∈ entry ∨ isBlank x = false ∧ x ≠ ':' ∧ x ≠ ',' := by
  cases h with
  | unknown =>
      rw [List.mem_singleton.mp hx]
      exact Or.inr (by decide)
  | localRef h =>
      refine Or.inl (mem_of_mem_trim ?_)
      rw [h]
      exact hx
  | @step id h => exact Or.inr (id.text_plain x hx)

/-- The entry is read from its text, and a list of such entries from their texts with commas in
between. -/
structure Citation.IsWritten (c : Citation) : Prop where
  spells : SpellsEntry c.text c
  trimmed : trim c.text = c.text
  visible : ∃ x ∈ c.text, isBlank x = false
  apart : ',' ∉ c.text

theorem SpellsEntry.isWritten {entry : Text} {c : Citation} (h : SpellsEntry (trim entry) c)
    (hcomma : ',' ∉ entry) : c.IsWritten := by
  have apart : ',' ∉ c.text := by
    intro hmem
    rcases h.mem_text hmem with hentry | ⟨-, -, hne⟩
    · exact hcomma hentry
    · exact hne rfl
  cases h with
  | unknown => exact ⟨.unknown (Or.inr rfl), by decide, ⟨'?', by decide, by decide⟩, apart⟩
  | @localRef target h given =>
      have trimmed : trim ('#' :: target) = '#' :: target := by rw [← h, trim_trim]
      exact ⟨.localRef rfl given, trimmed, ⟨'#', List.mem_cons_self, by decide⟩, apart⟩
  | @step id h =>
      obtain ⟨x, t, ht, -⟩ := id.text_begins
      have hx : x ∈ id.text := ht ▸ List.mem_cons_self
      exact ⟨.step (namesStep_iff.mpr (StepId.read_text h.inRange)), id.trim_text,
        ⟨x, hx, (id.text_plain x hx).1⟩, apart⟩

/-- A hypothesis list is read from the texts of its entries. -/
theorem spellsHyps_joinWith {hyps : List Citation} (h : ∀ c ∈ hyps, c.IsWritten) :
    SpellsHyps (joinWith ',' (hyps.map Citation.text)) hyps := by
  cases hhyps : hyps with
  | nil => exact .none rfl
  | cons first rest =>
      rw [← hhyps]
      have hfirst : first ∈ hyps := hhyps ▸ List.mem_cons_self
      have pieces :
          Pieces ',' (joinWith ',' (hyps.map Citation.text)) (hyps.map Citation.text) := by
        refine ⟨by simp [hhyps], rfl, fun t ht => ?_⟩
        obtain ⟨c, hc, rfl⟩ := List.mem_map.mp ht
        exact (h c hc).apart
      have given : trim (joinWith ',' (hyps.map Citation.text)) ≠ [] := by
        obtain ⟨x, hx, hvisible⟩ := (h first hfirst).visible
        have hmem : x ∈ joinWith ',' (hyps.map Citation.text) := by
          rw [hhyps, joinWith, List.map_cons]
          cases rest with
          | nil => simpa using hx
          | cons second rest =>
              rw [List.map_cons, List.intercalate_cons_cons]
              simp [hx]
        exact List.ne_nil_of_mem (mem_trim hmem hvisible)
      refine .entries given pieces (List.forall₂_map_left_iff.mpr (List.forall₂_same.mpr ?_))
      intro c hc
      rw [(h c hc).trimmed]
      exact (h c hc).spells

/-- The entries of a hypothesis list that was read. -/
theorem SpellsHyps.isWritten {field : Text} {hyps : List Citation} (h : SpellsHyps field hyps) :
    ∀ c ∈ hyps, c.IsWritten := by
  cases h with
  | none => simp
  | entries given h each =>
      intro c hc
      obtain ⟨entry, hentry, hspells⟩ := exists_mem_of_forall₂ each hc
      exact hspells.isWritten (h.apart entry hentry)

/-- Every character of a hypothesis list that is written comes from the field that was read, or is
not taken for the end of a field. -/
theorem SpellsHyps.mem_joinWith {field : Text} {hyps : List Citation} (h : SpellsHyps field hyps)
    {x : Char} (hx : x ∈ joinWith ',' (hyps.map Citation.text)) :
    x ∈ field ∨ isBlank x = false ∧ x ≠ ':' := by
  rcases ProofSheet.mem_joinWith hx with rfl | ⟨t, ht, hxt⟩
  · exact Or.inr (by decide)
  obtain ⟨c, hc, rfl⟩ := List.mem_map.mp ht
  cases h with
  | none => cases hc
  | entries given h each =>
      obtain ⟨entry, hentry, hspells⟩ := exists_mem_of_forall₂ each hc
      rcases hspells.mem_text hxt with hmem | ⟨hblank, hcolon, -⟩
      · exact Or.inl (mem_of_mem_splitOn (pieces_iff.mp h ▸ hentry) hmem).1
      · exact Or.inr ⟨hblank, hcolon⟩

/-! ## Last fields -/

/-- No label begins with `#`, which stands in front of a local reference. -/
def Content.LabelPlain (c : Content) : Prop :=
  ∀ step l, c.step? = some step → step.ref = some l → l.head? ≠ some '#'

/-- A label is read from the field, and beside it there is no local reference. -/
theorem SpellsRef.eq_label {id : StepId} {field l : Text} {reference : Option Text × Option Text}
    (h : SpellsRef id field reference) (hl : reference.1 = some l) :
    readLabel field = some l ∧ reference.2 = none := by
  cases h with
  | label => exact ⟨hl, rfl⟩
  | localRef => cases hl

/-- Every character of a last field that is written comes from the field that was read. -/
theorem SpellsRef.mem_referenceText {d : Derivation} {field : Text}
    (h : SpellsRef d.id field (d.ref, d.localRef)) {x : Char} (hx : x ∈ d.referenceText) :
    x ∈ field := by
  unfold Derivation.referenceText at hx
  generalize d.ref = ref, d.localRef = localRef at h hx
  cases h with
  | label =>
      cases hl : readLabel field with
      | none =>
          rw [hl] at hx
          cases hx
      | some l =>
          rw [hl] at hx
          exact mem_of_readLabel hl hx
  | localRef h =>
      rw [h]
      exact hx

/-- A last field is read from its text, if no label is taken for a local reference. -/
theorem SpellsRef.reread {d : Derivation} {field : Text}
    (h : SpellsRef d.id field (d.ref, d.localRef))
    (plain : ∀ l, d.ref = some l → l.head? ≠ some '#') :
    SpellsRef d.id d.referenceText (d.ref, d.localRef) := by
  unfold Derivation.referenceText
  generalize d.ref = ref, d.localRef = localRef at h plain ⊢
  cases h with
  | label =>
      cases hl : readLabel field with
      | none => exact .label (by decide)
      | some l =>
          have spells : SpellsRef d.id l (readLabel l, none) := .label (plain l hl)
          rwa [readLabel_of_readLabel hl] at spells
  | localRef h given not_qed => exact .localRef rfl given not_qed

/-! ## Leads -/

/-- A lead that is written for a hypothesis has three fields, the second one empty. -/
theorem Step.fields_hypothesisLead {s : Step} (href : ':' ∉ s.ref.getD []) :
    StepFields.ofHypothesis? (s.hypothesisLead.drop 1) =
      some { step := s.id.text, hyps := [], ref := s.ref.getD [] } := by
  have hid : ':' ∉ s.id.text := fun hx => (s.id.text_plain ':' hx).2.1 rfl
  have hlead : s.hypothesisLead.drop 1 = s.id.text ++ ':' :: ([] ++ ':' :: s.ref.getD []) := rfl
  rw [hlead, StepFields.ofHypothesis?, splitOn_fields hid List.not_mem_nil href]

/-- A lead that is written for a derivation step has three fields. -/
theorem Derivation.fields_lead {d : Derivation}
    (hhyps : ':' ∉ joinWith ',' (d.hyps.map Citation.text)) (href : ':' ∉ d.referenceText) :
    StepFields.ofDerivation? d.lead =
      some
        { step := d.id.text
          hyps := joinWith ',' (d.hyps.map Citation.text)
          ref := d.referenceText } := by
  have hid : ':' ∉ d.id.text := fun hx => (d.id.text_plain ':' hx).2.1 rfl
  have hlead : d.lead =
      d.id.text ++ ':' :: (joinWith ',' (d.hyps.map Citation.text) ++ ':' :: d.referenceText) := by
    rw [Derivation.lead, List.append_assoc, List.cons_append]
  rw [hlead, StepFields.ofDerivation?, splitOn_fields hid hhyps href]

/-- The lead that is written for a derivation step begins one. -/
theorem Derivation.leadsDerivation_lead (d : Derivation) : leadsDerivation d.lead := by
  obtain ⟨x, t, hlead, hx⟩ := d.lead_begins
  have unlike : ∀ y : Char, y.isDigit = false → y ≠ 'q' → d.lead.head? ≠ some y := by
    intro y hdigit hq heq
    rw [hlead] at heq
    cases heq
    rcases hx with hx | hx
    · rw [hx] at hdigit
      cases hdigit
    · exact hq hx
  refine ⟨?_, unlike '*' rfl (by decide), unlike 'h' rfl (by decide), unlike 'H' rfl (by decide)⟩
  rw [Worksheet.beginsDerivation, Derivation.lead]
  simp

/-- The hypothesis list of a derivation step comes from its lead. -/
theorem hyps_of_derivation {t : Text} {f : StepFields} (h : StepFields.ofDerivation? t = some f) :
    f.hyps = [] ∨ f.hyps ∈ t.splitOn ':' := by
  cases derivationFields_iff.mpr h with
  | step | localRef => exact Or.inl rfl
  | hyps pieces | all pieces =>
      rw [pieces_iff.mp pieces]
      exact Or.inr (by simp)

/-- The characters of a field that comes from a lead. -/
theorem mem_of_field {t field : Text} (h : field = [] ∨ field ∈ t.splitOn ':') :
    ∀ x ∈ field, x ∈ t ∧ x ≠ ':' := by
  intro x hx
  rcases h with rfl | h
  · cases hx
  · exact mem_of_mem_splitOn h hx

section Says

variable {db : Database} {lead lead' tail tail' : Text} {words words' : List Text}
  {c c' : Content}

/-- What the fields of a derivation step that was read spell. -/
theorem Says.spells_derivation {d : Derivation} (h : Says db lead words tail (.derivation d)) :
    d.id.InRange ∧ derivationOf d.id words d.hyps (d.ref, d.localRef) = d ∧
      ∃ hyps ref : Text, SpellsHyps hyps d.hyps ∧ SpellsRef d.id ref (d.ref, d.localRef) ∧
        (∀ x ∈ hyps, x ∈ lead ∧ x ≠ ':') ∧ ∀ x ∈ ref, x ∈ lead ∧ x ≠ ':' := by
  cases h with
  | derivation hlead hf hid hhyps href =>
      exact ⟨(namesStep_iff.mpr hid).inRange, rfl, _, _, (readCitations_iff.mp hhyps).1,
        readReference_iff.mp href, mem_of_field (hyps_of_derivation hf),
        mem_of_field (ref_of_derivation hf)⟩

/-- What the fields of a hypothesis that was read spell. -/
theorem Says.spells_hypothesis {s : Step} (h : Says db lead words tail (.hypothesis s)) :
    s.id.InRange ∧ s.id ≠ .qed ∧ hypothesisOf s.id (s.ref.getD []) words = s ∧
      ∀ x ∈ s.ref.getD [], x ∈ lead ∧ x ≠ ':' := by
  cases h with
  | @hypothesis letter fields _ _ f id hletter hf hid not_qed =>
      refine ⟨(namesStep_iff.mpr hid).inRange, not_qed, ?_, ?_⟩
      · unfold hypothesisOf
        dsimp only
        cases hl : readLabel f.ref with
        | none => rfl
        | some l => rw [Option.getD_some, readLabel_of_readLabel hl]
      · intro x hx
        unfold hypothesisOf at hx
        dsimp only at hx
        cases hl : readLabel f.ref with
        | none =>
            rw [hl] at hx
            cases hx
        | some l =>
            rw [hl] at hx
            obtain ⟨hmem, hcolon⟩ := mem_of_field (ref_of_hypothesis hf) x (mem_of_readLabel hl hx)
            exact ⟨List.mem_cons_of_mem _ hmem, hcolon⟩

/-- The fields of the lead that is written for a derivation step that was read. -/
theorem Says.fields_lead {d : Derivation} (h : Says db lead words tail (.derivation d)) :
    StepFields.ofDerivation? d.lead =
      some
        { step := d.id.text
          hyps := joinWith ',' (d.hyps.map Citation.text)
          ref := d.referenceText } := by
  obtain ⟨-, -, hyps, ref, hhyps, href, hyps_chars, ref_chars⟩ := h.spells_derivation
  refine Derivation.fields_lead ?_ fun hx => (ref_chars ':' (href.mem_referenceText hx)).2 rfl
  intro hx
  rcases hhyps.mem_joinWith hx with hmem | ⟨-, hne⟩
  · exact (hyps_chars ':' hmem).2 rfl
  · exact hne rfl

/-- The fields of the lead that is written for a hypothesis that was read. -/
theorem Says.fields_hypothesisLead {s : Step} (h : Says db lead words tail (.hypothesis s)) :
    StepFields.ofHypothesis? (s.hypothesisLead.drop 1) =
      some { step := s.id.text, hyps := [], ref := s.ref.getD [] } := by
  obtain ⟨-, -, -, hchars⟩ := h.spells_hypothesis
  exact Step.fields_hypothesisLead fun hx => (hchars ':' hx).2 rfl

/-- What was read is read again from the lead that is written for it, if its label is plain. -/
theorem Says.reread (h : Says db lead words tail c) (rendered : c.lead? = some lead')
    (plain : c.LabelPlain) (tail' : Text) : Says db lead' words tail' c := by
  cases c with
  | hypothesis s =>
      cases rendered
      obtain ⟨inRange, not_qed, hsame, -⟩ := h.spells_hypothesis
      have not_local : (s.ref.getD []).head? ≠ some '#' := by
        cases hl : s.ref with
        | none => simp
        | some l => exact plain s l rfl hl
      have said : Says db ('h' :: s.hypothesisLead.drop 1) words tail'
          (.hypothesis (hypothesisOf s.id (s.ref.getD []) words)) :=
        .hypothesis (Or.inl rfl) h.fields_hypothesisLead (StepId.read_text inRange) not_qed rfl
          not_local
      rwa [hsame] at said
  | derivation d =>
      cases rendered
      obtain ⟨inRange, hsame, hyps, ref, hhyps, href, -, -⟩ := h.spells_derivation
      have hread : readCitations d.cited (joinWith ',' (d.hyps.map Citation.text)) = .ok d.hyps :=
        readCitations_iff.mpr ⟨spellsHyps_joinWith hhyps.isWritten, fun id => mem_cited.mpr⟩
      have hreference : readReference d.id d.referenceText = .ok (d.ref, d.localRef) :=
        readReference_iff.mpr (href.reread fun l hl => plain d.toStep l rfl hl)
      have said : Says db d.lead words tail'
          (.derivation (derivationOf d.id words d.hyps (d.ref, d.localRef))) :=
        .derivation d.leadsDerivation_lead h.fields_lead (StepId.read_text inRange) hread hreference
      rwa [hsame] at said
  | _ => cases rendered

/-- The fields of a step that are in its lead: its name, the entries of its hypothesis list, its
label, and the target of its local reference. -/
def Content.leadFields? : Content → Option (StepId × List Citation × Option Text × Option Text)
  | .hypothesis s => some (s.id, [], s.ref, none)
  | .derivation d => some (d.id, d.hyps, d.ref, d.localRef)
  | _ => none

/-- What was read with another label is not read again from the lead that is written for it. -/
theorem Says.labelPlain_of_reread (h : Says db lead words tail c)
    (rendered : c.lead? = some lead') (reread : Says db lead' words' tail' c')
    (same : c'.leadFields? = c.leadFields?) : c.LabelPlain := by
  intro step l hstep hl hhash
  cases c with
  | hypothesis s =>
      obtain rfl : s = step := Option.some.inj hstep
      obtain rfl : s.hypothesisLead = lead' := Option.some.inj rendered
      have hfields := h.fields_hypothesisLead
      have hbegins : s.hypothesisLead.head? = some 'h' := rfl
      rw [hl, Option.getD_some] at hfields
      generalize s.hypothesisLead = lead' at reread hfields hbegins
      cases reread with
      | hypothesis hletter hf hid not_qed no_hyps not_local =>
          obtain rfl := Option.some.inj (hf.symm.trans hfields)
          exact not_local hhash
      | derivation begins => exact begins.2.2.1 hbegins
      | _ => cases same
  | derivation d =>
      obtain rfl : d.toStep = step := Option.some.inj hstep
      obtain rfl : d.lead = lead' := Option.some.inj rendered
      obtain ⟨-, -, -, ref, -, href, -⟩ := h.spells_derivation
      have hlocal : d.localRef = none := (href.eq_label hl).2
      have hreference : d.referenceText = l := by
        unfold Derivation.referenceText
        rw [hlocal, hl]
      have hfields := h.fields_lead
      obtain ⟨x, t, hbegins, hx⟩ := d.lead_begins
      rw [hreference] at hfields
      generalize d.lead = lead' at reread hfields hbegins
      cases reread with
      | hypothesis hletter =>
          rw [(List.cons.inj hbegins).1] at hletter
          rcases hletter with rfl | rfl
          · exact absurd hx (by decide)
          · exact absurd hx (by decide)
      | derivation begins hf hid hhyps href =>
          obtain rfl := Option.some.inj (hf.symm.trans hfields)
          cases readReference_iff.mp href with
          | label not_hash => exact not_hash hhash
          | localRef =>
              have hsame := congrArg (Option.map (·.2.2.1)) same
              rw [Content.leadFields?, Content.leadFields?, Option.map_some, Option.map_some,
                hl] at hsame
              cases hsame
      | _ => cases same
  | _ => cases rendered

/-- The lead that is written for a step is one token, if the lead that was read is. -/
theorem Says.lead_solid (h : Says db lead words tail c) (rendered : c.lead? = some lead')
    (solid : ∀ x ∈ lead, isSeparator x = false) :
    lead' ≠ [] ∧ ∀ x ∈ lead', isSeparator x = false := by
  have name_solid : ∀ id : StepId, ∀ x ∈ id.text, isSeparator x = false := fun id =>
    IsSolid.not_separator fun x hx => (id.text_plain x hx).1
  cases c with
  | hypothesis s =>
      cases rendered
      obtain ⟨-, -, -, hchars⟩ := h.spells_hypothesis
      refine ⟨List.cons_ne_nil _ _, fun x hx => ?_⟩
      rw [Step.hypothesisLead, List.mem_append, List.mem_cons, List.mem_cons, List.mem_cons] at hx
      rcases hx with (rfl | hid) | rfl | rfl | hlabel
      · decide
      · exact name_solid s.id x hid
      · decide
      · decide
      · exact solid x (hchars x hlabel).1
  | derivation d =>
      cases rendered
      obtain ⟨-, -, hyps, ref, hhyps, href, hyps_chars, ref_chars⟩ := h.spells_derivation
      obtain ⟨y, t, hbegins, -⟩ := d.lead_begins
      refine ⟨hbegins ▸ List.cons_ne_nil _ _, fun x hx => ?_⟩
      rw [Derivation.lead, List.mem_append, List.mem_append, List.mem_cons, List.mem_cons] at hx
      rcases hx with (hid | rfl | hentries) | rfl | hlast
      · exact name_solid d.id x hid
      · decide
      · rcases hhyps.mem_joinWith hentries with hmem | ⟨hblank, -⟩
        · exact solid x (hyps_chars x hmem).1
        · rw [Bool.eq_false_iff]
          intro hsep
          rw [isBlank_of_isSeparator hsep] at hblank
          cases hblank
      · decide
      · exact solid x (ref_chars x (href.mem_referenceText hlast)).1
  | _ => cases rendered

end Says

/-! ## Blocks -/

/-- The block with another lead. -/
def Block.withLead (b : Block) (lead : Text) : Block :=
  { b with head := { b.head with text := lead } }

namespace Worksheet

variable {ws ws' : Worksheet} {db : Database} {st : Settings} {b : Block} {last : Bool}

/-- The lead that is written for a step that was read is one token. In the place of the lead that
was read it is read as the same name, entries, label and target exactly if the label does not begin
with `#`, and no label does if the lead that was read has no blanks. -/
theorem rereads_iff {c : Content} {lead : Text} (read : ws.readBlock db st b last = .ok ws')
    (said : ws'.contents = ws.contents ++ [c]) (rendered : c.lead? = some lead) :
    ((∀ x ∈ b.head.text, isSeparator x = false) →
      lead ≠ [] ∧ ∀ x ∈ lead, isSeparator x = false) ∧
    ((∃ ws'' c', ws.readBlock db st (b.withLead lead) last = .ok ws'' ∧
        ws''.contents = ws.contents ++ [c'] ∧ c'.leadFields? = c.leadFields?) ↔
      c.LabelPlain) ∧
    (IsSolid b.head.text → c.LabelPlain) := by
  obtain ⟨c₀, hspoken, admits, extended⟩ := readBlock_ok read
  obtain rfl : c₀ = c := by
    have hcontents := extended.contents.symm.trans said
    exact List.singleton_inj.mp (List.append_cancel_left hcontents)
  refine ⟨hspoken.lead_solid rendered, ⟨?_, fun plain => ?_⟩, ?_⟩
  · rintro ⟨ws'', c', reread, said', same⟩
    obtain ⟨c₁, hspoken', -, extended'⟩ := readBlock_ok reread
    obtain rfl : c₁ = c' := by
      have hcontents := extended'.contents.symm.trans said'
      exact List.singleton_inj.mp (List.append_cancel_left hcontents)
    exact hspoken.labelPlain_of_reread rendered hspoken' same
  · have hspoken' := hspoken.reread rendered plain b.tail
    obtain ⟨ws'', reread, extended'⟩ :=
      exists_readBlock (b := b.withLead lead) st last hspoken' admits
    exact ⟨ws'', c₀, reread, extended'.contents, rfl⟩
  · intro solid step l hstep hl
    exact (hspoken.isLabel solid hstep hl).not_local

/-- A step with a lead and a formula. -/
def stepBlock (lead : Text) : Block where
  head := { text := lead, gap := [' '], place := {} }
  body := [{ text := ['|', '-'], gap := ['\n'], place := {} }]

/-- Leading zeros, an empty entry and a blank that separates nothing are gone when the lead is
written. -/
theorem rereads_iff_stepBlock :
    ∃ ws' c, ({} : Worksheet).readBlock .empty {} (stepBlock "02:,?:\u00a0ax".toList) false =
        .ok ws' ∧
      ws'.contents = ({} : Worksheet).contents ++ [c] ∧ c.lead? = some "2:?,?:ax".toList ∧
      c.LabelPlain ∧
      ∃ ws'' c',
        ({} : Worksheet).readBlock .empty {}
          ((stepBlock "02:,?:\u00a0ax".toList).withLead "2:?,?:ax".toList) false = .ok ws'' ∧
        ws''.contents = ({} : Worksheet).contents ++ [c'] ∧ c'.leadFields? = c.leadFields? := by
  let d : Derivation :=
    { id := .number 2, ref := some "ax".toList, formula := some ⟨[['|', '-']]⟩,
      hyps := [.unknown, .unknown] }
  have plain : (Content.derivation d).LabelPlain := by
    intro step l hstep hl
    cases hstep
    cases hl
    decide
  have rendered : (Content.derivation d).lead? = some "2:?,?:ax".toList := by decide
  refine ⟨_, .derivation d, rfl, rfl, rendered, plain, ?_⟩
  exact (rereads_iff rfl rfl rendered).2.1.mpr plain

/-- A label that begins with `#` is written as a local reference. -/
theorem hashLabel_rereads_differently :
    ∃ ws' ws'' d d',
      ({} : Worksheet).readBlock .empty {} (stepBlock "2::\u00a0#1".toList) false = .ok ws' ∧
      ws'.contents = [.derivation d] ∧ d.ref = some "#1".toList ∧ d.localRef = none ∧
      ({} : Worksheet).readBlock .empty {} ((stepBlock "2::\u00a0#1".toList).withLead d.lead)
        false = .ok ws'' ∧
      ws''.contents = [.derivation d'] ∧ d'.ref = none ∧ d'.localRef = some "1".toList :=
  ⟨_, _, _, _, rfl, rfl, rfl, rfl, rfl, rfl, rfl, rfl⟩

end Worksheet

end ProofSheet
