import ProofSheet.Proofs.Splicing

set_option autoImplicit false

/-! # The output of a loaded worksheet

A text that consists of chunks is a worksheet if the chunks spell statements in the right order
(`isWorksheet_chunks`). The statements of a worksheet that loads cleanly are such chunks: where a
lead is written anew it is one token again, and all other texts are cut out of the source
(`Worksheet.laidOut_load`). Which of them are the generated proof and the footer can be told from
their leads (`Statement.Told`). When chunks are loaded again, what comes out is what resolving keeps
of what they spell (`Worksheet.load_chunks`).
-/

namespace ProofSheet

/-! ## Chunks -/

/-- Some chunks in front of others are laid out with them if all of them end a line. -/
theorem laidOut_append {cs ds : List Chunk} (hne : ds ≠ []) :
    LaidOut (cs ++ ds) ↔ (∀ c ∈ cs, c.IsLaid ∧ c.EndsLine) ∧ LaidOut ds := by
  induction cs with
  | nil => simp
  | cons c rest ih =>
      have hrest : rest ++ ds ≠ [] := by simp [hne]
      rw [List.cons_append, LaidOut, ih, List.forall_mem_cons]
      constructor
      · rintro ⟨laid, ends, hall, hds⟩
        exact ⟨⟨⟨laid, ends hrest⟩, hall⟩, hds⟩
      · rintro ⟨⟨⟨laid, ends⟩, hall⟩, hds⟩
        exact ⟨laid, fun _ => ends, hall, hds⟩

/-- The chunk spells a statement. -/
def Chunk.Spells (db : Database) (c : Chunk) (x : Content) : Prop :=
  ProofSheet.Spells db c.lead (wordsOf c.tail) c.tail x

theorem Chunk.Spells.said {db : Database} {c : Chunk} {x : Content} (h : c.Spells db x) :
    Says db c.lead (wordsOf c.tail) c.tail x := spells_iff_says.mp h

theorem forall₂_blocksFrom {db : Database} {p : Place} {cs : List Chunk} {xs : List Content} :
    List.Forall₂ (fun b => Spells db b.head.text b.words b.tail) (blocksFrom p cs) xs ↔
      List.Forall₂ (Chunk.Spells db) cs xs := by
  induction cs generalizing p xs with
  | nil => simp [blocksFrom]
  | cons c rest ih =>
      rw [blocksFrom, List.forall₂_cons_left_iff, List.forall₂_cons_left_iff]
      simp only [ih, Chunk.block_lead, Chunk.block_words, Chunk.block_tail, Chunk.Spells]

/-- The chunks spell statements that are arranged. -/
def SpellWorksheet (db : Database) (cs : List Chunk) : Prop :=
  ∃ xs, List.Forall₂ (Chunk.Spells db) cs xs ∧ Arranged db xs

/-- A text of chunks is a worksheet if they spell one. -/
theorem isWorksheet_chunks {db : Database} {cs : List Chunk} (hlaid : LaidOut cs) :
    IsWorksheet db (cs.flatMap Chunk.text) ↔ SpellWorksheet db cs := by
  have hgroup := group_tokens_chunks hlaid
  rw [IsWorksheet, blocksOf, hgroup]
  simp only [forall₂_blocksFrom, true_and, SpellWorksheet]

/-! ## Leads -/

theorem mem_of_mem_trim {c : Char} {t : Text} (hc : c ∈ trim t) : c ∈ t := by
  have hstart := List.mem_reverse.mp ((List.dropWhile_sublist _).subset (List.mem_reverse.mp hc))
  exact (List.dropWhile_sublist _).subset hstart

theorem mem_of_readLabel {field l : Text} (h : readLabel field = some l) {c : Char} (hc : c ∈ l) :
    c ∈ field := by
  unfold readLabel at h
  dsimp only at h
  split at h
  · cases h
  · rw [← Option.some.inj h] at hc
    exact mem_of_mem_trim hc

/-- The label of a step is a part of its lead. -/
theorem Says.mem_lead_of_ref {db : Database} {lead tail : Text} {words : List Text} {c : Content}
    {step : Step} {l : Text} (h : Says db lead words tail c) (hstep : c.step? = some step)
    (hl : step.ref = some l) {x : Char} (hx : x ∈ l) : x ∈ lead := by
  have mem_of_field : ∀ {t field : Text}, (field = [] ∨ field ∈ t.splitOn ':') → x ∈ field →
      x ∈ t := by
    intro t field hfield hmem
    rcases hfield with rfl | hfield
    · cases hmem
    · exact (mem_of_mem_splitOn hfield hmem).1
  cases h with
  | hypothesis hletter hf =>
      cases hstep
      have hfield := mem_of_readLabel hl hx
      exact List.mem_cons_of_mem _ (mem_of_field (ref_of_hypothesis hf) hfield)
  | @derivation lead tail words f id known hyps reference hlead hf hid hhyps href =>
      cases hstep
      obtain ⟨ref, localRef⟩ := reference
      cases hl
      have hfield := mem_of_readLabel (readReference_label href).1 hx
      exact mem_of_field (ref_of_derivation hf) hfield
  | _ => cases hstep

/-- The lead that is written for a derivation step begins with the name of the step. -/
theorem Derivation.lead_begins (d : Derivation) :
    ∃ x t, d.lead = x :: t ∧ (x.isDigit = true ∨ x = 'q') := by
  obtain ⟨x, t, htext, hx⟩ := d.id.text_begins
  exact ⟨x, _, by rw [Derivation.lead, htext, List.cons_append, List.cons_append], hx⟩

/-- The lead that is written for a derivation step is one token, if its label is. -/
theorem Derivation.lead_solid {d : Derivation} (hlocal : d.localRef = none)
    (hhyps : ∀ entry ∈ d.hyps, entry = .unknown ∨ ∃ id, entry = .step id)
    (href : ∀ l, d.ref = some l → ∀ x ∈ l, isSeparator x = false) :
    ∀ x ∈ d.lead, isSeparator x = false := by
  have name_solid : ∀ id : StepId, ∀ x ∈ id.text, isSeparator x = false := by
    intro id
    exact IsSolid.not_separator fun c hc => (id.text_plain c hc).1
  intro x hx
  rw [Derivation.lead_eq hlocal, List.mem_append, List.mem_cons, List.mem_append,
    List.mem_cons] at hx
  rcases hx with hid | rfl | hentries | rfl | hlabel
  · exact name_solid d.id x hid
  · rfl
  · rcases mem_joinWith hentries with rfl | ⟨t, ht, hxt⟩
    · rfl
    · obtain ⟨entry, hentry, rfl⟩ := List.mem_map.mp ht
      rcases hhyps entry hentry with rfl | ⟨id, rfl⟩
      · rw [List.mem_singleton.mp hxt]
        rfl
      · exact name_solid id x hxt
  · rfl
  · cases hl : d.ref with
    | none =>
        rw [hl] at hlabel
        cases hlabel
    | some l =>
        rw [hl] at hlabel
        exact href l hl x hlabel

/-- A statement with the lead of a generated proof is one. -/
theorem Says.isProof_iff {db : Database} {lead tail : Text} {words : List Text} {c : Content}
    (h : Says db lead words tail c) : c.isProof = true ↔ lead = Keyword.proof := by
  cases h with
  | proof => simp [Content.isProof]
  | hypothesis hletter =>
      rcases hletter with rfl | rfl
      · simp [Content.isProof, Keyword.proof]
      · simp [Content.isProof, Keyword.proof]
  | derivation hlead =>
      have unlike : lead ≠ Keyword.proof := by
        rintro rfl
        exact absurd hlead.1 (by decide)
      simp [Content.isProof, unlike]
  | _ => simp [Content.isProof, Keyword.header, Keyword.footer, Keyword.distinctVars,
      Keyword.proof]

/-! ## Statements -/

namespace Statement

variable {db : Database} {s s' : Statement}

/-- The text of the statement is laid as the text of a statement should be, it says what the
statement says unless this is a step, and the lead tells the generated proof and the footer. -/
structure Told (db : Database) (s : Statement) : Prop where
  laid : s.chunk.IsLaid
  said : s.isStep = false → Says db s.lead (wordsOf s.tail) s.tail s.content
  proof : s.isProof = true ↔ s.lead = Keyword.proof
  footer : s.isFooter = true ↔ s.lead = Keyword.footer

/-- A statement that is kept, with a resolved hypothesis list, is told by its lead. -/
theorem told_of_kept {earlier : List StepId} (laid : s.chunk.IsLaid)
    (said : Says db s.lead (wordsOf s.tail) s.tail s.content)
    (hkept : s' = s ∨ ∃ d hyps, s.content = .derivation d ∧ d.localRef = none ∧
      s' = s.citing d hyps)
    (hcites : CitesOnly earlier s'.content) : s'.Told db := by
  have told : s.Told db := ⟨laid, fun _ => said, said.isProof_iff, said.isFooter_iff⟩
  rcases hkept with rfl | ⟨d, hyps, hd, hlocal, rfl⟩
  · exact told
  have hcontent := Statement.citing_content hd hyps
  by_cases hsame : hyps = d.hyps
  · rw [Statement.citing, if_pos hsame]
    exact told
  -- the lead is written anew
  have hnew : s.citing d hyps =
      { s with content := .derivation (d.citing hyps), lead := (d.citing hyps).lead } := by
    rw [Statement.citing, if_neg hsame]
    rfl
  have label_solid : ∀ l, (d.citing hyps).ref = some l → ∀ x ∈ l, isSeparator x = false := by
    intro l hl x hx
    exact laid.solid x (said.mem_lead_of_ref (by rw [hd]; rfl) hl hx)
  have entries : ∀ entry ∈ (d.citing hyps).hyps, entry = .unknown ∨ ∃ id, entry = .step id := by
    intro entry hentry
    rcases (hcites _ hcontent).2 entry hentry with hunknown | ⟨id, -, hstep⟩
    · exact Or.inl hunknown
    · exact Or.inr ⟨id, hstep⟩
  -- a written lead is one token that begins no other statement, as its name and label are solid
  have solid := Derivation.lead_solid (d := d.citing hyps) hlocal entries label_solid
  obtain ⟨x, t, hlead, hx⟩ := (d.citing hyps).lead_begins
  have begins : ∀ u, (d.citing hyps).lead ≠ '$' :: u := by
    intro u heq
    rw [hlead, List.cons.injEq] at heq
    rw [heq.1] at hx
    exact absurd hx (by decide)
  rw [hnew]
  refine ⟨⟨?_, solid, laid.apart, laid.indented⟩, fun hstep => (by cases hstep), ?_, ?_⟩
  · show (d.citing hyps).lead ≠ []
    rw [hlead]
    exact List.cons_ne_nil _ _
  · exact iff_of_false Bool.false_ne_true (begins _)
  · exact iff_of_false Bool.false_ne_true (begins _)

theorem Relaid.chunk (h : s.Relaid s') : s'.chunk = s.chunk := by
  rw [Statement.chunk, Statement.chunk, h.lead, h.tail]

/-- A level makes no difference to what the lead tells. -/
theorem Relaid.told (h : s.Relaid s') (told : s.Told db) : s'.Told db := by
  obtain ⟨level, hcontent⟩ := h.content
  have hproof : s'.isProof = s.isProof := by
    rw [isProof_eq, isProof_eq, hcontent]
    cases s.content <;> rfl
  have hfooter : s'.isFooter = s.isFooter := by
    rw [isFooter_eq, isFooter_eq, hcontent]
    cases s.content <;> rfl
  refine ⟨?_, fun hstep => ?_, ?_, ?_⟩
  · rw [h.chunk]
    exact told.laid
  · have hsame : s'.content = s.content := by
      rw [isStep_eq, hcontent] at hstep
      rw [hcontent]
      cases hc : s.content <;> first | rfl | (rw [hc] at hstep; cases hstep)
    have said := told.said (by rw [isStep_eq, ← hsame, ← isStep_eq]; exact hstep)
    rw [h.lead, h.tail, hsame]
    exact said
  · rw [hproof, h.lead]
    exact told.proof
  · rw [hfooter, h.lead]
    exact told.footer

end Statement

/-- Statements that are kept are laid out if all were. -/
theorem laidOut_passes {r r' : Resolution} {ss kept : List Statement}
    (h : Resolution.Passes r ss kept r') (laidOut : LaidOut (ss.map Statement.chunk))
    (laid : ∀ s ∈ kept, s.chunk.IsLaid) : LaidOut (kept.map Statement.chunk) := by
  have keep : ∀ {s s' : Statement} {r r' : Resolution} {rest kept : List Statement},
      Resolution.Passes r rest kept r' → s'.tail = s.tail →
        LaidOut ((s :: rest).map Statement.chunk) → s'.chunk.IsLaid →
          LaidOut (kept.map Statement.chunk) → LaidOut ((s' :: kept).map Statement.chunk) := by
    intro s s' r r' rest kept next htail laidOut laid hkept
    refine ⟨laid, fun hne => ?_, hkept⟩
    -- what is kept of the rest is not empty, so the rest is not empty
    have hrest : rest.map Statement.chunk ≠ [] := by
      rintro hnil
      rw [List.map_eq_nil_iff.mp hnil] at next
      cases next
      exact hne rfl
    have hends : s.tail.getLast? = some '\n' := laidOut.2.1 hrest
    rw [Chunk.EndsLine, ← hends, ← htail]
    rfl
  induction h with
  | done => trivial
  | other hs next ih | hypothesis hs next ih =>
      obtain ⟨hfirst, hrest⟩ := List.forall_mem_cons.mp laid
      exact keep next rfl laidOut hfirst (ih laidOut.2.2 hrest)
  | derivation hs hlocal resolved next ih =>
      obtain ⟨hfirst, hrest⟩ := List.forall_mem_cons.mp laid
      refine keep next ?_ laidOut hfirst (ih laidOut.2.2 hrest)
      unfold Statement.citing
      split <;> rfl
  | localRef hs hlocal hfound next ih => exact ih laidOut.2.2 laid

namespace Worksheet

variable {ws ws' : Worksheet} {db : Database} {st : Settings}

@[simp] theorem output_respan (ws : Worksheet) : ws.respan.output = ws.output := by
  have htexts := map_respanFrom Statement.text (fun _ _ _ => rfl) 0 0 ws.statements
  rw [output, output, respan, List.flatMap_def, htexts, ← List.flatMap_def]

@[simp] theorem output_measureLevels (ws : Worksheet) : ws.measureLevels.output = ws.output := by
  rw [output, output, measureLevels, List.flatMap_map]
  rfl

/-- Statements that are read from the blocks of chunks have the chunks as their texts. -/
theorem chunks_of_reads {p : Place} {cs : List Chunk} {new : List Statement}
    (h : List.Forall₂ (Statement.ReadFrom db) (blocksFrom p cs) new) :
    new.map Statement.chunk = cs ∧
      ∀ s ∈ new, Says db s.lead (wordsOf s.tail) s.tail s.content := by
  induction cs generalizing p new with
  | nil =>
      cases h
      exact ⟨rfl, fun s hs => (by cases hs)⟩
  | cons c rest ih =>
      rw [blocksFrom, List.forall₂_cons_left_iff] at h
      obtain ⟨s, new, hs, hrest, rfl⟩ := h
      obtain ⟨hchunks, hsaid⟩ := ih hrest
      have hlead : s.lead = c.lead := hs.lead
      have htail : s.tail = c.tail := hs.tail.trans (Chunk.block_tail _ _)
      have said := hs.said
      rw [Chunk.block_lead, Chunk.block_words, Chunk.block_tail, ← hlead, ← htail] at said
      refine ⟨?_, List.forall_mem_cons.mpr ⟨said, hsaid⟩⟩
      rw [List.map_cons, hchunks, Statement.chunk, hlead, htail]

/-- The texts of the statements that are read are laid out one after the other. -/
theorem laidOut_readText {text : Text} (hnil : ws.statements = [])
    (h : ws.readText db st text = .ok ws') :
    LaidOut (ws'.statements.map Statement.chunk) ∧
      ∀ s ∈ ws'.statements, Says db s.lead (wordsOf s.tail) s.tail s.content := by
  obtain ⟨t, ts, htokens, hstarts, -⟩ := starts_of_readText h
  obtain ⟨cs, hlaid, -, hblocks⟩ := exists_chunks htokens hstarts
  obtain ⟨-, new, hnew, hall⟩ := readText_reads h
  rw [hnil, List.nil_append] at hnew
  rw [hblocks] at hall
  obtain ⟨hchunks, hsaid⟩ := chunks_of_reads hall
  rw [hnew, hchunks]
  exact ⟨hlaid, hsaid⟩

/-- A statement that is kept of a text is one that was read, perhaps with other entries in its
hypothesis list, none of which is a local reference. -/
theorem kept_of_passes {text : Text} {caret : Option Nat} {r : Resolution} {kept : List Statement}
    (hread : readText db st { cursor := { caret := caret } } text = .ok ws)
    (passes : Resolution.Passes {} ws.statements kept r) {s' : Statement} (hs' : s' ∈ kept) :
    ∃ s earlier, s.chunk.IsLaid ∧ Says db s.lead (wordsOf s.tail) s.tail s.content ∧
      (s' = s ∨ ∃ d hyps, s.content = .derivation d ∧ d.localRef = none ∧
        s' = s.citing d hyps) ∧
      CitesOnly earlier s'.content := by
  obtain ⟨hlaid, hsaid⟩ := laidOut_readText rfl hread
  have hcites : Along CitesOnly [] (kept.map Statement.content) :=
    Resolution.sound_start.passes passes (citesEarlier_readText rfl hread)
  obtain ⟨s, hs, -, hkept⟩ := passes.mem hs'
  have hcontent : s'.content ∈ kept.map Statement.content := List.mem_map_of_mem hs'
  obtain ⟨before, after, hsplit⟩ := List.append_of_mem hcontent
  rw [hsplit, along_append, along_cons] at hcites
  exact ⟨s, _, hlaid.isLaid _ (List.mem_map_of_mem hs), hsaid s hs, hkept, hcites.2.1⟩

/-- The leads of the statements that are kept of a text tell which are the generated proof and the
footer. -/
theorem told_of_passes {text : Text} {caret : Option Nat} {r : Resolution} {kept : List Statement}
    (hread : readText db st { cursor := { caret := caret } } text = .ok ws)
    (passes : Resolution.Passes {} ws.statements kept r) : ∀ s ∈ kept, s.Told db := by
  intro s' hs'
  obtain ⟨s, earlier, laid, said, hkept, hcites⟩ := kept_of_passes hread passes hs'
  exact Statement.told_of_kept laid said hkept hcites

/-- The texts of the statements of a worksheet that loads cleanly are laid out one after the other,
and the leads tell which are the generated proof and the footer. -/
theorem laidOut_load {request : Request} {text : Text}
    (clean : (load db st request text).broken = false) :
    LaidOut ((load db st request text).statements.map Statement.chunk) ∧
      ∀ s ∈ (load db st request text).statements, s.Told db := by
  obtain ⟨read, kept, r, hread, passes, relaid⟩ := passes_load clean
  obtain ⟨hlaid, -⟩ := laidOut_readText rfl hread
  have told := told_of_passes hread passes
  have hkept := laidOut_passes passes hlaid fun s hs => (told s hs).laid
  refine ⟨?_, fun s' hs' => ?_⟩
  · have hchunks : (load db st request text).statements.map Statement.chunk =
        kept.map Statement.chunk :=
      map_eq_of_forall₂ relaid fun s s' h => h.chunk
    rw [hchunks]
    exact hkept
  · obtain ⟨s, hs, hrelaid⟩ := exists_mem_of_forall₂ relaid hs'
    exact hrelaid.told (told s hs)

/-- A text of chunks loads cleanly exactly if the chunks spell a worksheet. -/
theorem clean_chunks_iff {cs : List Chunk} (hlaid : LaidOut cs) (st : Settings) :
    (load db st {} (cs.flatMap Chunk.text)).broken = false ↔ SpellWorksheet db cs := by
  rw [← isWorksheet_chunks hlaid]
  exact ⟨isWorksheet_of_clean, fun h => clean_of_isWorksheet h st none⟩

/-- A text of chunks that spell a worksheet is read as statements that have the chunks as their
texts and say what the chunks spell. -/
theorem exists_readText_chunks {cs : List Chunk} {xs : List Content} (hlaid : LaidOut cs)
    (spelled : List.Forall₂ (Chunk.Spells db) cs xs) (arranged : Arranged db xs) (st : Settings) :
    ∃ read, readText db st {} (cs.flatMap Chunk.text) = .ok read ∧
      read.statements.map Statement.chunk = cs ∧ read.contents = xs := by
  have hgroup := group_tokens_chunks hlaid
  have hblocks : blocksOf (cs.flatMap Chunk.text) = blocksFrom {} cs := by rw [blocksOf, hgroup]
  have spelled' : List.Forall₂ (fun b => Spells db b.head.text b.words b.tail)
      (blocksOf (cs.flatMap Chunk.text)) xs := by
    rw [hblocks]
    exact forall₂_blocksFrom.mpr spelled
  obtain ⟨read, resolved, c, hread, hcontents, -⟩ :=
    exists_load (by rw [hgroup]) spelled' arranged st none
  obtain ⟨-, new, hnew, hall⟩ := readText_reads hread
  rw [hblocks] at hall
  obtain ⟨hchunks, -⟩ := chunks_of_reads hall
  refine ⟨read, hread, ?_, hcontents⟩
  rw [hnew, ← hchunks]
  rfl

/-- What a text of chunks is loaded as: what the pass keeps of statements that have the chunks as
their texts and say what the chunks spell. -/
theorem load_chunks {cs : List Chunk} {xs : List Content} (hlaid : LaidOut cs)
    (spelled : List.Forall₂ (Chunk.Spells db) cs xs) (arranged : Arranged db xs) (st : Settings) :
    ∃ ss kept r, ss.map Statement.chunk = cs ∧ ss.map Statement.content = xs ∧
      Resolution.Passes {} ss kept r ∧
      List.Forall₂ Statement.Relaid kept
        (load db st {} (cs.flatMap Chunk.text)).statements := by
  have clean := (clean_chunks_iff hlaid st).mpr ⟨xs, spelled, arranged⟩
  obtain ⟨read, hread, hchunks, hcontents⟩ := exists_readText_chunks hlaid spelled arranged st
  obtain ⟨read', kept, r, hread', passes, relaid⟩ := passes_load clean
  obtain rfl : read = read' := Except.ok.inj (hread.symm.trans hread')
  exact ⟨read.statements, kept, r, hchunks, hcontents, passes, relaid⟩

end Worksheet

end ProofSheet
