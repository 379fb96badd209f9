import ProofSheet.Proofs.Legible
import ProofSheet.Proofs.Levels

set_option autoImplicit false

/-! # Worksheets that agree with their texts

A worksheet agrees with its text if all its statements are legible, stand where they should and
have the levels that they should have, if what a reader checks of a worksheet as a whole is in
order, and if the next number for a step is free (`Worksheet.Agrees`). A worksheet that loads
cleanly from a text without odd blanks agrees with its text (`Worksheet.agrees_load`), and it
keeps agreeing as long as the edits that follow write nothing that could not be read back
(`Worksheet.agrees_afterCalls`).
-/

namespace ProofSheet

/-! ## Places -/

/-- The text of a statement and where it stands. -/
def Statement.spot (s : Statement) : Text × Nat × Position := (s.text, s.start, s.position)

/-- Whether statements stand where they should is a matter of their texts and places. -/
theorem respanFrom_of_spots {ss ts : List Statement} {offset line : Nat}
    (h : ts.map Statement.spot = ss.map Statement.spot) (placed : respanFrom offset line ss = ss) :
    respanFrom offset line ts = ts := by
  induction ss generalizing ts offset line with
  | nil => rw [List.map_eq_nil_iff.mp h, respanFrom]
  | cons s ss ih =>
      cases ts with
      | nil => cases h
      | cons t ts =>
          rw [List.map_cons, List.map_cons, List.cons.injEq] at h
          obtain ⟨hspot, hrest⟩ := h
          rw [respanFrom, List.cons.injEq] at placed
          obtain ⟨hs, hss⟩ := placed
          have htext : t.text = s.text := congrArg Prod.fst hspot
          have hstart : t.start = offset := by
            have := congrArg (fun x => x.2.1) hspot
            rw [← hs] at this
            exact this
          have hposition : t.position = ⟨line, 0⟩ := by
            have := congrArg (fun x => x.2.2) hspot
            rw [← hs] at this
            exact this
          rw [respanFrom, htext, ih hrest hss]
          obtain ⟨id, content, lead, tail, start, position⟩ := t
          cases hstart
          cases hposition
          rfl

/-- Statements that have been laid out stand where they should. -/
theorem respanFrom_respanFrom (offset line : Nat) (ss : List Statement) :
    respanFrom offset line (respanFrom offset line ss) = respanFrom offset line ss :=
  respanFrom_congr (map_unplaced_respanFrom offset line ss) offset line

/-- Legible statements stay legible wherever they stand. -/
theorem legible_respanFrom {db : Database} {ss : List Statement} {offset line : Nat}
    (h : ∀ s ∈ ss, s.Legible db) : ∀ s ∈ respanFrom offset line ss, s.Legible db := by
  induction ss generalizing offset line with
  | nil => exact fun s hs => (by cases hs)
  | cons s rest ih =>
      obtain ⟨hs, hrest⟩ := List.forall_mem_cons.mp h
      rw [respanFrom]
      refine List.forall_mem_cons.mpr ⟨?_, ih hrest⟩
      exact ⟨⟨hs.laid, hs.ends, hs.blanks, hs.said⟩, hs.writable⟩

/-! ## Edits that can be read back -/

/-- What the edit writes can be read back, and there is room for the number of a step that it
inserts. -/
def Edit.IsPlain (ws : Worksheet) : Edit → Prop
  | .setRef _ label => IsLabel label
  | .setFormula _ formula => formula.IsPlain
  | .setStatus _ _ _ _ => True
  | .insertStep _ _ ref formula =>
    (∀ label, ref = some label → IsLabel label) ∧ formula.IsPlain ∧
      ws.greatestStep < StepId.maxNumber
  | .placeCursor _ _ => True
  | .insertDistinctVars _ => False
  | .insertProof _ => False

instance (ws : Worksheet) : (e : Edit) → Decidable (e.IsPlain ws)
  | .setRef _ label => inferInstanceAs (Decidable (IsLabel label))
  | .setFormula _ formula => inferInstanceAs (Decidable formula.IsPlain)
  | .setStatus _ _ _ _ => inferInstanceAs (Decidable True)
  | .insertStep _ _ ref formula =>
    inferInstanceAs (Decidable ((∀ label ∈ ref, IsLabel label) ∧ formula.IsPlain ∧
      ws.greatestStep < StepId.maxNumber))
  | .placeCursor _ _ => inferInstanceAs (Decidable True)
  | .insertDistinctVars _ => inferInstanceAs (Decidable False)
  | .insertProof _ => inferInstanceAs (Decidable False)

namespace Worksheet

/-- There are as many hypotheses as the theorem has, if it is known. -/
def Counted (db : Database) (ws : Worksheet) : Prop :=
  ∀ label ∈ ws.contents.filterMap Content.theorem?, ∀ info, db.find? label = some info →
    info.hypotheses.length = ws.contents.countP Content.isHypothesis

/-- What the statements say is what their text says, and reading the text again finds nothing
wrong. -/
structure Agrees (db : Database) (ws : Worksheet) : Prop where
  legible : ∀ s ∈ ws.statements, s.Legible db
  placed : respanFrom 0 0 ws.statements = ws.statements
  levelled : ws.Levelled
  counted : ws.Counted db
  numbered : ws.Numbered
  nodup : ws.stepIds.Nodup
  cites : ws.CitesBackwards

variable {ws ws' : Worksheet} {db : Database} {st : Settings}

/-- What counts of a content for the number of hypotheses. -/
def tally (c : Content) : Option Text × Bool := (c.theorem?, c.isHypothesis)

theorem countP_tally (cs : List Content) :
    cs.countP Content.isHypothesis = (cs.map tally).countP Prod.snd := by
  rw [List.countP_map]
  rfl

theorem Counted.of_tally (h : ws.Counted db)
    (hsame : ws'.contents.map tally = ws.contents.map tally) : ws'.Counted db := by
  have theorems_of : ∀ cs : List Content,
      cs.filterMap Content.theorem? = (cs.map tally).filterMap Prod.fst := by
    intro cs
    rw [List.filterMap_map]
    rfl
  unfold Counted at h ⊢
  rw [theorems_of, countP_tally, hsame, ← theorems_of, ← countP_tally]
  exact h

/-- A derivation step more makes no difference to the hypotheses. -/
theorem Counted.insert (h : ws.Counted db) {before after : List Statement} {id : StatementId}
    {d : Derivation} (hss : ws.statements = before ++ after)
    (hentries : ws'.entries =
      before.map Statement.entry ++ (id, .derivation d) :: after.map Statement.entry) :
    ws'.Counted db := by
  have hnew := contents_of_entries hentries
  have hold : ws.contents = before.map Statement.content ++ after.map Statement.content := by
    rw [contents, hss, List.map_append]
  have htheorems : ws'.contents.filterMap Content.theorem? =
      ws.contents.filterMap Content.theorem? := by
    rw [hnew, hold, List.filterMap_append, List.filterMap_append, List.filterMap_cons]
    rfl
  have hcount : ws'.contents.countP Content.isHypothesis =
      ws.contents.countP Content.isHypothesis := by
    rw [hnew, hold, List.countP_append, List.countP_append, List.countP_cons]
    rfl
  unfold Counted
  rw [htheorems, hcount]
  exact h

theorem tally_revisedTo {c c' : Content} (h : c.RevisedTo c') : tally c' = tally c := by
  cases h <;> rfl

theorem map_tally_of_revises (revises : ws.Revises ws') :
    ws'.contents.map tally = ws.contents.map tally := by
  rw [contents_eq, contents_eq, List.map_map, List.map_map]
  exact map_eq_of_forall₂ revises fun e e' hR => tally_revisedTo hR.2

/-- Revised statements that are legible agree with their text, if they stand where they should and
have kept their levels. -/
theorem Agrees.revise (h : ws.Agrees db) (revises : ws.Revises ws') (same : ws.SameIndex ws')
    (legible : ∀ s ∈ ws'.statements, s.Legible db)
    (placed : respanFrom 0 0 ws'.statements = ws'.statements) (levelled : ws'.Levelled) :
    ws'.Agrees db where
  legible := legible
  placed := placed
  levelled := levelled
  counted := h.counted.of_tally (map_tally_of_revises revises)
  numbered := h.numbered.revise revises same
  nodup := by
    rw [stepIds_of_revises revises]
    exact h.nodup
  cites := h.cites.revise revises

/-- Measuring the levels moves no statement. -/
theorem map_spot_measureLevels (ws : Worksheet) :
    ws.measureLevels.statements.map Statement.spot = ws.statements.map Statement.spot := by
  rw [Worksheet.measureLevels, List.map_map]
  rfl

/-- Measuring the levels keeps a worksheet in agreement with its text. -/
theorem Agrees.measureLevels (h : ws.Agrees db) : ws.measureLevels.Agrees db := by
  let levels := Levels.of ws.statements
  have hstatements : ws.measureLevels.statements = ws.statements.map (·.mapStep levels.record) := rfl
  refine h.revise (revises_measureLevels ws) ⟨rfl, rfl, rfl, rfl, rfl, rfl⟩ ?_ ?_
    (levelled_measureLevels ws)
  · intro s' hs'
    rw [hstatements] at hs'
    obtain ⟨s, hs, rfl⟩ := List.mem_map.mp hs'
    exact (h.legible s hs).record levels
  · exact respanFrom_of_spots (map_spot_measureLevels ws) h.placed

/-- Changing one statement, so that it is legible and the levels are not touched, keeps a worksheet
in agreement with its text. -/
theorem Agrees.reviseAt (h : ws.Agrees db) {before after : List Statement} {s : Statement}
    (s' : Statement) (hss : ws.statements = before ++ s :: after) (hid : s'.id = s.id)
    (hrevised : s.content.RevisedTo s'.content) (legible : s'.Legible db)
    (hstanding : s'.content.standing = s.content.standing)
    (hcontents : ws'.entries = (before ++ s' :: after).map Statement.entry)
    (same : ws.SameIndex ws')
    (statements : ws'.statements = respanFrom 0 0 (before ++ s' :: after)) : ws'.Agrees db := by
  refine h.revise (revises_of_split s' hss hid hrevised hcontents) same ?_ ?_ ?_
  · rw [statements]
    refine legible_respanFrom fun t ht => ?_
    rw [List.mem_append, List.mem_cons, or_left_comm, ← List.mem_append] at ht
    rcases ht with rfl | ht
    · exact legible
    · apply h.legible t
      rw [hss]
      simp only [List.mem_append, List.mem_cons] at ht ⊢
      exact ht.imp_right Or.inr
  · rw [statements, respanFrom_respanFrom]
  · exact h.levelled.reviseAt hss hcontents hstanding

/-- The step that is found by its name is a step. -/
theorem SplitsAt.exists_step {step : StepId} {before after : List Statement} {s : Statement}
    (split : ws.SplitsAt step before s after) :
    s ∈ ws.statements ∧ ∃ found, s.content.step? = some found := by
  refine ⟨?_, ?_⟩
  · rw [split.statements]
    exact List.mem_append_right _ List.mem_cons_self
  · have hfound := split.found
    rw [Statement.stepId?_eq, Content.stepId?, Option.map_eq_some_iff] at hfound
    obtain ⟨found, hstep, -⟩ := hfound
    exact ⟨found, hstep⟩

/-- The names of faithful steps are in range. -/
theorem inRange_of_faithful {ss : List Statement} (faithful : ∀ s ∈ ss, s.Faithful db) :
    ∀ id ∈ ss.filterMap Statement.stepId?, id.InRange := by
  intro id hid
  obtain ⟨s, hs, hfound⟩ := List.mem_filterMap.mp hid
  exact (faithful s hs).inRange hfound

/-- Renumbering keeps a worksheet in agreement with its text. -/
theorem Agrees.renumber {interval changed : Nat} (h : ws.Agrees db)
    (hrenumber : ws.renumber interval = .ok (ws', changed)) : ws'.Agrees db := by
  have nodup := (nodup_renumber hrenumber).mpr h.nodup
  have numbered := Numbered.renumber hrenumber
  have levelled := h.levelled.renumber h.cites hrenumber
  have cites := h.cites.renumber hrenumber
  obtain ⟨hpos, hmax, rfl⟩ := renumber_ok hrenumber
  let names := ws.newNames interval
  have inRange : ∀ id : StepId, id.InRange → (names.apply id).InRange := by
    intro id hid
    -- a step gets a number up to the greatest one, and any other name stays
    by_cases hmem : id ∈ ws.stepIds
    · obtain ⟨-, hname⟩ | ⟨i, hi, -, hname⟩ := newNames_cases interval hmem
      · show ((ws.newNames interval).apply id).InRange
        rw [hname]
        trivial
      · show ((ws.newNames interval).apply id).InRange
        rw [hname]
        constructor
        · exact Nat.mul_pos hpos (Nat.succ_pos i)
        · exact Nat.le_trans (Nat.mul_le_mul_left interval hi) hmax
    · show ((ws.newNames interval).apply id).InRange
      rw [newNames, Renaming.apply_of_not_mem fun hnumbered =>
        hmem (mem_numberedIds.mp hnumbered).1]
      exact hid
  refine ⟨?_, respanFrom_respanFrom 0 0 _, levelled, ?_, numbered, nodup, cites⟩
  · refine legible_respanFrom fun s' hs' => ?_
    obtain ⟨s, hs, rfl⟩ := List.mem_map.mp hs'
    exact (h.legible s hs).rename inRange (newNames_eq_qed ws interval)
  · refine h.counted.of_tally ?_
    rw [contents_respan, contents, contents, List.map_map, List.map_map, List.map_map]
    refine List.map_congr_left fun s _ => ?_
    show tally (names.applyContent s.content) = tally s.content
    cases s.content <;> rfl

/-- A step that is inserted where there is room for its number keeps a worksheet in agreement with
its text. -/
theorem Agrees.insertStep (h : ws.Agrees db) {step : StepId} {hyps : List StepId}
    {ref : Option Text} {formula : Formula} (hgranted : ws.insertStep step hyps ref formula = .ok ws')
    (hchange : ws.Changes (.insertStep step hyps ref formula) ws')
    (plain : (Edit.insertStep step hyps ref formula).IsPlain ws) : ws'.Agrees db := by
  obtain ⟨hlabel, hformula, hroom⟩ := plain
  -- there is room, so the next number is not in use
  have fresh : .number StepId.maxNumber ∉ ws.stepIds := by
    intro hmem
    have := h.numbered.bound _ hmem
    omega
  have hunused : .number ws.nextStepNumber ∉ ws.stepIds := mt h.numbered.fresh.mp fresh
  have nodup := (nodup_edit h.numbered hchange).mpr ⟨h.nodup, fun _ => fresh⟩
  have numbered := h.numbered.edit hchange
  have cites := h.cites.edit hchange
  obtain ⟨before, s, after, split, -, cited, hws⟩ := insertStep_ok hgranted
  let d := Derivation.inserted ws.nextStepNumber hyps ref formula
  let new := newStatement ws.nextId (.derivation d) (d.insertedText formula)
  have inRange_of : ∀ id ∈ ws.stepIds, id.InRange :=
    inRange_of_faithful fun t ht => (h.legible t ht).toFaithful
  have writable : d.Writable := by
    refine ⟨⟨?_, hlabel⟩, rfl, fun entry hentry => ?_⟩
    · show 0 < ws.nextStepNumber ∧ ws.nextStepNumber ≤ StepId.maxNumber
      have := h.numbered.next
      unfold nextStepNumber at this ⊢
      omega
    · obtain ⟨id, hid, rfl⟩ := List.mem_map.mp hentry
      refine Or.inr ⟨id, inRange_of id ?_, rfl⟩
      rw [stepIds, split.statements, List.filterMap_append]
      exact List.mem_append_left _ (cited id hid)
  have legible : new.Legible db :=
    Statement.legible_inserted db ws.nextId writable rfl rfl hformula
  have hentries : ws'.entries = before.map Statement.entry ++
      (ws.nextId, .derivation d) :: (s :: after).map Statement.entry := by
    rw [hws]
    exact (entries_respan _).trans List.map_append
  have hstatements : ws'.statements = respanFrom 0 0 (before ++ new :: s :: after) := by
    rw [hws]
    rfl
  refine ⟨?_, ?_, ?_, ?_, numbered, nodup, cites⟩
  · rw [hstatements]
    refine legible_respanFrom fun t ht => ?_
    rw [List.mem_append, List.mem_cons, or_left_comm, ← List.mem_append] at ht
    rcases ht with rfl | ht
    · exact legible
    · exact h.legible t (split.statements ▸ ht)
  · rw [hstatements, respanFrom_respanFrom]
  · -- no step cites the new one
    refine h.levelled.insert split.statements hentries rfl (fun heq => (by cases heq)) ?_
    intro d' hd' hmem
    exact hunused (h.cites.cited_mem hd' hmem)
  · exact h.counted.insert split.statements hentries

/-- An edit that writes what can be read back keeps a worksheet in agreement with its text. -/
theorem Agrees.edit {e : Edit} (h : ws.Agrees db) (hids : ws.ids.Nodup)
    (granted : ws.applyEdit st e = .ok ws') (plain : e.IsPlain ws) : ws'.Agrees db := by
  have hchange := changes_of_applyEdit hids granted
  cases e with
  | setRef step label =>
      obtain ⟨before, s, after, split, rfl⟩ := setRef_ok granted
      obtain ⟨hs, found, hfound⟩ := split.exists_step
      exact h.reviseAt (s.withRef label) split.statements rfl (s.revised_withRef label)
        ((h.legible s hs).withRef hfound plain) (s.standing_withRef label) (entries_respan _)
        ⟨rfl, rfl, rfl, rfl, rfl, rfl⟩ rfl
  | setFormula step formula =>
      obtain ⟨before, s, after, split, rfl⟩ := setFormula_ok granted
      obtain ⟨hs, found, hfound⟩ := split.exists_step
      exact h.reviseAt (s.withFormula formula) split.statements rfl
        (s.revised_withFormula formula) ((h.legible s hs).withFormula hfound plain)
        (s.standing_withFormula formula) (entries_respan _) ⟨rfl, rfl, rfl, rfl, rfl, rfl⟩ rfl
  | setStatus step unification distinctCheck proof =>
      obtain ⟨before, s, after, split, -, rfl⟩ := setStatus_ok granted
      obtain ⟨hs, found, hfound⟩ := split.exists_step
      -- no text changes, so all statements stand where they should
      have placed : respanFrom 0 0
          (before ++ s.withStatus unification distinctCheck proof :: after) =
            before ++ s.withStatus unification distinctCheck proof :: after := by
        refine respanFrom_of_spots ?_ h.placed
        rw [split.statements, List.map_append, List.map_append, List.map_cons, List.map_cons]
        rfl
      exact h.reviseAt (s.withStatus unification distinctCheck proof) split.statements rfl
        (s.revised_withStatus unification distinctCheck proof)
        ((h.legible s hs).withStatus unification distinctCheck proof)
        (s.standing_withStatus unification distinctCheck proof) rfl
        ⟨rfl, rfl, rfl, rfl, rfl, rfl⟩ placed.symm
  | insertStep step hyps ref formula => exact h.insertStep granted hchange plain
  | insertDistinctVars vars => cases plain
  | insertProof proof => cases plain
  | placeCursor step field =>
      obtain ⟨c, rfl⟩ := moveCursor_ok granted
      exact ⟨h.legible, h.placed, h.levelled, h.counted, ⟨h.numbered.bound, h.numbered.range⟩,
        h.nodup, h.cites⟩

/-! ## Loading -/

/-- The statement of a block is faithful. -/
theorem faithful_toStatement {c : Chunk} {q : Place} {content : Content} {id : StatementId}
    (laid : c.IsLaid) (ends : content.isFooter = false → c.EndsLine)
    (blanks : ∀ x ∈ c.text, isBlank x = true → isSeparator x = true)
    (said : Says db (c.block q).head.text (c.block q).words (c.block q).tail content) :
    ((c.block q).toStatement id content).Faithful db := by
  rw [Chunk.block_lead, Chunk.block_words, Chunk.block_tail] at said
  have hstatement : (c.block q).toStatement id content =
      { id := id
        content := content
        lead := c.lead
        tail := c.tail
        start := (c.block q).head.start
        position := (c.block q).head.place.position } := by
    rw [Block.toStatement, Chunk.block_tail]
    rfl
  rw [hstatement]
  refine ⟨laid, ends, blanks, ?_⟩
  show Says db c.lead (wordsOf c.tail) c.tail content.bare
  rw [said.bare_eq]
  exact said

/-- The statements that are read are faithful to their texts. -/
theorem faithful_readText {text : Text} (hnil : ws.statements = [])
    (blanks : ∀ x ∈ text, isBlank x = true → isSeparator x = true)
    (h : ws.readText db st text = .ok ws') : ∀ s ∈ ws'.statements, s.Faithful db := by
  obtain ⟨t, ts, htokens, hstarts, -⟩ := starts_of_readText h
  obtain ⟨cs, hlaid, htext, hblocks⟩ := exists_chunks htokens hstarts
  have blanks_of : ∀ c ∈ cs, ∀ x ∈ c.text, isBlank x = true → isSeparator x = true := by
    intro c hc x hx
    refine blanks x ((List.dropWhile_sublist isSeparator).subset ?_)
    rw [htext]
    exact List.mem_flatMap.mpr ⟨c, hc, hx⟩
  refine keeps_readText (I := fun ws => ∀ s ∈ ws.statements, s.Faithful db) h ?_ ?_
  · intro s hs
    rw [hnil] at hs
    cases hs
  · intro b hb c ws₁ ws₂ hearly hsaid hadds faithful s hs
    -- the block is one of the chunks, and all but the last one end a line
    obtain ⟨chunk, hchunk, ends, q, rfl⟩ : ∃ chunk ∈ cs,
        (c.isFooter = false → chunk.EndsLine) ∧ ∃ q, b = chunk.block q := by
      rw [hblocks] at hb hearly
      cases hc : c.isFooter with
      | false =>
          obtain ⟨chunk, hchunk, ends, hq⟩ := mem_dropLast_blocksFrom hlaid (hearly hc)
          exact ⟨chunk, hchunk, fun _ => ends, hq⟩
      | true =>
          obtain ⟨chunk, hchunk, hq⟩ := mem_blocksFrom hb
          exact ⟨chunk, hchunk, fun hfooter => (by cases hfooter), hq⟩
    rw [hadds.2.statements, List.mem_append, List.mem_singleton] at hs
    rcases hs with hs | rfl
    · exact faithful s hs
    · exact faithful_toStatement (hlaid.isLaid chunk hchunk) ends (blanks_of chunk hchunk) hsaid

/-- The theorem that a worksheet is about is the one that its header names. -/
theorem titled_readText {text : Text} (hnil : ws.statements = []) (hnone : ws.theoremLabel = none)
    (h : ws.readText db st text = .ok ws') :
    ws'.contents.filterMap Content.theorem? = ws'.theoremLabel.toList := by
  refine keeps_readText (I := fun ws =>
    ws.contents.filterMap Content.theorem? = ws.theoremLabel.toList) h ?_ ?_
  · rw [contents, hnil, hnone]
    rfl
  · rintro b - c ws₁ ws₂ - - ⟨hadm, hextends⟩ titled
    have hcontents : ws₂.contents = ws₁.contents ++ [c] := hextends.contents
    have hlabel : ws₂.theoremLabel = c.theorem?.or ws₁.theoremLabel := hextends.theoremLabel
    rw [hcontents, hlabel, List.filterMap_append]
    cases c with
    | header header =>
        have none_before : ws₁.contents.filterMap Content.theorem? = [] := by
          rw [List.filterMap_eq_nil_iff]
          intro c hc
          obtain ⟨s, hs, rfl⟩ := List.mem_map.mp hc
          have hheader := List.any_eq_false.mp hadm s hs
          rw [Statement.isHeader_eq] at hheader
          cases hs : s.content with
          | header h =>
              rw [hs] at hheader
              exact absurd rfl hheader
          | _ => rfl
        rw [none_before]
        rfl
    | _ =>
        rw [titled]
        exact List.append_nil _

/-- What derivation steps have no part in is not changed by dropping and resolving some of them. -/
theorem filterMap_passes {α : Type} {f : Content → Option α} (hf : ∀ d, f (.derivation d) = none)
    {r r' : Resolution} {ss kept : List Statement} (h : Resolution.Passes r ss kept r') :
    (kept.map Statement.content).filterMap f = (ss.map Statement.content).filterMap f := by
  induction h with
  | done => rfl
  | other hs _ ih | hypothesis hs _ ih =>
      rw [List.map_cons, List.map_cons, List.filterMap_cons, List.filterMap_cons, ih]
  | derivation hs hlocal resolved _ ih =>
      rw [List.map_cons, List.map_cons, Statement.citing_content hs, hs,
        List.filterMap_cons_none (hf _), List.filterMap_cons_none (hf _), ih]
  | localRef hs hlocal hfound _ ih =>
      rw [List.map_cons, hs, List.filterMap_cons_none (hf _), ih]

/-- A statement that is kept with a resolved hypothesis list is legible. -/
theorem legible_of_kept {s s' : Statement} {earlier : List StepId} (h : s.Faithful db)
    (hkept : s' = s ∨ ∃ d hyps, s.content = .derivation d ∧ d.localRef = none ∧
      s' = s.citing d hyps)
    (hcites : CitesOnly earlier s'.content) (inRange : ∀ id ∈ earlier, id.InRange) :
    s'.Legible db := by
  have same_of : s.content.derivation? = none → s' = s := by
    intro hnone
    rcases hkept with hsame | ⟨d, hyps, hd, -, -⟩
    · exact hsame
    · rw [Content.derivation?_eq_some.mpr hd] at hnone
      cases hnone
  cases hc : s.content with
  | hypothesis step =>
      have hid : s.stepId? = some step.id := by
        rw [Statement.stepId?_eq, hc]
        rfl
      have hstep : s.content.step? = some step := by
        rw [hc]
        rfl
      have not_qed : step.id ≠ .qed := by
        have said := h.said
        rw [hc] at said
        exact said.hypothesis_ne_qed
      rw [same_of (by rw [hc]; rfl)]
      refine ⟨h, ?_⟩
      rw [hc]
      exact ⟨⟨h.inRange hid, fun l hl => h.label hstep hl⟩, not_qed⟩
  | derivation d =>
      obtain ⟨hyps, rfl⟩ : ∃ hyps, s' = s.citing d hyps := by
        rcases hkept with rfl | ⟨d', hyps, hd, -, rfl⟩
        · exact ⟨d.hyps, (if_pos rfl).symm⟩
        · rw [hc] at hd
          cases hd
          exact ⟨hyps, rfl⟩
      have hid : s.stepId? = some d.id := by
        rw [Statement.stepId?_eq, hc]
        rfl
      have hstep : s.content.step? = some d.toStep := by
        rw [hc]
        rfl
      obtain ⟨hlocal, hcited⟩ := hcites (d.citing hyps) (Statement.citing_content hc hyps)
      refine h.citing hc ⟨⟨h.inRange hid, fun l hl => h.label hstep hl⟩, hlocal, ?_⟩
      intro entry hentry
      rcases hcited entry hentry with hunknown | ⟨id, hmem, hstep⟩
      · exact Or.inl hunknown
      · exact Or.inr ⟨id, inRange id hmem, hstep⟩
  | _ =>
      rw [same_of (by rw [hc]; rfl)]
      refine ⟨h, ?_⟩
      rw [hc]
      trivial

/-- Faithful statements are legible once what they cite is resolved. -/
theorem legible_resolve {read : Worksheet} {kept : List Statement} {r : Resolution}
    (faithful : ∀ s ∈ read.statements, s.Faithful db)
    (passes : Resolution.Passes {} read.statements kept r) (keeps : read.Keeps kept ws)
    (hcites : ws.CitesBackwards) : ∀ s ∈ ws.statements, s.Legible db := by
  have inRange : ∀ id ∈ ws.stepIds, id.InRange := by
    intro id hid
    rw [stepIds, keeps.statements, filterMap_stepId?_respanFrom] at hid
    exact inRange_of_faithful faithful id (passes.stepIds_sublist.subset hid)
  rw [keeps.statements]
  refine legible_respanFrom fun s' hs' => ?_
  obtain ⟨s, hs, -, hkept⟩ := passes.mem hs'
  refine legible_of_kept (faithful s hs) hkept (hcites.citesOnly ?_) inRange
  rw [keeps.contents]
  exact List.mem_map_of_mem hs'

/-- The number of hypotheses that is checked is the number of the theorem that is read. -/
theorem counted_resolve {read : Worksheet} {kept : List Statement} {r : Resolution}
    (titled : read.contents.filterMap Content.theorem? = read.theoremLabel.toList)
    (passes : Resolution.Passes {} read.statements kept r) (keeps : read.Keeps kept ws)
    (hhypotheses : ws.hypothesisCount = ws.contents.countP Content.isHypothesis)
    (hcount : ∀ info, ws.theoremLabel.bind db.find? = some info →
      info.hypotheses.length = ws.hypothesisCount) : ws.Counted db := by
  intro label hlabel info hinfo
  have htheorems : ws.contents.filterMap Content.theorem? = ws.theoremLabel.toList := by
    rw [keeps.contents, filterMap_passes (fun d => rfl) passes, keeps.theoremLabel]
    exact titled
  have hlabel' : ws.theoremLabel = some label := by
    rw [htheorems] at hlabel
    exact Option.mem_toList.mp hlabel
  rw [← hhypotheses]
  refine hcount info ?_
  rw [hlabel']
  exact hinfo

/-- The statements of a worksheet that loads cleanly stand where they should. -/
theorem placed_load {request : Request} {text : Text}
    (clean : (load db st request text).broken = false) :
    respanFrom 0 0 (load db st request text).statements =
      (load db st request text).statements := by
  obtain ⟨read, selected, ws, c, ids, hread, hresolve, -, -, hload⟩ := load_clean clean
  obtain ⟨proved, hshaped⟩ := shaped_readText hread
  obtain ⟨kept, r, -, keeps⟩ := resolveLocalRefs_ok hresolve hshaped.nodup
  have placed : respanFrom 0 0 ws.statements = ws.statements := by
    rw [keeps.statements, respanFrom_respanFrom]
  refine respanFrom_of_spots ?_ placed
  rw [hload]
  exact map_spot_measureLevels ws

/-- A worksheet that loads cleanly from a text without odd blanks agrees with its text. -/
theorem agrees_load {request : Request} {text : Text}
    (blanks : ∀ x ∈ text, isBlank x = true → isSeparator x = true)
    (clean : (load db st request text).broken = false) : (load db st request text).Agrees db := by
  obtain ⟨nodup, numbered⟩ := numbered_load clean
  have cites := citesBackwards_load clean
  obtain ⟨proved, hloaded⟩ := shaped_load clean
  obtain ⟨read, selected, ws, c, ids, hread, hresolve, -, hcount, hload⟩ := load_clean clean
  obtain ⟨proved', hshaped⟩ := shaped_readText hread
  obtain ⟨kept, r, passes, keeps⟩ := resolveLocalRefs_ok hresolve hshaped.nodup
  have faithful := faithful_readText rfl blanks hread
  -- which step was selected does not matter
  replace keeps : read.Keeps kept ws :=
    ⟨keeps.statements, keeps.qed, keeps.hypothesisCount, keeps.greatestStep, keeps.nextId,
      keeps.theoremLabel, keeps.broken⟩
  have hearlier : Along CitesEarlier [] read.contents := citesEarlier_readText rfl hread
  have hcites : ws.CitesBackwards := by
    refine citesBackwards_resolve ?_ ?_ hresolve
    · exact hshaped.nodup
    · exact hearlier
  have legible : ∀ s ∈ ws.statements, s.Legible db := legible_resolve faithful passes keeps hcites
  have htally : (load db st request text).contents.map tally = ws.contents.map tally := by
    rw [hload]
    exact map_tally_of_revises (revises_measureLevels ws)
  have hhypotheses : ws.hypothesisCount = ws.contents.countP Content.isHypothesis := by
    have hcounted := hloaded.hypothesisCount
    rw [countP_tally, htally, ← countP_tally, hload] at hcounted
    exact hcounted
  have counted : ws.Counted db :=
    counted_resolve (titled_readText rfl rfl hread) passes keeps hhypotheses hcount
  have levelled := levelled_measureLevels ws
  have measured : ∀ s ∈ ws.measureLevels.statements, s.Legible db := by
    intro s' hs'
    obtain ⟨s, hs, rfl⟩ := List.mem_map.mp hs'
    exact (legible s hs).record _
  refine ⟨?_, placed_load clean, ?_, counted.of_tally htally, numbered, nodup, cites⟩
  · rw [hload]
    exact measured
  · rw [hload]
    exact levelled

/-- A worksheet that loads cleanly from a text without odd blanks agrees with its text, and it goes
on doing so as long as the edits that are granted write what can be read back. -/
theorem agrees_afterCalls {request : Request} {text : Text}
    (blanks : ∀ x ∈ text, isBlank x = true → isSeparator x = true)
    (clean : (load db st request text).broken = false) (calls : List Call)
    (plain : ∀ p ∈ (load db st request text).grantedBy calls, p.2.IsPlain p.1) :
    ((load db st request text).afterCalls calls).Agrees db := by
  obtain ⟨proved, hshaped⟩ := shaped_load clean
  refine hshaped.induct (moves_afterCalls _ calls) ?_ ?_ ?_ (agrees_load blanks clean)
  · intro st ws e ws' proved hmem hshaped granted h
    exact h.edit hshaped.nodup granted (plain (ws, e) hmem)
  · exact fun ws h => h.measureLevels
  · exact fun ws interval ws' changed granted h => h.renumber granted

end Worksheet

end ProofSheet
