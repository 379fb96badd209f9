import ProofSheet.Proofs.Agreement
import ProofSheet.Proofs.Sequence
import ProofSheet.Proofs.WellShaped

set_option autoImplicit false

/-! # Loading the output again

A worksheet that agrees with its text can be written and loaded again: the text is cut into the
blocks of its statements, each block is read as what the statement says, there is nothing to
resolve, and the levels are measured anew. What comes out has the same statements, up to the ids
of the statements and what unification has found out (`Worksheet.Agrees.reload`). So text and
worksheet never drift apart while steps are renumbered and edited (`Worksheet.reload_afterCalls`).
-/

namespace ProofSheet

/-- The derivation step without what unification has found out about it. -/
def Derivation.shown (d : Derivation) : Derivation :=
  { d with
    proof := none
    unification := .untried
    distinctCheck := .untried
    derived := false }

/-- What a statement says, with the level of a step, but without the outcome of unification. -/
def Content.shown : Content → Content
  | .derivation d => .derivation d.shown
  | c => c

namespace Statement

/-- The statement as it is shown: its text, its place and what it says. -/
def shown (s : Statement) : Statement := { s with id := 0, content := s.content.shown }

/-- The statement as it is read: its text and what the text says. -/
def asRead (s : Statement) : Statement :=
  { id := 0, content := s.content.bare, lead := s.lead, tail := s.tail }

theorem text_asRead (s : Statement) : s.asRead.text = s.text := rfl

end Statement

theorem Content.bare_bare (c : Content) : c.bare.bare = c.bare := by
  cases c <;> rfl

theorem Content.citing?_bare (c : Content) : c.bare.citing? = c.citing? := by
  cases c <;> rfl

/-- A level that is recorded takes the place of the one that is left out in reading. -/
theorem Content.shown_mapStep_record (levels : Levels) (c : Content) :
    (c.mapStep levels.record).shown = c.bare.mapStep levels.record := by
  cases c <;> rfl

theorem citesEarlier_bare {earlier : List StepId} {c : Content} (h : CitesEarlier earlier c) :
    CitesEarlier earlier c.bare := by
  intro d hd id hid
  cases c with
  | derivation d₀ =>
      cases hd
      exact h d₀ rfl id hid
  | _ => cases hd

theorem Phase.next_bare (p : Phase) (c : Content) : p.next c.bare = p.next c := by
  cases p <;> cases c <;> rfl

theorem Phase.after_bare (p : Phase) (ss : List Statement) :
    p.after (ss.map (·.content.bare)) = p.after (ss.map Statement.content) := by
  induction ss generalizing p with
  | nil => rfl
  | cons s rest ih =>
      rw [List.map_cons, List.map_cons, Phase.after, Phase.after, Phase.next_bare]
      congr 1
      funext q
      exact ih q

/-! ## What the statements show -/

/-- What statements show, laid out and with measured levels, is a matter of how they are read. -/
theorem shown_of_asRead {ss ts : List Statement} (levels : Levels)
    (h : ss.map Statement.asRead = ts.map Statement.asRead) (offset line : Nat) :
    (respanFrom offset line ss).map (fun s => (s.mapStep levels.record).shown) =
      (respanFrom offset line ts).map (fun s => (s.mapStep levels.record).shown) := by
  induction ss generalizing ts offset line with
  | nil =>
      cases ts with
      | nil => rfl
      | cons t ts => cases h
  | cons s ss ih =>
      cases ts with
      | nil => cases h
      | cons t ts =>
          rw [List.map_cons, List.map_cons, List.cons.injEq] at h
          obtain ⟨hst, hrest⟩ := h
          have htext : s.text = t.text := by
            rw [← s.text_asRead, hst, t.text_asRead]
          have shown_eq : ∀ u : Statement,
              (({ u with start := offset, position := ⟨line, 0⟩ } : Statement).mapStep
                levels.record).shown =
              { u.asRead with
                content := u.asRead.content.mapStep levels.record
                start := offset
                position := ⟨line, 0⟩ } := by
            intro u
            unfold Statement.shown Statement.mapStep
            dsimp only
            rw [Content.shown_mapStep_record]
            rfl
          rw [respanFrom, respanFrom, List.map_cons, List.map_cons, shown_eq, shown_eq, hst, htext,
            ih hrest]

/-- The levels are a matter of how statements are read. -/
theorem levels_of_asRead {ss ts : List Statement}
    (h : ss.map Statement.asRead = ts.map Statement.asRead) : Levels.of ss = Levels.of ts := by
  have citing_of : ∀ us : List Statement,
      (us.map Statement.content).filterMap Content.citing? =
        ((us.map Statement.asRead).map Statement.content).filterMap Content.citing? := by
    intro us
    rw [List.map_map, List.filterMap_map, List.filterMap_map]
    congr 1
    funext s
    exact (Content.citing?_bare s.content).symm
  rw [Levels.of_eq, Levels.of_eq, citing_of ss, citing_of ts, h]

theorem levels_respanFrom (ss : List Statement) (offset line : Nat) :
    Levels.of (respanFrom offset line ss) = Levels.of ss := by
  rw [Levels.of_eq, Levels.of_eq, map_respanFrom Statement.content fun _ _ _ => rfl]

/-- The block of a faithful statement says what is read of the statement. -/
theorem Statement.Faithful.said_block {s : Statement} {db : Database} (h : s.Faithful db)
    (q : Place) :
    Says db (s.chunk.block q).head.text (s.chunk.block q).words (s.chunk.block q).tail
      s.content.bare := by
  rw [Chunk.block_lead, Chunk.block_words, Chunk.block_tail]
  exact h.said

namespace Worksheet

variable {ws ws' : Worksheet} {db : Database} {st : Settings} {p : Phase}

/-! ## Reading what was written -/

/-- What is read from the blocks of statements, if it says what the statements say, is read as the
statements. -/
theorem asRead_of_blocks {ss new : List Statement} {q : Place}
    (hread : List.Forall₂ (Statement.ReadFrom db) (blocksFrom q (ss.map Statement.chunk)) new)
    (hcontents : new.map Statement.content = ss.map (·.content.bare)) :
    new.map Statement.asRead = ss.map Statement.asRead := by
  induction ss generalizing new q with
  | nil =>
      cases hread
      rfl
  | cons s rest ih =>
      cases hread with
      | @cons _ t _ new ht hrest =>
          rw [List.map_cons, List.map_cons, List.cons.injEq] at hcontents
          obtain ⟨hcontent, hcontents⟩ := hcontents
          have hlead : t.lead = s.lead := ht.lead
          have htail : t.tail = s.tail := ht.tail.trans (Chunk.block_tail _ _)
          have hfirst : t.asRead = s.asRead := by
            unfold Statement.asRead
            rw [hcontent, hlead, htail, Content.bare_bare]
          rw [List.map_cons, List.map_cons, hfirst, ih hrest hcontents]

/-- The blocks of faithful statements are read as the statements. -/
theorem Shaped.exists_readFaithful {ss : List Statement} {proved : Bool} (st : Settings) (q : Place)
    (h : ws.Shaped p) (hopen : p.isClosed = false) (faithful : ∀ s ∈ ss, s.Faithful db)
    (hphase : p.after (ss.map Statement.content) = some (.closed proved))
    (nodup : (ws.stepIds ++ ss.filterMap Statement.stepId?).Nodup)
    (hcites : Along CitesOnly ws.stepIds (ss.map Statement.content)) :
    ∃ ws', ws.readBlocks db st (blocksFrom q (ss.map Statement.chunk)) = .ok ws' ∧
      ws'.broken = ws.broken ∧
      ws'.statements.map Statement.asRead =
        ws.statements.map Statement.asRead ++ ss.map Statement.asRead := by
  have hsaid : List.Forall₂ (fun b => Says db b.head.text b.words b.tail)
      (blocksFrom q (ss.map Statement.chunk)) (ss.map (·.content.bare)) := by
    clear hphase nodup hcites
    induction ss generalizing q with
    | nil => exact .nil
    | cons s rest ih =>
        obtain ⟨hs, hrest⟩ := List.forall_mem_cons.mp faithful
        exact .cons (hs.said_block q) (ih _ hrest)
  have hphase' : p.after (ss.map (·.content.bare)) = some (.closed proved) := by
    rw [← hphase]
    exact Phase.after_bare p ss
  have hids : (ss.map (·.content.bare)).filterMap Content.stepId? =
      ss.filterMap Statement.stepId? := by
    rw [List.filterMap_map]
    congr 1
    funext s
    exact s.content.stepId?_bare
  have hcites' : Along CitesEarlier ws.stepIds (ss.map (·.content.bare)) := by
    have hbare : Along CitesEarlier (ws.stepIds.map id) (ss.map (·.content.bare)) := by
      refine hcites.forall₂ (R := fun c c' => c' = c.bare) ?_ ?_ ?_
      · rintro c c' rfl
        rw [Content.stepId?_bare, Option.map_id, id]
      · rintro e c c' rfl hc
        rw [List.map_id]
        exact citesEarlier_bare hc.citesEarlier
      · rw [List.forall₂_map_left_iff, List.forall₂_map_right_iff]
        exact List.forall₂_same.mpr fun s _ => rfl
    rwa [List.map_id] at hbare
  obtain ⟨ws', new, hread, hbroken, hstatements, hcontents, hall⟩ :=
    h.exists_readBlocks st hopen hsaid hphase' (by rwa [hids]) hcites'
  refine ⟨ws', hread, hbroken, ?_⟩
  rw [hstatements, List.map_append, asRead_of_blocks hall hcontents]

/-! ## The output -/

/-- The footer is the last statement, so every other one ends a line. -/
theorem laidOut_of_faithful {ss : List Statement} (faithful : ∀ s ∈ ss, s.Faithful db)
    (hlast : ∀ s ∈ ss.dropLast, s.isFooter = false) : LaidOut (ss.map Statement.chunk) := by
  induction ss with
  | nil => trivial
  | cons s rest ih =>
      obtain ⟨hs, hrest⟩ := List.forall_mem_cons.mp faithful
      refine ⟨hs.laid, fun hne => ?_, ih hrest ?_⟩
      · cases rest with
        | nil => exact absurd rfl hne
        | cons next rest => exact hs.ends (hlast s List.mem_cons_self)
      · intro t ht
        cases rest with
        | nil => cases ht
        | cons next rest => exact hlast t (List.mem_cons_of_mem _ ht)

theorem output_eq (ws : Worksheet) :
    ws.output = (ws.statements.map Statement.chunk).flatMap Chunk.text := by
  rw [List.flatMap_map]
  rfl

/-- A text that begins with a header is read chunk by chunk. -/
theorem readText_chunks {c : Chunk} {rest : List Chunk} (hlaid : LaidOut (c :: rest))
    (hlead : c.lead = Keyword.header) :
    ws.readText db st ((c :: rest).flatMap Chunk.text) =
      ws.readBlocks db st (blocksFrom {} (c :: rest)) := by
  have hgroup := group_tokens_chunks hlaid
  refine readText_eq (by rw [hgroup]) ?_ hlead
  rw [blocksOf, hgroup]
  rfl

/-- A worksheet with its footer passes the check of its last step. -/
theorem Shaped.checkQed {proved : Bool} (h : ws.Shaped (.closed proved)) :
    ws.checkQed = .ok ws := by
  obtain ⟨before, s, after, hss, hid, -, -, hafter⟩ := h.qedStep rfl
  have hqed : ws.qed = some s.id := by
    refine h.qed s.entry ?_ ?_
    · rw [entries, hss, List.map_append, List.map_cons]
      exact List.mem_append_right _ List.mem_cons_self
    · show s.content.isQed = true
      rw [Content.isQed, beq_iff_eq]
      exact hid
  have hstep : s.isStep = true := by
    rw [Statement.isStep_eq, ← Content.isSome_stepId?, ← Statement.stepId?_eq, hid]
    rfl
  have hsteps : ws.steps = before.filter Statement.isStep ++ [s] := by
    have hnone : after.filter Statement.isStep = [] := by
      rw [List.filter_eq_nil_iff]
      intro t ht
      rw [hafter t ht]
      exact Bool.false_ne_true
    rw [steps, hss, List.filter_append, List.filter_cons_of_pos hstep, hnone]
  refine checkQed_eq_ok.mpr ⟨⟨?_, ?_⟩, rfl⟩
  · rw [hqed]
    rfl
  · rw [hsteps, List.getLast?_concat, hqed]
    rfl

/-- A header is read from a lead that opens one. -/
theorem header_lead {s : Statement} (h : s.Faithful db) (hheader : s.isHeader = true) :
    s.lead = Keyword.header := by
  rw [Statement.isHeader_eq] at hheader
  cases hc : s.content with
  | header header =>
      have hsaid : Says db s.lead (wordsOf s.tail) s.tail (.header header) := by
        have said := h.said
        rwa [hc] at said
      generalize s.lead = lead at hsaid ⊢
      generalize wordsOf s.tail = words at hsaid
      generalize s.tail = tail at hsaid
      cases hsaid
      rfl
  | _ =>
      rw [hc] at hheader
      cases hheader

/-- The output of a worksheet that agrees with its text is read as the statements. -/
theorem Agrees.exists_read {proved : Bool} (h : ws.Agrees db)
    (hshaped : ws.Shaped (.closed proved)) (st : Settings) :
    ∃ read, readText db st { cursor := { caret := none } } ws.output = .ok read ∧
      read.broken = false ∧
      read.statements.map Statement.asRead = ws.statements.map Statement.asRead := by
  have faithful : ∀ s ∈ ws.statements, s.Faithful db := fun s hs => (h.legible s hs).toFaithful
  obtain ⟨first, rest, hfirst, hheader, -⟩ := hshaped.header rfl
  obtain ⟨others, last, hlast, -, hothers⟩ := hshaped.footer rfl
  have hlaid : LaidOut (ws.statements.map Statement.chunk) := by
    refine laidOut_of_faithful faithful ?_
    rw [hlast, List.dropLast_concat]
    exact hothers
  have hlead : first.lead = Keyword.header := by
    refine header_lead (faithful first ?_) hheader
    rw [hfirst]
    exact List.mem_cons_self
  have hnodup : ([] ++ ws.statements.filterMap Statement.stepId?).Nodup := h.nodup
  obtain ⟨read, hread, hbroken, hstatements⟩ :=
    (shaped_start none).exists_readFaithful st {} rfl faithful hshaped.phase hnodup h.cites
  refine ⟨read, ?_, hbroken, hstatements⟩
  rw [output_eq]
  rw [hfirst, List.map_cons] at hlaid hread ⊢
  rw [readText_chunks hlaid hlead]
  exact hread

/-- Steps that are read as legible ones refer to nothing by a local reference. -/
theorem Agrees.settled (h : ws.Agrees db)
    (hread : ws'.statements.map Statement.asRead = ws.statements.map Statement.asRead) :
    ∀ s ∈ ws'.statements, ∀ d, s.content = .derivation d → d.IsSettled := by
  intro s hs d hd
  have hmem : s.asRead ∈ ws.statements.map Statement.asRead := by
    rw [← hread]
    exact List.mem_map_of_mem hs
  obtain ⟨t, ht, hts⟩ := List.mem_map.mp hmem
  have hbare : t.content.bare = s.content.bare := congrArg Statement.content hts
  have writable : s.content.Writable := by
    rw [← Content.writable_bare, ← hbare, Content.writable_bare]
    exact (h.legible t ht).writable
  rw [hd] at writable
  refine ⟨writable.localRef, fun target hmem => ?_⟩
  rcases writable.hyps _ hmem with hunknown | ⟨id, -, hstep⟩
  · cases hunknown
  · cases hstep

/-- The number of hypotheses is a matter of how statements are read. -/
theorem tally_of_asRead
    (h : ws'.statements.map Statement.asRead = ws.statements.map Statement.asRead) :
    ws'.contents.map tally = ws.contents.map tally := by
  have tally_bare : ∀ c : Content, tally c.bare = tally c := by
    intro c
    cases c <;> rfl
  have tally_of : ∀ ss : List Statement, (ss.map Statement.content).map tally =
      (ss.map Statement.asRead).map fun s => tally s.content := by
    intro ss
    rw [List.map_map, List.map_map]
    congr 1
    funext s
    exact (tally_bare s.content).symm
  rw [contents, contents, tally_of, tally_of, h]

/-- The theorem that is counted for is the one that the worksheet is about. -/
theorem Counted.labelled {proved : Bool} (h : ws.Counted db)
    (titled : ws.contents.filterMap Content.theorem? = ws.theoremLabel.toList)
    (hshaped : ws.Shaped (.closed proved)) :
    ∀ info, ws.theoremLabel.bind db.find? = some info →
      info.hypotheses.length = ws.hypothesisCount := by
  intro info hinfo
  obtain ⟨label, hlabel, hfound⟩ := Option.bind_eq_some_iff.mp hinfo
  have hmem : label ∈ ws.contents.filterMap Content.theorem? := by
    rw [titled, hlabel]
    exact List.mem_singleton_self label
  rw [h label hmem info hfound]
  exact hshaped.hypothesisCount.symm

/-- A worksheet that has been read is settled without a fault, if its local references are resolved
and it has as many hypotheses as the theorem. -/
theorem Shaped.exists_settle {read resolved : Worksheet} {proved : Bool}
    (hshaped : read.Shaped (.closed proved))
    (not_qed : ∀ d target, .derivation d ∈ read.contents → d.localRef = some target → d.id ≠ .qed)
    (hresolve : read.resolveLocalRefs = .ok resolved)
    (counted : ∀ info, read.theoremLabel.bind db.find? = some info →
      info.hypotheses.length = read.hypothesisCount) (st : Settings) :
    ∃ c, read.settle db st false =
      .ok { resolved.indexDistinctVars.measureLevels with cursor := c } := by
  have hresolved := hshaped.resolve not_qed hresolve
  obtain ⟨kept, r, -, keeps⟩ := resolveLocalRefs_ok hresolve hshaped.nodup
  have hcounted : resolved.indexDistinctVars.checkHypothesisCount db =
      .ok resolved.indexDistinctVars := by
    refine checkHypothesisCount_eq_ok.mpr ⟨fun info hinfo => ?_, rfl⟩
    have hlabel : resolved.indexDistinctVars.theoremLabel = read.theoremLabel := keeps.theoremLabel
    rw [hlabel] at hinfo
    exact (counted info hinfo).trans keeps.hypothesisCount.symm
  obtain ⟨c, hcursor⟩ :=
    placeCursor_eq st.caretPlacement resolved.indexDistinctVars.measureLevels
  refine ⟨c, ?_⟩
  rw [settle_eq, if_neg Bool.false_ne_true, ok_bind, hresolve, ok_bind, hresolved.checkQed,
    ok_bind, hcounted, ok_bind, hcursor]

/-- What is read of a worksheet that agrees with its text is settled without a fault, and no
statement goes. -/
theorem Agrees.exists_settle {read : Worksheet} {proved : Bool} (h : ws.Agrees db)
    (hshaped : read.Shaped (.closed proved))
    (titled : read.contents.filterMap Content.theorem? = read.theoremLabel.toList)
    (hread : read.statements.map Statement.asRead = ws.statements.map Statement.asRead)
    (st : Settings) :
    ∃ resolved c, read.Keeps read.statements resolved ∧
      read.settle db st false =
        .ok { resolved.indexDistinctVars.measureLevels with cursor := c } := by
  -- there is nothing to resolve
  have settled := h.settled hread
  obtain ⟨resolved, hresolve, keeps⟩ := resolveLocalRefs_of_settled settled
  have not_qed : ∀ d target, .derivation d ∈ read.contents → d.localRef = some target →
      d.id ≠ .qed := by
    intro d target hd hlocal
    obtain ⟨s, hs, hc⟩ := List.mem_map.mp hd
    rw [(settled s hs d hc).1] at hlocal
    cases hlocal
  -- there are as many hypotheses as there were
  have counted : read.Counted db := h.counted.of_tally (tally_of_asRead hread)
  obtain ⟨c, hsettle⟩ := hshaped.exists_settle not_qed hresolve (counted.labelled titled hshaped) st
  exact ⟨resolved, c, keeps, hsettle⟩

/-- A worksheet that agrees with its text is loaded again from its text. -/
theorem Agrees.reload {proved : Bool} (h : ws.Agrees db) (hshaped : ws.Shaped (.closed proved))
    (st : Settings) :
    (load db st {} ws.output).broken = false ∧
      (load db st {} ws.output).statements.map Statement.shown =
        ws.statements.map Statement.shown := by
  obtain ⟨read, hread, hbroken, hstatements⟩ := h.exists_read hshaped st
  obtain ⟨proved', hreadShaped⟩ := shaped_readText hread
  have titled := titled_readText rfl rfl hread
  obtain ⟨resolved, c, keeps, hsettle⟩ := h.exists_settle hreadShaped titled hstatements st
  have hload : load db st {} ws.output =
      { resolved.indexDistinctVars.measureLevels with cursor := c } := by
    unfold load
    dsimp only
    rw [hread, ok_bind, hsettle]
    rfl
  rw [hload]
  refine ⟨keeps.broken.trans hbroken, ?_⟩
  -- laid out and measured, the statements that were read show what the others show
  have hlevels : Levels.of resolved.statements = Levels.of ws.statements := by
    rw [keeps.statements, levels_respanFrom, levels_of_asRead hstatements]
  calc (resolved.measureLevels.statements).map Statement.shown
      = resolved.statements.map fun s =>
          (s.mapStep (Levels.of resolved.statements).record).shown := List.map_map ..
    _ = (respanFrom 0 0 ws.statements).map fun s =>
          (s.mapStep (Levels.of ws.statements).record).shown := by
        rw [hlevels, keeps.statements, shown_of_asRead _ hstatements]
    _ = (ws.statements.map (·.mapStep (Levels.of ws.statements).record)).map Statement.shown := by
        rw [h.placed, List.map_map]
        rfl
    _ = ws.statements.map Statement.shown := by rw [h.levelled.measured]

/-- Text and worksheet never drift apart: a worksheet that loads cleanly from a text without odd
blanks is loaded again from its output after any calls, as long as the edits that are granted write
what can be read back. -/
theorem reload_afterCalls {request : Request} {text : Text}
    (blanks : ∀ x ∈ text, isBlank x = true → isSeparator x = true)
    (clean : (load db st request text).broken = false) (calls : List Call)
    (plain : ∀ p ∈ (load db st request text).grantedBy calls, p.2.IsPlain p.1) :
    (load db st {} ((load db st request text).afterCalls calls).output).broken = false ∧
      (load db st {} ((load db st request text).afterCalls calls).output).statements.map
          Statement.shown =
        ((load db st request text).afterCalls calls).statements.map Statement.shown := by
  obtain ⟨proved, hshaped⟩ := shaped_afterCalls clean calls
  exact (agrees_afterCalls blanks clean calls plain).reload hshaped st

/-- Calls that renumber the steps of the short worksheet, add a step, and change its label and the
last formula. -/
def shortCalls : List Call :=
  [.renumber 10,
    .edits {} [.insertStep .qed [.number 10] none ⟨[['p'], ['q']]⟩, .setRef (.number 21) ['x'],
      .setFormula .qed ⟨[['|', '-'], ['s']]⟩, .placeCursor .qed .ref],
    .renumber 5]

theorem reload_afterCalls_shortText :
    (∀ x ∈ shortText, isBlank x = true → isSeparator x = true) ∧
      (load .empty {} {} shortText).broken = false ∧
      (∀ p ∈ (load .empty {} {} shortText).grantedBy shortCalls, p.2.IsPlain p.1) ∧
      (load .empty {} {} ((load .empty {} {} shortText).afterCalls shortCalls).output).broken =
        false ∧
      (load .empty {} {} ((load .empty {} {} shortText).afterCalls
          shortCalls).output).statements.map Statement.shown =
        ((load .empty {} {} shortText).afterCalls shortCalls).statements.map Statement.shown := by
  have blanks : ∀ x ∈ shortText, isBlank x = true → isSeparator x = true := by
    have hall : (shortText.filter isBlank).all isSeparator = true := by decide +kernel
    intro x hx hblank
    exact List.all_eq_true.mp hall x (List.mem_filter.mpr ⟨hx, hblank⟩)
  have plain : ∀ p ∈ (load .empty {} {} shortText).grantedBy shortCalls, p.2.IsPlain p.1 := by
    decide +kernel
  exact ⟨blanks, shortText_loads, plain,
    reload_afterCalls blanks shortText_loads shortCalls plain⟩

end Worksheet

end ProofSheet
