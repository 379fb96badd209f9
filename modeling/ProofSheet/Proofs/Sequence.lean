import ProofSheet.Proofs.Citations

set_option autoImplicit false

/-! # Reading statements one after the other

A text is read block by block: each block becomes a statement with its text that says what the
block says (`Worksheet.readText_reads`). Conversely, blocks that say something are read if the
phases allow them in this order, the names of the steps are new, and the citations go backwards
(`Worksheet.Shaped.exists_readBlocks`).
-/

namespace ProofSheet

/-- The statement has the text of the block and says what the block says. -/
structure Statement.ReadFrom (db : Database) (b : Block) (s : Statement) : Prop where
  lead : s.lead = b.head.text
  tail : s.tail = b.tail
  said : Says db b.head.text b.words b.tail s.content

/-- A condition on the names of the steps before is one on the contents before. -/
theorem along_iff {P : List StepId → Content → Prop} {earlier : List StepId} {cs : List Content} :
    Along P earlier cs ↔
      EachAfter (fun before => P (earlier ++ before.filterMap Content.stepId?)) cs := by
  induction cs generalizing earlier with
  | nil => simp [Along, EachAfter]
  | cons c rest ih =>
      have hids : ∀ before : List Content, (c :: before).filterMap Content.stepId? =
          c.stepId?.toList ++ before.filterMap Content.stepId? := by
        intro before
        rw [List.filterMap_cons]
        cases c.stepId? <;> rfl
      simp only [along_cons, ih, eachAfter_cons, hids, List.append_assoc, List.filterMap_nil,
        List.append_nil]

/-- A text without tokens before its first block begins with the head of that block. -/
theorem tokens_of_blocks {text : Text} {b : Block} {bs : List Block}
    (hstray : (Block.group (tokens text)).1 = []) (hblocks : blocksOf text = b :: bs) :
    ∃ ts, tokens text = b.head :: ts ∧ b.head.startsStatement = true := by
  unfold blocksOf at hblocks
  cases htokens : tokens text with
  | nil =>
      rw [htokens] at hblocks
      cases hblocks
  | cons t ts =>
      rw [htokens] at hstray hblocks
      by_cases hstarts : t.startsStatement = true
      · rw [Block.group_cons_start hstarts, List.cons.injEq] at hblocks
        obtain ⟨rfl, -⟩ := hblocks
        exact ⟨ts, rfl, hstarts⟩
      · rw [Block.group] at hstray
        simp [hstarts] at hstray

namespace Worksheet

variable {ws ws' : Worksheet} {db : Database} {st : Settings} {p : Phase}

/-- Blocks that are read become statements, one by one. -/
theorem readBlocks_reads {bs : List Block} (h : ws.readBlocks db st bs = .ok ws') :
    ∃ new, ws'.statements = ws.statements ++ new ∧
      List.Forall₂ (Statement.ReadFrom db) bs new := by
  induction bs generalizing ws with
  | nil => cases h
  | cons b rest ih =>
      obtain ⟨ws₁, c, -, hsaid, ⟨-, hextends⟩, ⟨-, rfl, rfl⟩ | ⟨-, -, h'⟩⟩ := readBlocks_cons_ok h
      · exact ⟨_, hextends.statements, .cons ⟨rfl, rfl, hsaid⟩ .nil⟩
      · obtain ⟨new, hnew, hall⟩ := ih h'
        refine ⟨b.toStatement ws.nextId c :: new, ?_, .cons ⟨rfl, rfl, hsaid⟩ hall⟩
        rw [hnew, hextends.statements, List.append_assoc]
        rfl

/-- A text whose first token is in the first column and opens a header is read block by block. -/
theorem readText_eq {text : Text} {b : Block} {bs : List Block}
    (hstray : (Block.group (tokens text)).1 = []) (hblocks : blocksOf text = b :: bs)
    (hhead : b.head.text = Keyword.header) :
    ws.readText db st text = ws.readBlocks db st (b :: bs) := by
  obtain ⟨ts, htokens, hstarts⟩ := tokens_of_blocks hstray hblocks
  rw [← hblocks, blocksOf, htokens, readText, htokens]
  dsimp only
  rw [if_neg (by simp [hstarts]), if_neg (not_not.mpr hhead)]

/-- A text that is read has no tokens before its first block, and its blocks become statements,
one by one. -/
theorem readText_reads {text : Text} (h : ws.readText db st text = .ok ws') :
    (Block.group (tokens text)).1 = [] ∧
      ∃ new, ws'.statements = ws.statements ++ new ∧
        List.Forall₂ (Statement.ReadFrom db) (blocksOf text) new := by
  obtain ⟨t, ts, htokens, hstarts, -⟩ := starts_of_readText h
  refine ⟨?_, readBlocks_reads (readBlocks_of_readText h)⟩
  rw [htokens, Block.group_cons_start hstarts]

/-- Blocks that say something are read, if the phases allow it in this order, the names of the
steps are new, and citations go backwards. -/
theorem Shaped.exists_readBlocks {bs : List Block} {cs : List Content} {proved : Bool}
    (st : Settings) (h : ws.Shaped p) (hopen : p.isClosed = false)
    (hsaid : List.Forall₂ (fun b => Says db b.head.text b.words b.tail) bs cs)
    (hphase : p.after cs = some (.closed proved))
    (nodup : (ws.stepIds ++ cs.filterMap Content.stepId?).Nodup)
    (hcites : Along CitesEarlier ws.stepIds cs) :
    ∃ ws' new, ws.readBlocks db st bs = .ok ws' ∧ ws'.broken = ws.broken ∧
      ws'.statements = ws.statements ++ new ∧ new.map Statement.content = cs ∧
      List.Forall₂ (Statement.ReadFrom db) bs new := by
  induction hsaid generalizing ws p with
  | nil =>
      cases hphase
      cases hopen
  | @cons b c bs cs hc hrest ih =>
      rw [Phase.after, Option.bind_eq_some_iff] at hphase
      obtain ⟨p', hnext, hphase'⟩ := hphase
      rw [along_cons] at hcites
      obtain ⟨hcite, hcites'⟩ := hcites
      have hids : ws.stepIds ++ (c :: cs).filterMap Content.stepId? =
          ws.stepIds ++ c.stepId?.toList ++ cs.filterMap Content.stepId? := by
        rw [List.append_assoc, List.filterMap_cons]
        cases c.stepId? <;> rfl
      have fresh : ∀ id, c.stepId? = some id → id ∉ ws.stepIds := by
        intro id hfound hmem
        rw [List.filterMap_cons_some hfound, List.nodup_append] at nodup
        exact nodup.2.2 id hmem id List.mem_cons_self rfl
      -- the phase, the fresh name and the citations are all that the reader asks for
      obtain ⟨ws₁, hread, hextends⟩ :=
        exists_readBlock st bs.isEmpty hc (h.admits_of_next hnext fresh hcite)
      have hshaped := h.read hc hextends hnext
      have hids₁ : ws₁.stepIds = ws.stepIds ++ c.stepId?.toList := hextends.stepIds
      obtain ⟨-, -, -, -, hclosed⟩ := Phase.next_tells hnext
      rw [hopen, Bool.false_or] at hclosed
      rw [readBlocks, hread]
      dsimp only
      by_cases hfooter : b.head.text = Keyword.footer
      · -- nothing follows a footer
        rw [hc.isFooter_iff.mpr hfooter] at hclosed
        obtain rfl := Phase.eq_nil_of_closed hclosed hphase'
        cases hrest
        rw [if_pos hfooter]
        exact ⟨ws₁, _, rfl, hextends.broken, hextends.statements, rfl, .cons ⟨rfl, rfl, hc⟩ .nil⟩
      · have hopen' : p'.isClosed = false := by
          rw [hclosed, Bool.eq_false_iff]
          exact fun hc' => hfooter (hc.isFooter_iff.mp hc')
        rw [hids, ← hids₁] at nodup
        rw [← hids₁] at hcites'
        rw [if_neg hfooter]
        obtain ⟨ws₂, new, hread₂, hbroken, hstatements, hcontents, hall⟩ :=
          ih hshaped hopen' hphase' nodup hcites'
        refine ⟨ws₂, b.toStatement ws.nextId c :: new, hread₂, hbroken.trans hextends.broken, ?_,
          ?_, .cons ⟨rfl, rfl, hc⟩ hall⟩
        · rw [hstatements, hextends.statements, List.append_assoc]
          rfl
        · rw [List.map_cons, hcontents]
          rfl

end Worksheet

end ProofSheet
