import ProofSheet.Proofs.Output
import ProofSheet.Proofs.Reports

set_option autoImplicit false

/-! # Loading loses no text

A statement has the text of its block, and a text consists of its blocks, apart from the separators
in front (`flatMap_text_blocksOf`). A reading that stops has read the blocks before the one at which
it stops (`Worksheet.readText_stops`). Where no lead has a `#` there are no local references, and
then nothing that is settled after reading touches a text (`Worksheet.output_settle`). So the output
of a loaded worksheet is the text that was loaded, or the beginning of it if there was a fault
(`Worksheet.output_load`).
-/

namespace ProofSheet

variable {db : Database} {st : Settings}

/-! ## The texts of blocks -/

/-- The text of a block. -/
def Block.text (b : Block) : Text := b.head.text ++ b.tail

theorem Block.text_eq (b : Block) : b.text = (b.head :: b.body).flatMap Token.written := by
  rw [Block.text, Block.tail, List.flatMap_cons, Token.written, List.append_assoc]

theorem Statement.ReadFrom.text {b : Block} {s : Statement} (h : s.ReadFrom db b) :
    s.text = b.text := by
  rw [Statement.text, Block.text, h.lead, h.tail]

/-- Statements that are read have the texts of their blocks. -/
theorem flatMap_text_of_reads {bs : List Block} {ss : List Statement}
    (h : List.Forall₂ (Statement.ReadFrom db) bs ss) :
    ss.flatMap Statement.text = bs.flatMap Block.text := by
  induction h with
  | nil => rfl
  | cons hs _ ih => rw [List.flatMap_cons, List.flatMap_cons, hs.text, ih]

/-- The blocks make up the text from its first token on, if that is in the first column. -/
theorem flatMap_text_blocksOf {text : Text} (hstray : (Block.group (tokens text)).1 = []) :
    (blocksOf text).flatMap Block.text = text.dropWhile isSeparator := by
  have hall := group_tokens (tokens text)
  rw [hstray, List.nil_append] at hall
  rw [← written_tokens text, ← hall, List.flatMap_assoc, blocksOf]
  exact List.flatMap_congr fun b _ => b.text_eq

/-- The head of a block is a token in the first column. -/
theorem startsStatement_of_group {ts : List Token} {b : Block} (hb : b ∈ (Block.group ts).2) :
    b.head.startsStatement = true := by
  induction ts with
  | nil => cases hb
  | cons t rest ih =>
      by_cases hstarts : t.startsStatement = true
      · rw [Block.group_cons_start hstarts] at hb
        rcases List.mem_cons.mp hb with rfl | hb
        · exact hstarts
        · exact ih hb
      · simp only [Block.group, hstarts] at hb
        exact ih hb

theorem mem_blocksOf {text : Text} {b : Block} (hb : b ∈ blocksOf text) :
    b.head ∈ tokens text ∧ b.head.startsStatement = true :=
  ⟨tokens_subset_of_mem_blocksOf hb b.head_mem, startsStatement_of_group hb⟩

/-! ## Where a reading stops -/

namespace Worksheet

variable {ws ws' : Worksheet} {stop : Stop}

/-- A reading that stops has read some blocks, one statement for each. -/
theorem readBlocks_stops {bs : List Block} (h : ws.readBlocks db st bs = .error stop) :
    ∃ done rest new, bs = done ++ rest ∧ stop.sheet.statements = ws.statements ++ new ∧
      List.Forall₂ (Statement.ReadFrom db) done new := by
  induction bs generalizing ws with
  | nil =>
      cases h
      exact ⟨[], [], [], rfl, (List.append_nil _).symm, .nil⟩
  | cons b rest ih =>
      rw [readBlocks] at h
      have block := reports_readBlock db st ws b rest.isEmpty
      cases hb : ws.readBlock db st b rest.isEmpty with
      | error stop' =>
          simp only [hb] at h
          cases h
          -- the block at which the reading stops leaves no statement
          rw [hb] at block
          refine ⟨[], b :: rest, [], rfl, ?_, .nil⟩
          rw [block.2.2, List.append_nil]
      | ok ws₁ =>
          simp only [hb] at h
          obtain ⟨c, hsaid, -, hextends⟩ := readBlock_ok hb
          have hread : Statement.ReadFrom db b (b.toStatement ws.nextId c) := ⟨rfl, rfl, hsaid⟩
          by_cases hfooter : b.head.text = Keyword.footer
          · rw [if_pos hfooter] at h
            cases rest with
            | nil => cases h
            | cons extra rest =>
                cases h
                exact ⟨[b], extra :: rest, _, rfl, hextends.statements, .cons hread .nil⟩
          · rw [if_neg hfooter] at h
            obtain ⟨done, rest', new, rfl, hnew, hall⟩ := ih h
            refine ⟨b :: done, rest', _ :: new, rfl, ?_, .cons hread hall⟩
            rw [hnew, hextends.statements, List.append_assoc]
            rfl

/-- A reading that stops has read the beginning of the text. -/
theorem readText_stops {text : Text} (hnil : ws.statements = [])
    (h : ws.readText db st text = .error stop) :
    stop.sheet.output <+: text.dropWhile isSeparator := by
  have nothing : ∀ {sheet : Worksheet}, sheet.statements = [] →
      sheet.output <+: text.dropWhile isSeparator := by
    intro sheet hsheet
    rw [output, hsheet]
    exact List.nil_prefix
  unfold readText at h
  split at h
  · cases h
    exact nothing hnil
  · next first rest htokens =>
      split at h
      · cases h
        exact nothing hnil
      · next hstarts =>
          split at h
          · cases h
            exact nothing hnil
          · obtain ⟨done, rest', new, hblocks, hnew, hall⟩ := readBlocks_stops h
            have hstray : (Block.group (tokens text)).1 = [] := by
              rw [htokens, Block.group_cons_start (by simpa using hstarts)]
            rw [← htokens, ← blocksOf] at hblocks
            rw [← flatMap_text_blocksOf hstray, hblocks, List.flatMap_append, output, hnew, hnil,
              List.nil_append, flatMap_text_of_reads hall]
            exact List.prefix_append _ _

/-- A text that is read is the output of what was read. -/
theorem output_readText {text : Text} (hnil : ws.statements = [])
    (h : ws.readText db st text = .ok ws') : ws'.output = text.dropWhile isSeparator := by
  obtain ⟨hstray, new, hnew, hall⟩ := readText_reads h
  rw [output, hnew, hnil, List.nil_append, flatMap_text_of_reads hall,
    flatMap_text_blocksOf hstray]

end Worksheet

/-! ## Leads without local references -/

/-- A lead without a `#` has no local references. -/
theorem Spells.isSettled {lead tail : Text} {words : List Text} {d : Derivation}
    (h : Spells db lead words tail (.derivation d)) (plain : '#' ∉ lead) : d.IsSettled := by
  cases h with
  | @derivation lead tail words f id hyps reference hlead hfields hid hhyps href =>
      have piece : ∀ {pieces : List Text}, Pieces ':' lead pieces → ∀ p ∈ pieces, '#' ∉ p := by
        rintro pieces hpieces p hp hmem
        rw [← pieces_iff.mp hpieces] at hp
        exact plain (mem_of_mem_splitOn hp hmem).1
      obtain ⟨no_hyps, no_ref⟩ : '#' ∉ f.hyps ∧ '#' ∉ f.ref := by
        cases hfields with
        | step hp => exact ⟨List.not_mem_nil, List.not_mem_nil⟩
        | hyps hp _ => exact ⟨piece hp _ (by simp), List.not_mem_nil⟩
        | @localRef step target hp =>
            exact absurd List.mem_cons_self (piece hp ('#' :: target) (by simp))
        | all hp => exact ⟨piece hp _ (by simp), piece hp _ (by simp)⟩
      constructor
      · cases href with
        | label => rfl
        | localRef heq =>
            rw [heq] at no_ref
            exact absurd List.mem_cons_self no_ref
      · intro target htarget
        cases hhyps with
        | none => cases htarget
        | @entries entries hyps given hp each =>
            obtain ⟨entry, hentry, hspells⟩ := exists_mem_of_forall₂ each htarget
            cases hspells with
            | localRef heq =>
                have hmem : '#' ∈ entry := mem_of_mem_trim (heq ▸ List.mem_cons_self)
                rw [← pieces_iff.mp hp] at hentry
                exact no_hyps (mem_of_mem_splitOn hentry hmem).1

namespace Worksheet

variable {ws ws' : Worksheet}

/-- Steps that are read from leads without a `#` refer to nothing by a local reference. -/
theorem settled_readText {text : Text}
    (plain : ∀ t ∈ tokens text, t.startsStatement = true → '#' ∉ t.text)
    (hnil : ws.statements = []) (h : ws.readText db st text = .ok ws') :
    ∀ s ∈ ws'.statements, ∀ d, s.content = .derivation d → d.IsSettled := by
  intro s hs d hd
  obtain ⟨b, hb, hlead, htail, hsaid⟩ := said_of_readText hnil h hs
  rw [hd] at hsaid
  have spelled := spells_iff_says.mpr hsaid
  obtain ⟨hmem, hstarts⟩ := mem_blocksOf hb
  exact spelled.isSettled (plain b.head hmem hstarts)

/-! ## Settling -/

theorem output_congr (h : ws'.statements = ws.statements) : ws'.output = ws.output := by
  rw [output, h, output]

/-- The step search looks for a step, and changes no statement. -/
theorem statements_selecting (selecting : Bool) (ws : Worksheet) :
    (ofReading (if selecting then ws.selectStep else .ok ws)).statements = ws.statements := by
  cases selecting with
  | false => rfl
  | true =>
      rw [if_pos rfl]
      unfold selectStep
      split
      · split
        · rfl
        · rfl
      · rfl

theorem statements_checkQed (ws : Worksheet) :
    (ofReading ws.checkQed).statements = ws.statements := by
  unfold checkQed
  split
  · rfl
  · rfl

theorem statements_checkHypothesisCount (db : Database) (ws : Worksheet) :
    (ofReading (ws.checkHypothesisCount db)).statements = ws.statements := by
  unfold checkHypothesisCount
  split
  · rfl
  · split
    · rfl
    · rfl

/-- Settling a worksheet without local references touches no text, whether or not it ends in a
fault. -/
theorem output_settle (selecting : Bool)
    (settled : ∀ s ∈ ws.statements, ∀ d, s.content = .derivation d → d.IsSettled) :
    (ofReading (ws.settle db st selecting)).output = ws.output := by
  rw [settle_eq]
  refine reading_bind (P := fun r => (ofReading r).output = ws.output)
    (output_congr (statements_selecting selecting ws)) fun chosen hchosen _ => ?_
  have hsame : chosen.statements = ws.statements := by
    rw [← statements_selecting selecting ws, hchosen]
    rfl
  rw [← hsame] at settled
  -- without local references the statements are only laid out
  obtain ⟨resolved, hresolve, keeps⟩ := resolveLocalRefs_of_settled settled
  have hresolved : resolved.output = ws.output := by
    rw [output, keeps.statements, hsame]
    exact output_respan ws
  rw [hresolve, ok_bind, ← hresolved]
  refine reading_bind (P := fun r => (ofReading r).output = resolved.output)
    (output_congr (statements_checkQed resolved)) fun checked hchecked _ => ?_
  obtain ⟨-, rfl⟩ := checkQed_eq_ok.mp hchecked
  refine reading_bind (P := fun r => (ofReading r).output = checked.output)
    (output_congr (statements_checkHypothesisCount db _)) fun counted hcounted _ => ?_
  obtain ⟨-, rfl⟩ := checkHypothesisCount_eq_ok.mp hcounted
  obtain ⟨c, hcursor⟩ := placeCursor_eq st.caretPlacement checked.indexDistinctVars.measureLevels
  rw [hcursor]
  exact output_measureLevels checked

/-- Loading loses no text, if no lead has a `#`: a worksheet that loads cleanly is written back as
it was read, without the separators in front, and a broken one is written back up to the fault. -/
theorem output_load (request : Request) {text : Text}
    (plain : ∀ t ∈ tokens text, t.startsStatement = true → '#' ∉ t.text) :
    ((load db st request text).broken = false →
        (load db st request text).output = text.dropWhile isSeparator) ∧
      ((load db st request text).broken = true →
        (load db st request text).output <+: text.dropWhile isSeparator) := by
  have hload : load db st request text =
      ofReading (readText db st { cursor := { caret := request.caret } } text >>=
        fun ws => ws.settle db st request.selectStep) := rfl
  cases hread : readText db st { cursor := { caret := request.caret } } text with
  | error stop =>
      rw [hread] at hload
      constructor
      · intro clean
        rw [hload] at clean
        cases clean
      · intro _
        rw [hload]
        exact readText_stops rfl hread
  | ok read =>
      rw [hread, ok_bind] at hload
      have hout : (load db st request text).output = text.dropWhile isSeparator := by
        rw [hload, output_settle request.selectStep (settled_readText plain rfl hread)]
        exact output_readText rfl hread
      exact ⟨fun _ => hout, fun _ => hout ▸ List.prefix_rfl⟩

/-- A worksheet with separators in front of it and at its end. -/
def looseText : Text :=
  "\n$( <MM> <PROOF_ASST> THEOREM=t LOC_AFTER=?\nh1::t.1 |- p\n  \nqed:1:a  |- q\n\n$)\n ".toList

theorem output_load_looseText :
    (∀ t ∈ tokens looseText, t.startsStatement = true → '#' ∉ t.text) ∧
      (load .empty {} {} looseText).broken = false ∧
      (load .empty {} {} looseText).output = looseText.dropWhile isSeparator := by
  have plain : ∀ t ∈ tokens looseText, t.startsStatement = true → '#' ∉ t.text := by
    decide +kernel
  have clean : (load .empty {} {} looseText).broken = false := by decide +kernel
  exact ⟨plain, clean, (output_load {} plain).1 clean⟩

end Worksheet

end ProofSheet
