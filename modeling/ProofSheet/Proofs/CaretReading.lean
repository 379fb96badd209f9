import ProofSheet.Proofs.Output

set_option autoImplicit false

/-! # The caret while a text is read

Each statement that is read is offered to the cursor with its span in the text, and the cursor
takes the first one that has the caret (`Cursor.meetAll`). The spans follow each other from the
first token to the end of the text (`StandFrom`), so a caret between the two is in exactly one
statement, and the cursor is bound to that one (`Worksheet.readText_meets`).
-/

namespace ProofSheet

/-! ## Cursors -/

namespace Cursor

/-- The cursor is bound to a field of the statement with an id. -/
structure BoundTo (c : Cursor) (id : StatementId) (field : Field) : Prop where
  statement : c.statement? = some id
  field : c.field? = some field

theorem boundTo_of_target {c : Cursor} {id : StatementId} {field : Field} {index generation : Nat}
    (h : c.target = some (.statement id field index generation)) : c.BoundTo id field := by
  constructor
  · rw [statement?, h]
  · rw [field?, h]

theorem BoundTo.target {c : Cursor} {id : StatementId} {field : Field} (h : c.BoundTo id field) :
    ∃ index generation, c.target = some (.statement id field index generation) := by
  obtain ⟨hid, hfield⟩ := h
  unfold statement? at hid
  unfold field? at hfield
  split at hid
  · next htarget =>
      rw [htarget] at hfield
      cases hid
      cases hfield
      exact ⟨_, _, htarget⟩
  · cases hid

theorem offer_of_set {c : Cursor} (h : c.isSet = true) (target : CursorTarget) :
    c.offer target = c := by
  obtain ⟨t, ht⟩ := Option.isSome_iff_exists.mp h
  obtain ⟨caret, target'⟩ := c
  cases ht
  rfl

theorem offer_of_unset {c : Cursor} (h : c.target = none) (target : CursorTarget) :
    (c.offer target).target = some target := by
  rw [offer, h]
  rfl

end Cursor

/-! ## Statements that stand one after the other -/

namespace Statement

/-- The caret at an offset is in the statement: within its text, or at the end if it is the
footer. -/
def HasCaret (s : Statement) (k : Nat) : Prop :=
  s.start ≤ k ∧ (k < s.stop ∨ s.isFooter = true ∧ k = s.stop)

theorem caretIn_iff {s : Statement} {k : Nat} :
    Worksheet.caretIn s s.isFooter k = true ↔ s.HasCaret k := by
  simp [Worksheet.caretIn, HasCaret]

end Statement

/-- Each statement is held to begin where the one before it ends, and the first at an offset. -/
def RunFrom : Nat → List Statement → Prop
  | _, [] => True
  | o, s :: rest => s.start = o ∧ RunFrom s.stop rest

namespace RunFrom

variable {o : Nat} {ss ss' before after : List Statement} {s : Statement}

theorem start (h : RunFrom o (before ++ s :: after)) :
    s.start = o + (before.flatMap Statement.text).length := by
  induction before generalizing o with
  | nil => exact h.1
  | cons b before ih =>
      rw [ih h.2, Statement.stop, h.1, List.flatMap_cons, List.length_append, Nat.add_assoc]

theorem concat (h : RunFrom o ss) (hs : s.start = o + (ss.flatMap Statement.text).length) :
    RunFrom o (ss ++ [s]) := by
  induction ss generalizing o with
  | nil => exact ⟨hs, trivial⟩
  | cons t rest ih =>
      refine ⟨h.1, ih h.2 ?_⟩
      rw [hs, Statement.stop, h.1, List.flatMap_cons, List.length_append, Nat.add_assoc]

theorem congr (h : RunFrom o ss)
    (alike : List.Forall₂ (fun s s' => s'.start = s.start ∧ s'.text = s.text) ss ss') :
    RunFrom o ss' := by
  induction alike generalizing o with
  | nil => trivial
  | @cons s s' _ _ same _ ih =>
      obtain ⟨hstart, htext⟩ := same
      have hstop : s'.stop = s.stop := by rw [Statement.stop, Statement.stop, hstart, htext]
      exact ⟨hstart.trans h.1, hstop ▸ ih h.2⟩

end RunFrom

theorem runFrom_respanFrom (o line : Nat) (ss : List Statement) :
    RunFrom o (respanFrom o line ss) := by
  induction ss generalizing o line with
  | nil => trivial
  | cons s rest ih => exact ⟨rfl, ih _ _⟩

/-- The statements stand one after the other from an offset on, and the last is the footer. -/
def StandFrom : Nat → List Statement → Prop
  | _, [] => True
  | o, s :: rest => s.start = o ∧ (s.isFooter = true ↔ rest = []) ∧ StandFrom s.stop rest

namespace StandFrom

variable {o k : Nat} {ss before after : List Statement} {s : Statement}

theorem runFrom (h : StandFrom o ss) : RunFrom o ss := by
  induction ss generalizing o with
  | nil => trivial
  | cons s rest ih => exact ⟨h.1, ih h.2.2⟩

theorem start (h : StandFrom o ss) (hss : ss = before ++ s :: after) :
    s.start = o + (before.flatMap Statement.text).length := by
  subst hss
  exact h.runFrom.start

/-- A caret in one of the statements is not before the first. -/
theorem le_of_hasCaret (h : StandFrom o ss) (hs : s ∈ ss) (hk : s.HasCaret k) : o ≤ k := by
  obtain ⟨before, after, hss⟩ := List.append_of_mem hs
  have hstart := h.start hss
  exact (hstart ▸ Nat.le_add_right _ _).trans hk.1

/-- A caret in a later statement is not in the first one. -/
theorem not_hasCaret_head {t : Statement} {rest : List Statement} (h : StandFrom o (s :: rest))
    (ht : t ∈ rest) (hk : t.HasCaret k) : ¬ s.HasCaret k := by
  obtain ⟨-, hfooter, hrest⟩ := h
  rintro ⟨-, hlt | ⟨hlast, -⟩⟩
  · exact Nat.not_lt.mpr (hrest.le_of_hasCaret ht hk) hlt
  · rw [hfooter.mp hlast] at ht
    cases ht

/-- A caret is in one of the statements at most. -/
theorem hasCaret_unique {t : Statement} (h : StandFrom o ss) (hs : s ∈ ss) (ht : t ∈ ss)
    (hsk : s.HasCaret k) (htk : t.HasCaret k) : s = t := by
  induction ss generalizing o with
  | nil => cases hs
  | cons u rest ih =>
      rcases List.mem_cons.mp hs with rfl | hs'
      · rcases List.mem_cons.mp ht with rfl | ht'
        · rfl
        · exact absurd hsk (h.not_hasCaret_head ht' htk)
      · rcases List.mem_cons.mp ht with rfl | ht'
        · exact absurd htk (h.not_hasCaret_head hs' hsk)
        · exact ih h.2.2 hs' ht'

/-- An offset is in one of the statements if it is between the start of the first and the end of
the last. -/
theorem exists_hasCaret_iff (h : StandFrom o ss) (hne : ss ≠ []) :
    (∃ s ∈ ss, s.HasCaret k) ↔ o ≤ k ∧ k ≤ o + (ss.flatMap Statement.text).length := by
  constructor
  · rintro ⟨s, hs, hk⟩
    obtain ⟨before, after, hss⟩ := List.append_of_mem hs
    have hstart := h.start hss
    have hstop : k ≤ s.stop := by
      obtain ⟨-, hlt | ⟨-, heq⟩⟩ := hk
      · exact hlt.le
      · exact heq.le
    refine ⟨h.le_of_hasCaret hs hk, hstop.trans ?_⟩
    rw [Statement.stop, hstart, hss, List.flatMap_append, List.flatMap_cons, List.length_append,
      List.length_append]
    omega
  · rintro ⟨hle, hend⟩
    induction ss generalizing o with
    | nil => exact absurd rfl hne
    | cons s rest ih =>
        obtain ⟨hstart, hfooter, hrest⟩ := h
        by_cases hlt : k < s.stop
        · exact ⟨s, List.mem_cons_self, hstart ▸ hle, Or.inl hlt⟩
        have hstop : s.stop ≤ k := Nat.not_lt.mp hlt
        by_cases hnil : rest = []
        · -- the end of the text belongs to the footer
          have heq : k = s.stop := by
            refine Nat.le_antisymm ?_ hstop
            rw [Statement.stop, hstart]
            simpa [hnil] using hend
          exact ⟨s, List.mem_cons_self, hstart ▸ hle, Or.inr ⟨hfooter.mpr hnil, heq⟩⟩
        · rw [List.flatMap_cons, List.length_append, ← Nat.add_assoc, ← hstart] at hend
          obtain ⟨t, ht, hk⟩ := ih hrest hnil hstop hend
          exact ⟨t, List.mem_cons_of_mem _ ht, hk⟩

end StandFrom

/-! ## The statements that a cursor meets -/

/-- The cursor after it has been offered a statement. -/
def Cursor.meet (c : Cursor) (s : Statement) (index generation : Nat) : Cursor :=
  match c.caret with
  | none => c
  | some k =>
    if Worksheet.caretIn s s.isFooter k then
      c.offer (.statement s.id (s.fieldAt (k - s.start)) index generation)
    else c

/-- The cursor after it has been offered some statements, the first of which has an index. -/
def Cursor.meetAll (generation : Nat) (c : Cursor) : Nat → List Statement → Cursor
  | _, [] => c
  | index, s :: rest => (c.meet s index generation).meetAll generation (index + 1) rest

namespace Cursor

variable {c : Cursor} {generation index o k : Nat} {ss : List Statement} {s : Statement}

theorem meet_of_set (h : c.isSet = true) : c.meet s index generation = c := by
  unfold meet
  split
  · rfl
  split
  · exact offer_of_set h _
  · rfl

theorem meet_of_unmet (h : ∀ k ∈ c.caret, ¬ s.HasCaret k) : c.meet s index generation = c := by
  unfold meet
  split
  · rfl
  next k hk =>
  exact if_neg fun hin => h k hk (Statement.caretIn_iff.mp hin)

theorem meet_of_met (hunset : c.target = none) (hk : c.caret = some k) (hcaret : s.HasCaret k) :
    (c.meet s index generation).target =
      some (.statement s.id (s.fieldAt (k - s.start)) index generation) := by
  unfold meet
  simp only [hk]
  rw [if_pos (Statement.caretIn_iff.mpr hcaret), offer_of_unset hunset]

theorem caret_meet : (c.meet s index generation).caret = c.caret := by
  unfold meet
  split
  · rfl
  split
  · rfl
  · rfl

theorem caret_meetAll : (c.meetAll generation index ss).caret = c.caret := by
  induction ss generalizing c index with
  | nil => rfl
  | cons s rest ih => rw [meetAll, ih, caret_meet]

theorem meetAll_of_set (h : c.isSet = true) : c.meetAll generation index ss = c := by
  induction ss generalizing index with
  | nil => rfl
  | cons s rest ih => rw [meetAll, meet_of_set h, ih]

/-- A cursor whose caret is in none of the statements stays as it is. -/
theorem meetAll_of_unmet (h : ∀ k ∈ c.caret, ∀ s ∈ ss, ¬ s.HasCaret k) :
    c.meetAll generation index ss = c := by
  induction ss generalizing index with
  | nil => rfl
  | cons s rest ih =>
      rw [meetAll, meet_of_unmet fun k hk => h k hk s List.mem_cons_self]
      exact ih fun k hk t ht => h k hk t (List.mem_cons_of_mem _ ht)

/-- A cursor that is not set is bound to the statement that has its caret. -/
theorem meetAll_of_met (hunset : c.target = none) (hk : c.caret = some k)
    (stand : StandFrom o ss) (hs : s ∈ ss) (hcaret : s.HasCaret k) :
    (c.meetAll generation index ss).BoundTo s.id (s.fieldAt (k - s.start)) := by
  induction ss generalizing o index with
  | nil => cases hs
  | cons t rest ih =>
      rw [meetAll]
      rcases List.mem_cons.mp hs with rfl | hmem
      · have hmet : (c.meet s index generation).target = _ := meet_of_met hunset hk hcaret
        rw [meetAll_of_set (by rw [isSet, hmet]; rfl)]
        exact boundTo_of_target hmet
      · -- the caret is in a later statement, so it is not in this one
        have hother : ∀ k' ∈ c.caret, ¬ t.HasCaret k' := by
          intro k' hk'
          obtain rfl : k = k' := Option.some.inj (hk.symm.trans hk')
          exact stand.not_hasCaret_head hmem hcaret
        rw [meet_of_unmet hother]
        exact ih stand.2.2 hmem

/-- A cursor that is not set is bound to the statement that has its caret, or stays as it is. -/
theorem meetAll_cases (generation index : Nat) (hunset : c.target = none)
    (stand : StandFrom o ss) :
    (∃ k ∈ c.caret, ∃ s ∈ ss, s.HasCaret k ∧
        (c.meetAll generation index ss).BoundTo s.id (s.fieldAt (k - s.start))) ∨
      c.meetAll generation index ss = c := by
  by_cases hmet : ∃ k ∈ c.caret, ∃ s ∈ ss, s.HasCaret k
  · obtain ⟨k, hk, s, hs, hcaret⟩ := hmet
    exact Or.inl ⟨k, hk, s, hs, hcaret, meetAll_of_met hunset hk stand hs hcaret⟩
  · exact Or.inr (meetAll_of_unmet fun k hk s hs hcaret => hmet ⟨k, hk, s, hs, hcaret⟩)

end Cursor

/-! ## One statement -/

namespace Worksheet

variable {ws ws' ws₁ : Worksheet} {b : Block} {last : Bool} {db : Database} {st : Settings}

/-- A statement that is read is offered to the cursor. -/
def Offers (ws : Worksheet) (last : Bool) : Reading → Prop
  | .ok ws' => ∃ s, ws'.statements = ws.statements ++ [s] ∧ ws'.cursor = ws.meetCaret s last ∧
      ws'.generation = ws.generation
  | .error _ => True

theorem offers_append (ws : Worksheet) (hstatements : ws₁.statements = ws.statements)
    (hcursor : ws₁.cursor = ws.cursor) (hgeneration : ws₁.generation = ws.generation)
    (c : Content) : ws.Offers last (.ok (ws₁.append b last c)) := by
  refine ⟨b.toStatement ws₁.nextId c, ?_, ?_, hgeneration⟩
  · rw [append, hstatements]
  · show ws₁.meetCaret _ last = ws.meetCaret _ last
    rw [meetCaret, meetCaret, hstatements, hcursor, hgeneration]

theorem offers_readHeader : ws.Offers last (ws.readHeader db b last) := by
  unfold readHeader
  split
  · trivial
  split
  · trivial
  dsimp only
  split
  · trivial
  split
  · exact offers_append ws rfl rfl rfl _
  split
  · exact offers_append ws rfl rfl rfl _
  split
  · exact offers_append ws rfl rfl rfl _
  · trivial

theorem offers_readFooter : ws.Offers last (ws.readFooter b last) := by
  unfold readFooter
  split
  · trivial
  split
  · trivial
  · exact offers_append ws rfl rfl rfl _

theorem offers_readDistinctVars : ws.Offers last (ws.readDistinctVars b last) := by
  unfold readDistinctVars
  split
  · trivial
  split
  · trivial
  · exact offers_append ws rfl rfl rfl _

theorem offers_readGeneratedProof : ws.Offers last (ws.readGeneratedProof b last) := by
  unfold readGeneratedProof
  split
  · trivial
  split
  · trivial
  split
  · trivial
  · exact offers_append ws rfl rfl rfl _

theorem offers_readHypothesis : ws.Offers last (ws.readHypothesis st b last) := by
  unfold readHypothesis
  split
  · trivial
  split
  · trivial
  split
  · trivial
  next hadmit =>
  obtain ⟨-, -, -, rfl⟩ := admitStep_eq_ok.mp hadmit
  split
  · trivial
  split
  · trivial
  split
  · trivial
  dsimp only
  obtain ⟨ms, hms⟩ := noteHypothesis_eq st _ b _
  rw [hms]
  exact offers_append ws rfl rfl rfl _

theorem offers_readDerivation : ws.Offers last (ws.readDerivation st b last) := by
  unfold readDerivation
  split
  · trivial
  split
  · trivial
  next hadmit =>
  obtain ⟨-, -, -, rfl⟩ := admitStep_eq_ok.mp hadmit
  split
  · trivial
  split
  · trivial
  dsimp only
  obtain ⟨ms, hms⟩ := noteFormulaType_eq st _ _ b.body
  rw [hms]
  exact offers_append ws rfl rfl rfl _

/-- A statement of any kind is offered to the cursor. -/
theorem offers_readBlock (db : Database) (st : Settings) (ws : Worksheet) (b : Block)
    (last : Bool) : ws.Offers last (ws.readBlock db st b last) := by
  unfold readBlock
  dsimp only
  split
  · exact offers_readHeader
  split
  · exact offers_readFooter
  split
  · exact offers_readGeneratedProof
  split
  · exact offers_readDistinctVars
  split
  · exact offers_append ws rfl rfl rfl _
  split
  · exact offers_readHypothesis
  split
  · exact offers_readDerivation
  · trivial

/-! ## A text -/

/-- The statement of a chunk has the text of the chunk. -/
theorem text_toStatement (chunk : Chunk) (p : Place) (id : StatementId) (c : Content) :
    ((chunk.block p).toStatement id c).text = chunk.text := by
  show chunk.lead ++ (chunk.block p).tail = _
  rw [Chunk.block_tail]
  rfl

/-- The statement that is offered to the cursor is the one that is read. -/
theorem Offers.extends {c : Content} (offered : ws.Offers last (.ok ws₁))
    (hextends : ws.Extends (b.toStatement ws.nextId c) ws₁) :
    ws₁.cursor = ws.meetCaret (b.toStatement ws.nextId c) last ∧
      ws₁.generation = ws.generation := by
  obtain ⟨s, hadded, hcursor, hgeneration⟩ := offered
  obtain rfl : s = b.toStatement ws.nextId c := by
    rw [hextends.statements] at hadded
    simpa using hadded.symm
  exact ⟨hcursor, hgeneration⟩

/-- Statements that are read from the blocks of chunks stand one after the other, and the cursor
meets them all. -/
theorem readBlocks_meets {p : Place} {cs : List Chunk}
    (h : ws.readBlocks db st (blocksFrom p cs) = .ok ws') :
    ∃ new, ws'.statements = ws.statements ++ new ∧ new ≠ [] ∧ StandFrom p.offset new ∧
      ws'.cursor = ws.cursor.meetAll ws.generation ws.statements.length new := by
  induction cs generalizing p ws with
  | nil => cases h
  | cons chunk rest ih =>
      rw [blocksFrom] at h
      obtain ⟨ws₁, c, hb, -, ⟨-, hextends⟩, hnext⟩ := readBlocks_cons_ok h
      have offers := offers_readBlock db st ws (chunk.block p)
        (blocksFrom (p.after chunk.text) rest).isEmpty
      rw [hb] at offers
      obtain ⟨hcursor, hgeneration⟩ := Offers.extends offers hextends
      have hadded := hextends.statements
      have hstop : ((chunk.block p).toStatement ws.nextId c).stop =
          (p.after chunk.text).offset := by
        rw [Place.offset_after, Statement.stop, text_toStatement]
        rfl
      generalize hs : (chunk.block p).toStatement ws.nextId c = s at hadded hcursor hstop
      have hstart : s.start = p.offset := by
        rw [← hs]
        rfl
      have hkind : s.isFooter = c.isFooter := by
        rw [← hs]
        rfl
      -- the reader takes the statement for the last exactly if it is the footer
      have hmet : s.isFooter = (blocksFrom (p.after chunk.text) rest).isEmpty →
          ws₁.cursor = ws.cursor.meet s ws.statements.length ws.generation := by
        intro hlast
        rw [hcursor, ← hlast]
        rfl
      obtain ⟨rfl, hnil, rfl⟩ | ⟨hopen, hne, h'⟩ := hnext
      · refine ⟨[s], hadded, List.cons_ne_nil _ _, ⟨hstart, ?_, trivial⟩, ?_⟩
        · exact iff_of_true hkind rfl
        · exact hmet (by rw [hkind, hnil]; rfl)
      · obtain ⟨new, hnew, hnewne, stand, hcursor'⟩ := ih h'
        refine ⟨s :: new, ?_, List.cons_ne_nil _ _, ⟨hstart, ?_, hstop ▸ stand⟩, ?_⟩
        · rw [hnew, hadded, List.append_assoc]
          rfl
        · exact iff_of_false (by simp [hkind, hopen]) hnewne
        · rw [hcursor', hmet (by rw [hkind, hopen]; simp [hne]), hadded, hgeneration,
            List.length_append]
          rfl

/-- The statements of a text that is read stand one after the other from the first token on, and the
cursor has met them all. -/
theorem readText_meets {text : Text} (hnil : ws.statements = [])
    (h : ws.readText db st text = .ok ws') :
    ws'.statements ≠ [] ∧ StandFrom (text.takeWhile isSeparator).length ws'.statements ∧
      ws'.cursor = ws.cursor.meetAll ws.generation 0 ws'.statements := by
  obtain ⟨t, ts, htokens, hstarts, -⟩ := starts_of_readText h
  obtain ⟨cs, -, -, hblocks⟩ := exists_chunks htokens hstarts
  replace h := readBlocks_of_readText h
  rw [hblocks] at h
  obtain ⟨new, hnew, hne, stand, hcursor⟩ := readBlocks_meets h
  rw [hnil, List.nil_append] at hnew
  rw [hnil, List.length_nil, ← hnew] at hcursor
  have hoffset : (Place.after {} (text.takeWhile isSeparator)).offset =
      (text.takeWhile isSeparator).length := (Place.offset_after {} _).trans (Nat.zero_add _)
  rw [hoffset] at stand
  rw [hnew]
  exact ⟨hne, stand, hnew ▸ hcursor⟩

end Worksheet

end ProofSheet
