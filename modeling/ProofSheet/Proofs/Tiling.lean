import ProofSheet.Proofs.Margins
import ProofSheet.Proofs.Output

set_option autoImplicit false

/-! # Statements tile the output

Each statement keeps the offset and the position at which it begins. These are right at all times:
the statements follow each other in the output without a gap, each but the last ends a line, and
each begins in the first column of the line that the line feeds before it count to
(`Worksheet.Tiled`).

All of this follows from two facts about the list of statements (`Worksheet.Laid`): laying the
statements out again changes nothing, and every tail but the last ends with a line feed. An edit
lays the statements out whenever it changes a text, and whatever it writes ends with a line feed
where the text before did.
-/

namespace ProofSheet

/-! ## Texts that end a line -/

/-- Every text but the last ends with a line feed. -/
def EndLines (ts : List Text) : Prop := ∀ t ∈ ts.dropLast, t.getLast? = some '\n'

/-- A text among others ends with a line feed if there are texts after it. -/
theorem endLines_split {ts us : List Text} {t : Text} :
    EndLines (ts ++ t :: us) ↔
      (∀ x ∈ ts, x.getLast? = some '\n') ∧ (us ≠ [] → t.getLast? = some '\n') ∧ EndLines us := by
  rw [EndLines, List.dropLast_append_cons, List.forall_mem_append]
  cases us with
  | nil => simp [EndLines]
  | cons u us => simp [EndLines]

theorem EndLines.exchange {ts us : List Text} {t t' : Text} (h : EndLines (ts ++ t :: us))
    (ends : t.getLast? = some '\n' → t'.getLast? = some '\n') : EndLines (ts ++ t' :: us) := by
  rw [endLines_split] at h ⊢
  exact ⟨h.1, fun hne => ends (h.2.1 hne), h.2.2⟩

theorem EndLines.insert {ts us : List Text} {t : Text} (h : EndLines (ts ++ us)) (hne : us ≠ [])
    (ends : t.getLast? = some '\n') : EndLines (ts ++ t :: us) := by
  obtain ⟨u, us, rfl⟩ := List.exists_cons_of_ne_nil hne
  obtain ⟨before, -⟩ := endLines_split.mp h
  have after : EndLines (u :: us) := fun x hx => h x (by simp [hx])
  exact endLines_split.mpr ⟨before, fun _ => ends, after⟩

theorem LaidOut.endLines {cs : List Chunk} (h : LaidOut cs) : EndLines (cs.map Chunk.tail) := by
  induction cs with
  | nil => exact fun t ht => (by cases ht)
  | cons c rest ih =>
      obtain ⟨-, ends, hrest⟩ := h
      have first : rest.map Chunk.tail ≠ [] → c.tail.getLast? = some '\n' :=
        fun hne => ends fun hnil => hne (by rw [hnil]; rfl)
      rw [List.map_cons, ← List.nil_append (_ :: _), endLines_split]
      exact ⟨fun t ht => (by cases ht), first, ih hrest⟩

namespace Statement

theorem text_getLast? {s : Statement} (h : s.tail.getLast? = some '\n') :
    s.text.getLast? = some '\n' := by
  rw [text, List.getLast?_append, h]
  rfl

/-- A statement that ends a line takes as many lines as it has line feeds. -/
theorem lineCount_of_endsLine {s : Statement} (h : s.text.getLast? = some '\n') :
    s.lineCount = lineFeeds s.text := by
  have hpos : 0 < lineFeeds s.text := List.count_pos_iff.mpr (List.mem_of_getLast? h)
  simp only [lineCount, h, Option.all_some, beq_self_eq_true, if_true]
  omega

/-- A new body leaves the end of a line in place. -/
theorem replaceBody_endsLine {s : Statement} (body : Text) (h : s.tail.getLast? = some '\n') :
    (s.replaceBody body).tail.getLast? = some '\n' := by
  have hending : (if (trailingBlanks s.tail).contains '\n' then trailingBlanks s.tail
      else ['\n']).getLast? = some '\n' := by
    split
    · exact getLast?_trailingBlanks h
    · rfl
  show (' ' :: body ++ _).getLast? = some '\n'
  rw [List.getLast?_append, hending]
  rfl

end Statement

namespace Worksheet

/-- What comes after the lead of a new statement ends a line if its text does. -/
theorem newStatement_endsLine (id : StatementId) (content : Content) {text : Text}
    (h : text.getLast? = some '\n') :
    (newStatement id content text).tail.getLast? = some '\n' := by
  have hsplit : (newStatement id content text).lead ++ (newStatement id content text).tail = text :=
    List.takeWhile_append_dropWhile
  have htext := h
  rw [← hsplit, List.getLast?_append, Option.or_eq_some_iff] at htext
  refine htext.resolve_right fun hlead => ?_
  -- a line feed is a blank, and there is none in a lead
  have hnot := List.mem_takeWhile_imp (List.mem_of_getLast? hlead.2)
  cases hnot

end Worksheet

theorem CompressedProof.layout_endsLine (p : CompressedProof) (width indent : Nat) :
    (p.layout width indent).getLast? = some '\n' := by
  have hlayout : p.layout width indent =
      linesText indent (Layout.ofProof (.of width indent) p).lines := Layout.render_eq _ _
  rw [hlayout]
  exact getLast?_linesText indent (by simp [Layout.lines])

/-! ## Statements that stand where they should -/

/-- The place of a statement that stands where it should. -/
theorem place_of_placed {before after : List Statement} {s : Statement} {offset line : Nat}
    (placed : respanFrom offset line (before ++ s :: after) = before ++ s :: after) :
    s.start = offset + (before.flatMap Statement.text).length ∧
      s.position = ⟨line + lineFeeds (before.flatMap Statement.text), 0⟩ := by
  induction before generalizing offset line with
  | nil =>
      rw [List.nil_append, respanFrom, List.cons.injEq] at placed
      rw [← placed.1]
      exact ⟨rfl, rfl⟩
  | cons b before ih =>
      rw [List.cons_append, respanFrom, List.cons.injEq] at placed
      obtain ⟨hstart, hposition⟩ := ih placed.2
      rw [hstart, hposition, List.flatMap_cons, List.length_append, lineFeeds_append]
      exact ⟨Nat.add_assoc .., by rw [Nat.add_assoc]⟩

namespace Worksheet

variable {ws ws' : Worksheet} {db : Database} {st : Settings}

/-- The statements stand where they should, and all but the last end a line. -/
structure Laid (ws : Worksheet) : Prop where
  placed : respanFrom 0 0 ws.statements = ws.statements
  ends : EndLines (ws.statements.map Statement.tail)

/-- Statements that have been laid out stand where they should. -/
theorem laid_of_respanned {ss : List Statement} (hss : ws.statements = respanFrom 0 0 ss)
    (ends : EndLines (ss.map Statement.tail)) : ws.Laid where
  placed := by rw [hss, respanFrom_respanFrom]
  ends := by
    rw [hss, map_respanFrom Statement.tail (fun _ _ _ => rfl)]
    exact ends

theorem Laid.congr (h : ws.Laid)
    (hspots : ws'.statements.map Statement.spot = ws.statements.map Statement.spot)
    (htails : ws'.statements.map Statement.tail = ws.statements.map Statement.tail) :
    ws'.Laid where
  placed := respanFrom_of_spots hspots h.placed
  ends := htails ▸ h.ends

theorem Laid.measureLevels (h : ws.Laid) : ws.measureLevels.Laid := by
  refine h.congr (map_spot_measureLevels ws) ?_
  rw [Worksheet.measureLevels, List.map_map]
  rfl

theorem Laid.renumber {interval changed : Nat} (h : ws.Laid)
    (granted : ws.renumber interval = .ok (ws', changed)) : ws'.Laid := by
  obtain ⟨-, -, rfl⟩ := renumber_ok granted
  refine laid_of_respanned rfl ?_
  rw [List.map_map]
  exact h.ends

/-- The statements are laid out after one of them has changed, if it still ends a line. -/
theorem Laid.ends_exchange (h : ws.Laid) {before after : List Statement} {s s' : Statement}
    (hss : ws.statements = before ++ s :: after)
    (ends : s.tail.getLast? = some '\n' → s'.tail.getLast? = some '\n') :
    EndLines ((before ++ s' :: after).map Statement.tail) := by
  have hends := h.ends
  rw [hss, List.map_append, List.map_cons] at hends
  rw [List.map_append, List.map_cons]
  exact hends.exchange ends

/-- The statements are laid out with one more of them that ends a line and is not the last. -/
theorem Laid.ends_insert (h : ws.Laid) {before after : List Statement} {s' : Statement}
    (hss : ws.statements = before ++ after) (hne : after ≠ [])
    (ends : s'.tail.getLast? = some '\n') :
    EndLines ((before ++ s' :: after).map Statement.tail) := by
  have hends := h.ends
  rw [hss, List.map_append] at hends
  rw [List.map_append, List.map_cons]
  exact hends.insert (by simpa using hne) ends

/-- A granted edit leaves the statements where they should stand. -/
theorem Laid.edit {proved : Bool} {e : Edit} (h : ws.Laid) (shaped : ws.Shaped (.closed proved))
    (granted : ws.applyEdit st e = .ok ws') : ws'.Laid := by
  -- the slot for a generated proof is never at the end, as the footer is there
  have slot_ne : ∀ {before after : List Statement}, ws.statements = before ++ after →
      ws.BeginsSlot after → after ≠ [] := by
    rintro before after hss hslot rfl
    obtain ⟨t, rest, p₁, p₂, hcons, -⟩ := shaped.slot hss hslot
    cases hcons
  have line_feed : ∀ t : Text, (t ++ ['\n']).getLast? = some '\n' := fun t => List.getLast?_concat
  cases e with
  | setRef step label =>
      obtain ⟨before, s, after, split, rfl⟩ := setRef_ok granted
      exact laid_of_respanned rfl (h.ends_exchange split.statements fun ends => ends)
  | setFormula step formula =>
      obtain ⟨before, s, after, split, rfl⟩ := setFormula_ok granted
      exact laid_of_respanned rfl
        (h.ends_exchange split.statements (s.replaceBody_endsLine formula.text))
  | setStatus step unification distinctCheck proof =>
      obtain ⟨before, s, after, split, -, rfl⟩ := setStatus_ok granted
      refine h.congr ?_ ?_
      · simp only [split.statements, List.map_append, List.map_cons]
        rfl
      · simp only [split.statements, List.map_append, List.map_cons]
        rfl
  | insertStep step hyps ref formula =>
      obtain ⟨before, s, after, split, -, -, rfl⟩ := insertStep_ok granted
      refine laid_of_respanned rfl (h.ends_insert split.statements (List.cons_ne_nil _ _) ?_)
      exact newStatement_endsLine _ _ (line_feed _)
  | insertDistinctVars vars =>
      obtain ⟨-, before, after, hss, hslot, rfl⟩ := insertDistinctVars_ok granted
      have text_ends : (distinctVarsText vars).getLast? = some '\n' := line_feed _
      have ends := newStatement_endsLine ws.nextId (.distinctVars vars) text_ends
      exact laid_of_respanned rfl (h.ends_insert hss (slot_ne hss hslot) ends)
  | insertProof proof =>
      obtain rfl : ws.insertProof st proof = ws' := Except.ok.inj granted
      have ends := newStatement_endsLine ws.nextId (.proof (.compressed proof))
        (proof.layout_endsLine st.proofTextWidth st.proofIndent)
      obtain ⟨before, old, after, hss, -, hws⟩ | ⟨before, after, hss, -, hfooter, hws⟩ :=
        insertProof_split st ws proof shaped.nodup
      · rw [hws]
        exact laid_of_respanned rfl (h.ends_exchange hss fun _ => ends)
      · rw [hws]
        refine laid_of_respanned rfl (h.ends_insert hss (slot_ne hss ?_) ends)
        exact hfooter.imp_left fun ⟨f, rest, hafter, hf⟩ => ⟨f, rest, hafter, Or.inr hf⟩
  | placeCursor step field =>
      obtain ⟨c, rfl⟩ := moveCursor_ok granted
      exact ⟨h.placed, h.ends⟩

theorem laid_load {request : Request} {text : Text}
    (clean : (load db st request text).broken = false) : (load db st request text).Laid where
  placed := placed_load clean
  ends := by
    have ends := (laidOut_load clean).1.endLines
    rw [List.map_map] at ends
    exact ends

/-- The statements of a worksheet that loads cleanly stand where they should, whatever calls
follow. -/
theorem laid_afterCalls {request : Request} {text : Text}
    (clean : (load db st request text).broken = false) (calls : List Call) :
    ((load db st request text).afterCalls calls).Laid := by
  obtain ⟨proved, shaped⟩ := shaped_load clean
  refine shaped.induct (moves_afterCalls _ calls) ?_ ?_ ?_ (laid_load clean)
  · exact fun st ws e ws' proved _ shaped granted h => h.edit shaped granted
  · exact fun ws h => h.measureLevels
  · exact fun ws interval ws' changed granted h => h.renumber granted

/-! ## The output -/

/-- What stands before a statement in the output, and the place of the statement. -/
theorem Laid.place (h : ws.Laid) {before after : List Statement} {s : Statement}
    (hss : ws.statements = before ++ s :: after) :
    ws.output = before.flatMap Statement.text ++ (s.text ++ after.flatMap Statement.text) ∧
      s.start = (before.flatMap Statement.text).length ∧
      s.position = ⟨lineFeeds (before.flatMap Statement.text), 0⟩ := by
  have hplaced := h.placed
  rw [hss] at hplaced
  obtain ⟨hstart, hposition⟩ := place_of_placed hplaced
  refine ⟨?_, by rw [hstart, Nat.zero_add], by rw [hposition, Nat.zero_add]⟩
  rw [output, hss, List.flatMap_append, List.flatMap_cons]

/-- The statements tile the output: they follow each other from the start to the end, each but the
last ends a line, each has the characters in its span as its text, and each begins in the first
column of the line that the line feeds before it count to. -/
structure Tiled (ws : Worksheet) : Prop where
  first : ∃ s rest, ws.statements = s :: rest ∧ s.start = 0
  next : ∀ before s t after, ws.statements = before ++ s :: t :: after →
    t.start = s.stop ∧ s.text.getLast? = some '\n' ∧
      t.position.line = s.position.line + s.lineCount
  last : ∀ s ∈ ws.statements.getLast?, s.stop = ws.output.length
  span : ∀ s ∈ ws.statements, ws.output.extract s.start s.stop = s.text
  position : ∀ s ∈ ws.statements, s.position = ⟨lineFeeds (ws.output.take s.start), 0⟩

theorem Laid.tiled (h : ws.Laid) (hne : ws.statements ≠ []) : ws.Tiled where
  first := by
    obtain ⟨s, rest, hss⟩ := List.exists_cons_of_ne_nil hne
    obtain ⟨-, hstart, -⟩ := h.place (hss.trans (List.nil_append _).symm)
    exact ⟨s, rest, hss, hstart⟩
  next := by
    intro before s t after hss
    obtain ⟨-, hstart, hposition⟩ := h.place hss
    have hss' : ws.statements = (before ++ [s]) ++ t :: after := by simp [hss]
    obtain ⟨-, hstart', hposition'⟩ := h.place hss'
    have ends : s.text.getLast? = some '\n' := by
      have hends := h.ends
      rw [hss, List.map_append, List.map_cons, endLines_split] at hends
      exact s.text_getLast? (hends.2.1 (List.cons_ne_nil _ _))
    have htexts : (before ++ [s]).flatMap Statement.text =
        before.flatMap Statement.text ++ s.text := by simp
    refine ⟨?_, ends, ?_⟩
    · rw [hstart', Statement.stop, hstart, htexts, List.length_append]
    · rw [hposition', hposition, htexts, lineFeeds_append, Statement.lineCount_of_endsLine ends]
  last := by
    intro s hs
    obtain ⟨before, hss⟩ := List.getLast?_eq_some_iff.mp hs
    obtain ⟨houtput, hstart, -⟩ := h.place hss
    rw [houtput, Statement.stop, hstart]
    simp
  span := by
    intro s hs
    obtain ⟨before, after, hss⟩ := List.append_of_mem hs
    obtain ⟨houtput, hstart, -⟩ := h.place hss
    rw [houtput, Statement.stop, hstart, List.extract_eq_take_drop, List.drop_left,
      Nat.add_sub_cancel_left, List.take_left]
  position := by
    intro s hs
    obtain ⟨before, after, hss⟩ := List.append_of_mem hs
    obtain ⟨houtput, hstart, hposition⟩ := h.place hss
    rw [houtput, hstart, List.take_left, hposition]

/-- The statements of a worksheet that loads cleanly tile its output, whatever calls follow, be they
granted or refused. -/
theorem tiled_afterCalls {request : Request} {text : Text}
    (clean : (load db st request text).broken = false) (calls : List Call) :
    ((load db st request text).afterCalls calls).Tiled := by
  obtain ⟨proved, shaped⟩ := shaped_afterCalls clean calls
  refine (laid_afterCalls clean calls).tiled fun hnil => ?_
  -- without statements the opening phase is not left
  have hphase := shaped.phase
  rw [contents, hnil] at hphase
  cases hphase

/-- Calls on the short worksheet of which some are refused, with labels, formulas and variables
that no reader would accept. -/
def oddCalls : List Call :=
  [.renumber 0,
    .edits {} [.setFormula .qed ⟨[['\n'], ['(', '\n', '*']]⟩, .setRef (.number 2) ['\n', ':'],
      .setRef (.number 7) ['x'], .insertDistinctVars [[], []]],
    .edits {} [.insertDistinctVars [[], ['\n']],
      .insertStep .qed [.number 2] (some ['$', ')', '\n']) ⟨[]⟩, .insertProof ⟨[['\n']], []⟩],
    .renumber 7]

theorem tiled_afterCalls_shortText :
    (load .empty {} {} shortText).broken = false ∧
      ((load .empty {} {} shortText).afterCalls oddCalls).Tiled :=
  ⟨shortText_loads, tiled_afterCalls shortText_loads oddCalls⟩

end Worksheet

end ProofSheet
