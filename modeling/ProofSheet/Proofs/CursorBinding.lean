import ProofSheet.Proofs.CursorPlacement
import ProofSheet.Proofs.Tiling

set_option autoImplicit false

/-! # The cursor follows its statement

A cursor names its statement by an id, and keeps an index of the statement beside it, which goes
stale when statements are added or removed. Here it is shown that the index does not matter: the
bound statement is always in the worksheet, and the cursor is located in it
(`Worksheet.LocatesCursor`). Of all calls only two kinds of edits can change what the cursor is
bound to (`Worksheet.CursorAfter`).

The invariant is that the bound statement is there (`Worksheet.HoldsCursor`). It is shown for each
stage of loading and for each move. Where the statements run on from each other, this is enough to
locate the cursor (`Worksheet.BoundFrom`).
-/

namespace ProofSheet

/-! ## Where a field is -/

theorem afterColon_le (n : Nat) (t : Text) : afterColon n t ≤ t.length := by
  induction t generalizing n with
  | nil => exact Nat.le_of_eq (by cases n <;> rfl)
  | cons c rest ih =>
      cases n with
      | zero =>
          have := ih 0
          rw [afterColon, List.length_cons]
          split <;> omega
      | succ n =>
          have := ih (if c = ':' then n else n + 1)
          rw [afterColon, List.length_cons]
          omega

/-- A field begins in the text of the statement, unless it is the name of a hypothesis that has
no text. -/
theorem Statement.fieldOffset_le {s : Statement} (h : s.isHypothesis = true → s.text ≠ [])
    (field : Field) : s.fieldOffset field ≤ s.text.length := by
  have hlength : s.text.length = s.lead.length + s.tail.length := List.length_append
  have hlead : ∀ n, afterColon n s.lead ≤ s.text.length := by
    intro n
    have := afterColon_le n s.lead
    omega
  cases field with
  | text => exact Nat.zero_le _
  | step =>
      rw [fieldOffset]
      split
      · next hhyp => exact List.length_pos_of_ne_nil (h hhyp)
      · exact Nat.zero_le _
  | hyps => exact hlead 0
  | ref => exact hlead 1
  | formula =>
      have hblanks := (List.takeWhile_sublist (p := isBlank) (l := s.tail)).length_le
      rw [fieldOffset]
      split <;> omega

/-! ## The index that is kept does not matter -/

/-- The cursor with another index and generation kept beside the id of its statement. -/
def Cursor.caching (index generation : Nat) (c : Cursor) : Cursor :=
  match c.target with
  | some (.statement id field _ _) =>
    { c with target := some (.statement id field index generation) }
  | _ => c

namespace Worksheet

variable {ws ws' : Worksheet} {db : Database} {st : Settings} {id : StatementId} {field : Field}

/-- The worksheet with another index and generation kept for its cursor. -/
def caching (index generation : Nat) (ws : Worksheet) : Worksheet :=
  { ws with cursor := ws.cursor.caching index generation }

/-- The statement that the cursor is bound to is in the worksheet. -/
def HoldsCursor (ws : Worksheet) : Prop :=
  ∀ id, ws.cursor.statement? = some id → id ∈ ws.ids

/-- The cursor is located in the statement that it is bound to, and the index that is kept for it
has no part in this. -/
structure LocatesCursor (ws : Worksheet) : Prop where
  bound : ∀ id field, ws.cursor.BoundTo id field →
    ∃ before s after, ws.statements = before ++ s :: after ∧ s.id = id ∧
      let offset := (before.flatMap Statement.text).length + s.fieldOffset field
      ws.cursorLocation? = some (offset, positionOf ws.output offset)
  uncached : ∀ index generation,
    (ws.caching index generation).cursorLocation? = ws.cursorLocation?

/-- The statement that a target names is the one with its id, wherever it was when the target was
set. -/
theorem targetStatement?_eq (nodup : ws.ids.Nodup) (id : StatementId) (index generation : Nat) :
    ws.targetStatement? id index generation = ws.find? id := by
  -- a statement that is taken from the index that is kept has the id, and no other has
  have kept : ∀ s, (if generation = ws.generation then ws.statements[index]? else none) = some s →
      s.id = id → ws.find? id = some s := by
    intro s hget hid
    split at hget
    · rw [← hid]
      exact find?_of_nodup nodup (List.mem_of_getElem? hget)
    · cases hget
  unfold targetStatement?
  generalize (if generation = ws.generation then ws.statements[index]? else none) = found at kept ⊢
  cases found with
  | none => rfl
  | some s =>
      dsimp only
      rw [Option.filter_some]
      by_cases hid : s.id = id
      · rw [kept s rfl hid, if_pos (by simpa using hid), Option.some_or]
      · rw [if_neg (by simpa using hid), Option.none_or]

theorem cursorLocation?_caching (nodup : ws.ids.Nodup) (index generation : Nat) :
    (ws.caching index generation).cursorLocation? = ws.cursorLocation? := by
  have nodup' : (ws.caching index generation).ids.Nodup := nodup
  have hoffset : (ws.caching index generation).cursorOffset? = ws.cursorOffset? := by
    unfold cursorOffset?
    cases htarget : ws.cursor.target with
    | none => simp [caching, Cursor.caching, htarget]
    | some target =>
        cases target with
        | offset n => simp [caching, Cursor.caching, htarget]
        | statement id field index' generation' =>
            have htarget' : (ws.caching index generation).cursor.target =
                some (.statement id field index generation) := by
              simp [caching, Cursor.caching, htarget]
            simp only [htarget', targetStatement?_eq nodup, targetStatement?_eq nodup']
            rfl
  rw [cursorLocation?, cursorLocation?, hoffset]
  rfl

/-- A statement with text after it ends a line, so only the footer can be without text. -/
theorem Laid.text_ne_nil {proved : Bool} (h : ws.Laid) (shaped : ws.Shaped (.closed proved))
    {before after : List Statement} {s : Statement} (hss : ws.statements = before ++ s :: after)
    (hs : s.isFooter = false) : s.text ≠ [] := by
  have hafter : after ≠ [] := by
    rintro rfl
    obtain ⟨rest, f, hlast, hfooter, -⟩ := shaped.footer rfl
    rw [hss] at hlast
    obtain ⟨-, heq⟩ := List.append_inj' hlast rfl
    rw [(List.cons.inj heq).1, hfooter] at hs
    cases hs
  have hends := h.ends
  rw [hss, List.map_append, List.map_cons, endLines_split] at hends
  have ends := s.text_getLast? (hends.2.1 (by simpa using hafter))
  intro hnil
  rw [hnil] at ends
  cases ends

/-- The statements run on from an offset, and the cursor is bound to one of them, if it is bound. -/
structure BoundFrom (ws : Worksheet) (o : Nat) : Prop where
  run : RunFrom o ws.statements
  nodup : ws.ids.Nodup
  holds : ws.HoldsCursor
  worded : ∀ s ∈ ws.statements, s.isHypothesis = true → s.text ≠ []

/-- The cursor is located at an offset in the output. -/
def CursorAt (ws : Worksheet) (n : Nat) : Prop :=
  ws.cursorLocation? = some (n, positionOf ws.output n)

/-- A bound cursor is located where its statement is held to begin, as far as the output reaches. -/
theorem BoundFrom.cursorAt {o : Nat} (h : ws.BoundFrom o)
    (bound : ws.cursor.BoundTo id field) :
    ∃ before s after, ws.statements = before ++ s :: after ∧ s.id = id ∧
      let offset := (before.flatMap Statement.text).length + s.fieldOffset field
      offset ≤ ws.output.length ∧ ws.CursorAt (min (o + offset) ws.output.length) := by
  obtain ⟨s, hs, rfl⟩ := List.mem_map.mp (h.holds id bound.statement)
  obtain ⟨index, generation, htarget⟩ := bound.target
  obtain ⟨before, after, hss⟩ := List.append_of_mem hs
  have hstart : s.start = o + (before.flatMap Statement.text).length := by
    have run := h.run
    rw [hss] at run
    exact run.start
  have hfield := Statement.fieldOffset_le (h.worded s hs) field
  refine ⟨before, s, after, hss, rfl, ?_, ?_⟩
  · rw [output, hss, List.flatMap_append, List.flatMap_cons, List.length_append,
      List.length_append]
    omega
  · rw [CursorAt, cursorLocation?, cursorOffset?, htarget]
    dsimp only
    rw [targetStatement?_eq h.nodup, find?_of_nodup h.nodup hs, Option.map_some, Option.map_some,
      hstart, Nat.add_assoc]

/-- The statements of a worksheet run on from the front of its output. -/
theorem HoldsCursor.boundFrom {proved : Bool} (holds : ws.HoldsCursor) (h : ws.Laid)
    (shaped : ws.Shaped (.closed proved)) : ws.BoundFrom 0 where
  run := by
    rw [← h.placed]
    exact runFrom_respanFrom 0 0 _
  nodup := shaped.nodup
  holds := holds
  worded := by
    intro s hs hhyp
    obtain ⟨before, after, hss⟩ := List.append_of_mem hs
    refine h.text_ne_nil shaped hss ?_
    rw [Statement.isHypothesis_eq] at hhyp
    rw [Statement.isFooter_eq]
    cases hc : s.content <;> first | rfl | (rw [hc] at hhyp; cases hhyp)

/-- A cursor that is bound to a statement of the worksheet is located in it. -/
theorem HoldsCursor.locates {proved : Bool} (holds : ws.HoldsCursor) (h : ws.Laid)
    (shaped : ws.Shaped (.closed proved)) : ws.LocatesCursor where
  uncached := cursorLocation?_caching shaped.nodup
  bound := by
    intro id field bound
    obtain ⟨before, s, after, hss, hid, hle, located⟩ :=
      (holds.boundFrom h shaped).cursorAt bound
    -- the offset is in the text, so it is not limited
    rw [Nat.zero_add, Nat.min_eq_left hle] at located
    exact ⟨before, s, after, hss, hid, located⟩

/-! ## What an edit does to the cursor -/

/-- The cursor after a granted edit. Placing the cursor binds it to the field of the step that is
named, and a generated proof that replaces the bound one leaves it unset. Otherwise it is as
before. -/
def CursorAfter (ws : Worksheet) : Edit → Worksheet → Prop
  | .placeCursor step field, ws' =>
    ∃ before s after, ws.SplitsAt step before s after ∧ ws'.cursor.BoundTo s.id field
  | .insertProof _, ws' =>
    (∀ old ∈ ws.statements, old.isProof = true → ws.cursor.statement? = some old.id →
        ws'.cursor.target = none) ∧
      ((∀ old ∈ ws.statements, old.isProof = true → ws.cursor.statement? ≠ some old.id) →
        ws'.cursor = ws.cursor)
  | _, ws' => ws'.cursor = ws.cursor

theorem cursorAfter_insertProof (st : Settings) (nodup : ws.ids.Nodup)
    (once : ws.statements.countP Statement.isProof ≤ 1) (proof : CompressedProof) :
    ws.CursorAfter (.insertProof proof) (ws.insertProof st proof) := by
  obtain ⟨before, old, after, hss, hold, hws⟩ | ⟨before, after, hss, hnone, -, hws⟩ :=
    insertProof_split st ws proof nodup
  · have hcursor : (ws.insertProof st proof).cursor = ws.cursor.forget old.id := by
      rw [hws]
      rfl
    have hmem : old ∈ ws.statements := by rw [hss]; simp
    -- the proof that is replaced is the only one
    have only : ∀ t ∈ ws.statements, t.isProof = true → t = old := by
      intro t ht hproof
      rw [hss, List.countP_append, List.countP_cons_of_pos hold] at once
      have hbefore : before.countP Statement.isProof = 0 := by omega
      have hafter : after.countP Statement.isProof = 0 := by omega
      rw [hss, List.mem_append, List.mem_cons] at ht
      rcases ht with ht | rfl | ht
      · exact absurd hproof (List.countP_eq_zero.mp hbefore t ht)
      · rfl
      · exact absurd hproof (List.countP_eq_zero.mp hafter t ht)
    constructor
    · intro t ht hproof hbound
      obtain rfl := only t ht hproof
      rw [hcursor, Cursor.forget, if_pos hbound]
    · intro hother
      rw [hcursor, Cursor.forget, if_neg (hother old hmem hold)]
  · have hcursor : (ws.insertProof st proof).cursor = ws.cursor := by
      rw [hws]
      rfl
    refine ⟨fun t ht hproof _ => ?_, fun _ => hcursor⟩
    rw [hnone t ht] at hproof
    cases hproof

/-- What a granted edit does to the cursor. -/
theorem cursorAfter_applyEdit {proved : Bool} {e : Edit} (shaped : ws.Shaped (.closed proved))
    (granted : ws.applyEdit st e = .ok ws') : ws.CursorAfter e ws' := by
  cases e with
  | setRef step label =>
      obtain ⟨before, s, after, -, rfl⟩ := setRef_ok granted
      rfl
  | setFormula step formula =>
      obtain ⟨before, s, after, -, rfl⟩ := setFormula_ok granted
      rfl
  | setStatus step unification distinctCheck proof =>
      obtain ⟨before, s, after, -, -, rfl⟩ := setStatus_ok granted
      rfl
  | insertStep step hyps ref formula =>
      obtain ⟨before, s, after, -, -, -, rfl⟩ := insertStep_ok granted
      rfl
  | insertDistinctVars vars =>
      obtain ⟨-, before, after, -, -, rfl⟩ := insertDistinctVars_ok granted
      rfl
  | insertProof proof =>
      obtain rfl : ws.insertProof st proof = ws' := Except.ok.inj granted
      exact cursorAfter_insertProof st shaped.nodup shaped.proof_once proof
  | placeCursor step field =>
      obtain ⟨before, s, after, split, rfl⟩ := moveCursor_split granted
      exact ⟨before, s, after, split, Cursor.boundTo_of_target rfl⟩

/-- Renumbering leaves the cursor as it is. -/
theorem cursor_renumber {interval changed : Nat}
    (granted : ws.renumber interval = .ok (ws', changed)) : ws'.cursor = ws.cursor := by
  obtain ⟨-, -, rfl⟩ := renumber_ok granted
  rfl

/-! ## The bound statement stays in the worksheet -/

/-- Statements keep their ids in an edit, except the proof that another one replaces. -/
theorem Changes.id_mem {e : Edit} (h : ws.Changes e ws') {s : Statement} (hs : s ∈ ws.statements)
    (kept : ∀ proof, e = .insertProof proof → s.isProof = false) : s.id ∈ ws'.ids := by
  have hid : s.id ∈ ws.ids := List.mem_map_of_mem hs
  -- an id is among those before and after what is put in
  have among : ∀ (dropped : List Statement) {before after : List Statement}
      {new : StatementId × Content}, ws.statements = before ++ (dropped ++ after) →
        s ∉ dropped →
          ws'.entries = before.map Statement.entry ++ new :: after.map Statement.entry →
            s.id ∈ ws'.ids := by
    intro dropped before after new hss hdropped hentries
    rw [ids_of_entries hentries, List.mem_append, List.mem_cons]
    rw [hss, List.mem_append, List.mem_append] at hs
    rcases hs with hs | hs | hs
    · exact Or.inl (List.mem_map_of_mem hs)
    · exact absurd hs hdropped
    · exact Or.inr (Or.inr (List.mem_map_of_mem hs))
  cases h with
  | revise _ revises _ =>
      have hids : ws'.ids = ws.ids := by
        rw [ids_eq, ids_eq]
        exact map_eq_of_forall₂ revises fun _ _ hR => hR.1
      rw [hids]
      exact hid
  | insertStep split _ _ entries _ =>
      exact among [] split.statements List.not_mem_nil entries
  | insertDistinctVars split _ entries _ => exact among [] split List.not_mem_nil entries
  | insertProof split _ _ entries _ => exact among [] split List.not_mem_nil entries
  | @replaceProof _ proof before after old split hold entries _ =>
      refine among [old] split (fun hmem => ?_) entries
      have hproof := kept proof rfl
      rw [List.mem_singleton.mp hmem, hold] at hproof
      cases hproof

theorem HoldsCursor.congr (h : ws.HoldsCursor) (hcursor : ws'.cursor = ws.cursor)
    (hids : ws'.ids = ws.ids) : ws'.HoldsCursor := by
  intro id hid
  rw [hcursor] at hid
  rw [hids]
  exact h id hid

theorem HoldsCursor.measureLevels (h : ws.HoldsCursor) : ws.measureLevels.HoldsCursor :=
  h.congr rfl List.map_map

theorem HoldsCursor.renumber {interval changed : Nat} (h : ws.HoldsCursor)
    (granted : ws.renumber interval = .ok (ws', changed)) : ws'.HoldsCursor := by
  obtain ⟨-, -, rfl⟩ := renumber_ok granted
  exact h.congr rfl ((map_respanFrom Statement.id (fun _ _ _ => rfl) 0 0 _).trans List.map_map)

/-- A granted edit keeps the bound statement in the worksheet. -/
theorem HoldsCursor.edit {proved : Bool} {e : Edit} (h : ws.HoldsCursor)
    (shaped : ws.Shaped (.closed proved)) (granted : ws.applyEdit st e = .ok ws') :
    ws'.HoldsCursor := by
  have changes := changes_of_applyEdit shaped.nodup granted
  have after := cursorAfter_applyEdit shaped granted
  intro id hid
  have same : ws'.cursor = ws.cursor → (∀ s ∈ ws.statements, s.id = id →
      ∀ proof, e = .insertProof proof → s.isProof = false) → id ∈ ws'.ids := by
    intro hcursor kept
    rw [hcursor] at hid
    obtain ⟨s, hs, rfl⟩ := List.mem_map.mp (h id hid)
    exact changes.id_mem hs (kept s hs rfl)
  cases e with
  | insertProof proof =>
      obtain ⟨unset, kept⟩ := after
      by_cases hproof : ∃ old ∈ ws.statements, old.isProof = true ∧
          ws.cursor.statement? = some old.id
      · obtain ⟨old, hold, holdProof, hbound⟩ := hproof
        rw [Cursor.statement?, unset old hold holdProof hbound] at hid
        cases hid
      · have hcursor := kept fun old hold holdProof hbound =>
          hproof ⟨old, hold, holdProof, hbound⟩
        refine same hcursor fun s hs hsid _ _ => Bool.eq_false_iff.mpr fun hsProof => ?_
        rw [hcursor, ← hsid] at hid
        exact hproof ⟨s, hs, hsProof, hid⟩
  | placeCursor step field =>
      obtain ⟨before, s, after, split, bound⟩ := after
      have hs : s ∈ ws.statements := by rw [split.statements]; simp
      obtain rfl : s.id = id := Option.some.inj (bound.statement.symm.trans hid)
      exact changes.id_mem hs fun proof heq => (by cases heq)
  | _ => exact same after fun s _ _ proof heq => (by cases heq)

/-! ## Loading and calls -/

theorem holdsCursor_readText {caret : Option Nat} {text : Text}
    (h : readText db st { cursor := { caret := caret } } text = .ok ws) : ws.HoldsCursor := by
  obtain ⟨-, stand, hmet⟩ := readText_meets rfl h
  have hunset : ({ caret := caret } : Cursor).target = none := rfl
  intro id hid
  rw [hmet] at hid
  obtain ⟨k, hk, s, hs, -, met⟩ | hunmet := Cursor.meetAll_cases 0 0 hunset stand
  · obtain rfl : s.id = id := Option.some.inj (met.statement.symm.trans hid)
    exact List.mem_map_of_mem hs
  · rw [show _ = _ from hunmet] at hid
    cases hid

theorem HoldsCursor.resolve (h : ws.HoldsCursor) (nodup : ws.ids.Nodup)
    (hresolve : ws.resolveLocalRefs = .ok ws') : ws'.HoldsCursor := by
  obtain ⟨hcursor, hids⟩ := splices_resolveLocalRefs hresolve nodup
  intro id hid
  rw [hcursor, Cursor.foldl_forget] at hid
  split at hid
  · cases hid
  next hkept =>
  obtain ⟨s, hs, rfl⟩ := List.mem_map.mp (h id hid)
  rw [hids]
  refine List.mem_map_of_mem (List.mem_filter.mpr ⟨hs, ?_⟩)
  rw [Bool.not_eq_true', Bool.eq_false_iff]
  intro hlocal
  exact hkept ⟨s.id, List.mem_map_of_mem (List.mem_filter.mpr ⟨hs, hlocal⟩), hid⟩

theorem PlacedBy.holdsCursor {placement : CaretPlacement} {caret : Option Nat}
    (h : ws.PlacedBy placement caret) : ws.HoldsCursor := by
  intro id hid
  obtain ⟨k, htarget⟩ | ⟨s, hs, field, bound⟩ := h.target
  · rw [Cursor.statement?, htarget] at hid
    cases hid
  · obtain rfl : s.id = id := Option.some.inj (bound.statement.symm.trans hid)
    exact List.mem_map_of_mem hs

theorem holdsCursor_load {request : Request} {text : Text}
    (clean : (load db st request text).broken = false) : (load db st request text).HoldsCursor := by
  obtain ⟨read, selected, ws, qed, hread, nodup, hresolve, hqed, hid, hload⟩ := load_placed clean
  have hread' : HoldsCursor { read with selected := selected } :=
    (holdsCursor_readText hread).congr rfl rfl
  have settled : ws.indexDistinctVars.measureLevels.HoldsCursor :=
    (hread'.resolve nodup hresolve).congr rfl List.map_map
  rw [hload]
  cases htarget : ws.indexDistinctVars.measureLevels.cursor.target with
  | none => exact (placedBy_placeCursor hqed hid htarget).holdsCursor
  | some target =>
      have hset : ws.indexDistinctVars.measureLevels.cursor.isSet = true := by
        rw [Cursor.isSet, htarget]
        rfl
      refine settled.congr (cursor_placeCursor_of_set hset _) ?_
      rw [ids, statements_placeCursor, ids]

/-- The statement that the cursor of a worksheet is bound to is in the worksheet, if it loads
cleanly, whatever calls follow. -/
theorem holdsCursor_afterCalls {request : Request} {text : Text}
    (clean : (load db st request text).broken = false) (calls : List Call) :
    ((load db st request text).afterCalls calls).HoldsCursor := by
  obtain ⟨proved, shaped⟩ := shaped_load clean
  refine shaped.induct (moves_afterCalls _ calls) ?_ ?_ ?_ (holdsCursor_load clean)
  · exact fun st ws e ws' proved _ shaped granted h => h.edit shaped granted
  · exact fun ws h => h.measureLevels
  · exact fun ws interval ws' changed granted h => h.renumber granted

/-- The cursor of a worksheet that loads cleanly follows its statement, whatever calls follow. It is
located in the statement that it is bound to, renumbering leaves it as it is, and so does every edit
that is granted, unless it places the cursor or replaces the bound proof. -/
theorem cursor_afterCalls {request : Request} {text : Text}
    (clean : (load db st request text).broken = false) (calls : List Call) :
    ((load db st request text).afterCalls calls).LocatesCursor ∧
      (∀ interval ws' changed,
        ((load db st request text).afterCalls calls).renumber interval = .ok (ws', changed) →
          ws'.cursor = ((load db st request text).afterCalls calls).cursor) ∧
      ∀ p ∈ (load db st request text).grantedBy calls, ∀ st' ws',
        p.1.applyEdit st' p.2 = .ok ws' → p.1.CursorAfter p.2 ws' := by
  obtain ⟨proved, shaped⟩ := shaped_load clean
  obtain ⟨proved', shaped'⟩ := shaped_afterCalls clean calls
  refine ⟨?_, fun _ _ _ => cursor_renumber, fun p hp st' ws' granted => ?_⟩
  · exact (holdsCursor_afterCalls clean calls).locates (laid_afterCalls clean calls) shaped'
  · obtain ⟨_, met⟩ := shaped.met (moves_afterCalls _ calls) p hp
    exact cursorAfter_applyEdit met granted

/-- Calls that put statements before the bound one, bind the cursor to another step, and put in a
generated proof twice. -/
def bindingCalls : List Call :=
  [.edits {} [.insertStep .qed [] none ⟨[['|', '-']]⟩, .placeCursor .qed .formula],
    .renumber 10,
    .edits {} [.insertProof ⟨[], []⟩, .insertProof ⟨[['a']], []⟩]]

theorem cursor_afterCalls_shortText :
    (load .empty {} {} shortText).broken = false ∧
      ((load .empty {} {} shortText).afterCalls bindingCalls).LocatesCursor ∧
      (∀ interval ws' changed,
        ((load .empty {} {} shortText).afterCalls bindingCalls).renumber interval =
            .ok (ws', changed) →
          ws'.cursor = ((load .empty {} {} shortText).afterCalls bindingCalls).cursor) ∧
      ∀ p ∈ (load .empty {} {} shortText).grantedBy bindingCalls, ∀ st' ws',
        p.1.applyEdit st' p.2 = .ok ws' → p.1.CursorAfter p.2 ws' :=
  ⟨shortText_loads, cursor_afterCalls shortText_loads bindingCalls⟩

end Worksheet

end ProofSheet
