import ProofSheet.Proofs.WellShaped

set_option autoImplicit false

/-! # The index of the `$d` statements

A worksheet that loads cleanly has its `$d` statements indexed in the order of the text. One that is
inserted stands in front of the generated proof, but the index gets it at the end. So all calls
leave the `$d` statements of the text where they were, those that stood behind the generated proof
behind the inserted ones (`Worksheet.Indexed`). The index has all of them, each once, but it is in
order only if nothing was inserted or nothing stood there (`Worksheet.distinctVars_inOrder_iff`).

Only the `$d` statements and the generated proof matter for this, and they are all that is kept of a
worksheet to follow the calls (`Worksheet.marks`).
-/

namespace ProofSheet

/-- The edit inserts a `$d` statement. -/
def Edit.isInsertDistinctVars (e : Edit) : Bool := e matches .insertDistinctVars _

/-- What a statement is in the order of the `$d` statements: one of them, under its id, or the
generated proof, or nothing. -/
def mark : StatementId × Content → Option (Option StatementId)
  | (id, .distinctVars _) => some (some id)
  | (_, .proof _) => some none
  | _ => none

theorem mark_of_revisedTo {id : StatementId} {c c' : Content} (h : c.RevisedTo c') :
    mark (id, c') = mark (id, c) := by
  cases h <;> rfl

theorem mark_of_isProof {s : Statement} (h : s.isProof = true) : mark s.entry = some none := by
  obtain ⟨id, content, lead, tail, start, position⟩ := s
  cases content with
  | proof body => rfl
  | _ => cases h

theorem mark_of_isFooter {s : Statement} (h : s.isFooter = true) : mark s.entry = none := by
  obtain ⟨id, content, lead, tail, start, position⟩ := s
  cases content with
  | footer => rfl
  | _ => cases h

theorem isSome_mark {s : Statement} {m : Option StatementId} (hm : mark s.entry = some m)
    (h : s.isProof = false) : m.isSome = true := by
  obtain ⟨id, content, lead, tail, start, position⟩ := s
  cases content with
  | distinctVars vars =>
      cases hm
      rfl
  | proof body => cases h
  | _ => cases hm

/-! ## Marks -/

section Marks

variable {front back : List (Option StatementId)}

/-- Marks of `$d` statements in front of the end or of a generated proof. -/
theorem takeWhile_marks (hfront : ∀ m ∈ front, m.isSome = true)
    (hback : back = [] ∨ ∃ rest, back = none :: rest) :
    (front ++ back).takeWhile Option.isSome = front ∧
      (front ++ back).dropWhile Option.isSome = back := by
  rw [List.takeWhile_append_of_pos hfront, List.dropWhile_append_of_pos hfront]
  rcases hback with rfl | ⟨rest, rfl⟩
  · exact ⟨List.append_nil _, rfl⟩
  · exact ⟨List.append_nil _, rfl⟩

theorem map_some_filterMap_id (h : ∀ m ∈ front, m.isSome = true) :
    (front.filterMap id).map some = front := by
  induction front with
  | nil => rfl
  | cons m rest ih =>
      obtain ⟨hm, hrest⟩ := List.forall_mem_cons.mp h
      cases m with
      | none => cases hm
      | some id => exact congrArg (some id :: ·) (ih hrest)

end Marks

namespace Worksheet

variable {ws ws' : Worksheet} {db : Database} {st : Settings}
  {early late inserted : List StatementId}

/-- The `$d` statements and the generated proof, in order. -/
def marks (ws : Worksheet) : List (Option StatementId) := ws.entries.filterMap mark

theorem marks_of_revises (h : ws.Revises ws') : ws'.marks = ws.marks := by
  have hmap : ws'.entries.map mark = ws.entries.map mark := by
    refine map_eq_of_forall₂ h ?_
    rintro ⟨id, c⟩ ⟨id', c'⟩ ⟨hid, hrevised⟩
    obtain rfl : id' = id := hid
    exact mark_of_revisedTo hrevised
  have := congrArg (List.filterMap id) hmap
  rwa [List.filterMap_map, List.filterMap_map] at this

theorem marks_of_split {before after : List Statement} (hss : ws.statements = before ++ after) :
    ws.marks = (before.map Statement.entry).filterMap mark ++
      (after.map Statement.entry).filterMap mark := by
  rw [marks, entries, hss, List.map_append, List.filterMap_append]

theorem marks_of_entries {before after : List Statement} {e : StatementId × Content}
    (h : ws.entries = before.map Statement.entry ++ e :: after.map Statement.entry) :
    ws.marks = (before.map Statement.entry).filterMap mark ++
      ((mark e).toList ++ (after.map Statement.entry).filterMap mark) := by
  rw [marks, h, List.filterMap_append]
  congr 1
  cases he : mark e with
  | none => exact List.filterMap_cons_none he
  | some m => exact List.filterMap_cons_some he

theorem isSome_marks {ss : List Statement} (no_proof : ∀ t ∈ ss, t.isProof = false) :
    ∀ m ∈ (ss.map Statement.entry).filterMap mark, m.isSome = true := by
  intro m hm
  rw [List.filterMap_map] at hm
  obtain ⟨t, ht, hmark⟩ := List.mem_filterMap.mp hm
  exact isSome_mark hmark (no_proof t ht)

/-- The ids of the `$d` statements. -/
theorem ids_of_marks (ss : List Statement) :
    ((ss.map Statement.entry).filterMap mark).filterMap id =
      (ss.filter Statement.isDistinctVars).map Statement.id := by
  induction ss with
  | nil => rfl
  | cons s rest ih =>
      obtain ⟨id, content, lead, tail, start, position⟩ := s
      cases content with
      | distinctVars vars => exact congrArg (id :: ·) ih
      | _ => exact ih

theorem marks_ids (ws : Worksheet) :
    ws.marks.filterMap id = (ws.statements.filter Statement.isDistinctVars).map Statement.id :=
  ids_of_marks ws.statements

/-- The index has the `$d` statements that were read, and then those that were inserted. Where they
stand, the inserted ones are in front of those behind the generated proof. -/
structure Indexed (ws : Worksheet) (early late inserted : List StatementId) : Prop where
  index : ws.distinctVars = early ++ late ++ inserted
  front : ws.marks.takeWhile Option.isSome = (early ++ inserted).map some
  back : (ws.marks.dropWhile Option.isSome).filterMap id = late

theorem Indexed.of_marks (h : ws.Indexed early late inserted)
    (hindex : ws'.distinctVars = ws.distinctVars) (hmarks : ws'.marks = ws.marks) :
    ws'.Indexed early late inserted :=
  ⟨hindex.trans h.index, by rw [hmarks]; exact h.front, by rw [hmarks]; exact h.back⟩

/-- In the text the `$d` statements stand in this order. -/
theorem Indexed.ids (h : ws.Indexed early late inserted) :
    (ws.statements.filter Statement.isDistinctVars).map Statement.id =
      early ++ inserted ++ late := by
  rw [← marks_ids, ← List.takeWhile_append_dropWhile (p := Option.isSome) (l := ws.marks),
    List.filterMap_append, h.front, h.back, List.filterMap_map]
  congr 1
  exact List.filterMap_some

/-! ## Edits -/

/-- The `$d` statement that an edit adds to a worksheet. -/
def added (ws : Worksheet) (e : Edit) : List StatementId :=
  if e.isInsertDistinctVars then [ws.nextId] else []

/-- Nothing that matters stands at the footer or behind it. -/
theorem Shaped.marks_footer {proved : Bool} (h : ws.Shaped (.closed proved))
    {before after : List Statement} (hss : ws.statements = before ++ after)
    (slot : (∃ f rest, after = f :: rest ∧ f.isFooter = true) ∨
      ∀ t ∈ ws.statements, t.isFooter = false) :
    (after.map Statement.entry).filterMap mark = [] := by
  rcases slot with ⟨f, rest, rfl, hf⟩ | no_footer
  · rw [h.eq_nil_of_footer hss hf, List.map_singleton,
      List.filterMap_cons_none (mark_of_isFooter hf)]
    rfl
  · obtain ⟨others, last, hlast, hf, -⟩ := h.footer rfl
    rw [no_footer last (by rw [hlast]; exact List.mem_concat_self)] at hf
    cases hf

/-- The ids of `$d` statements are not those of generated proofs. -/
theorem Indexed.not_mem {old : Statement} (h : ws.Indexed early late inserted)
    (nodup : ws.ids.Nodup) (hmem : old ∈ ws.statements) (hold : old.isProof = true) :
    old.id ∉ ws.distinctVars := by
  intro hid
  have hids : old.id ∈ (ws.statements.filter Statement.isDistinctVars).map Statement.id := by
    rw [h.ids]
    rw [h.index] at hid
    simp only [List.mem_append] at hid ⊢
    tauto
  obtain ⟨s, hs, heq⟩ := List.mem_map.mp hids
  obtain ⟨hs, hdistinct⟩ := List.mem_filter.mp hs
  have hfound := find?_of_nodup nodup hs
  rw [heq, find?_of_nodup nodup hmem, Option.some.injEq] at hfound
  rw [← hfound] at hdistinct
  obtain ⟨id, content, lead, tail, start, position⟩ := old
  cases content with
  | proof body => cases hdistinct
  | _ => cases hold

/-- Revising steps leaves the index and what it lists. -/
theorem Indexed.revise (h : ws.Indexed early late inserted) (revises : ws.Revises ws')
    (hindex : ws'.distinctVars = ws.distinctVars) : ws'.Indexed early late inserted :=
  h.of_marks hindex (marks_of_revises revises)

theorem Indexed.insertProof {proved : Bool} (h : ws.Indexed early late inserted)
    (shaped : ws.Shaped (.closed proved)) (st : Settings) (proof : CompressedProof) :
    (ws.insertProof st proof).Indexed early late inserted := by
  obtain ⟨before, old, after, hss, hold, hws⟩ | ⟨before, after, hss, no_proof, hfooter, hws⟩ :=
    insertProof_split st ws proof shaped.nodup
  · have hmem : old ∈ ws.statements := by
      rw [hss]
      exact List.mem_append_right _ List.mem_cons_self
    have hnot := h.not_mem shaped.nodup hmem hold
    have hentries : ws.entries =
        before.map Statement.entry ++ old.entry :: after.map Statement.entry := by
      rw [entries, hss, List.map_append, List.map_cons]
    have hentries' : (ws.insertProof st proof).entries = before.map Statement.entry ++
        (ws.nextId, .proof (.compressed proof)) :: after.map Statement.entry := by
      rw [hws]
      exact (entries_respan _).trans List.map_append
    refine h.of_marks ?_ ?_
    · rw [hws]
      exact List.filter_eq_self.mpr fun id hid => by
        simpa using fun heq : id = old.id => hnot (heq ▸ hid)
    · rw [marks_of_entries hentries, marks_of_entries hentries', mark_of_isProof hold]
      rfl
  · -- there is no generated proof yet, so all `$d` statements stand in front of this one
    have hback := shaped.marks_footer hss hfooter
    have hfront := isSome_marks fun t ht => no_proof t (hss ▸ List.mem_append_left _ ht)
    have hold := marks_of_split hss
    rw [hback] at hold
    obtain ⟨htake, hdrop⟩ := takeWhile_marks hfront (Or.inl rfl)
    have hentries : (ws.insertProof st proof).entries = before.map Statement.entry ++
        (ws.nextId, .proof (.compressed proof)) :: after.map Statement.entry := by
      rw [hws]
      exact (entries_respan _).trans List.map_append
    have hnew : (ws.insertProof st proof).marks =
        (before.map Statement.entry).filterMap mark ++ [none] := by
      rw [marks_of_entries hentries, hback]
      rfl
    obtain ⟨htake', hdrop'⟩ := takeWhile_marks hfront (Or.inr ⟨[], rfl⟩)
    constructor
    · rw [hws]
      exact h.index
    · rw [hnew, htake', ← htake, ← hold]
      exact h.front
    · rw [hnew, hdrop', ← h.back, hold, hdrop]
      rfl

theorem Indexed.insertDistinctVars {proved : Bool} {vars : List Text}
    (h : ws.Indexed early late inserted) (shaped : ws.Shaped (.closed proved))
    (granted : ws.insertDistinctVars vars = .ok ws') :
    ws'.Indexed early late (inserted ++ [ws.nextId]) := by
  obtain ⟨-, before, after, hss, slot, hws⟩ := insertDistinctVars_split granted
  have hold := marks_of_split hss
  have hentries : ws'.entries = before.map Statement.entry ++
      (ws.nextId, .distinctVars vars) :: after.map Statement.entry := by
    rw [hws]
    exact (entries_respan _).trans List.map_append
  have hnew : ws'.marks = (before.map Statement.entry).filterMap mark ++ [some ws.nextId] ++
      (after.map Statement.entry).filterMap mark := by
    rw [marks_of_entries hentries, List.append_assoc]
    rfl
  -- no generated proof comes before the slot, and nothing else that matters behind it
  obtain ⟨hfront, hback⟩ : (∀ m ∈ (before.map Statement.entry).filterMap mark, m.isSome = true) ∧
      ((after.map Statement.entry).filterMap mark = [] ∨
        ∃ rest, (after.map Statement.entry).filterMap mark = none :: rest) := by
    obtain ⟨old, rest, rfl, hold, first⟩ | ⟨no_proof, hfooter⟩ := slot
    · refine ⟨isSome_marks first, Or.inr ⟨(rest.map Statement.entry).filterMap mark, ?_⟩⟩
      rw [List.map_cons, List.filterMap_cons_some (mark_of_isProof hold)]
    · exact ⟨isSome_marks fun t ht => no_proof t (hss ▸ List.mem_append_left _ ht),
        Or.inl (shaped.marks_footer hss hfooter)⟩
  obtain ⟨htake, hdrop⟩ := takeWhile_marks hfront hback
  have hfront' : ∀ m ∈ (before.map Statement.entry).filterMap mark ++ [some ws.nextId],
      m.isSome = true := by
    rw [List.forall_mem_append]
    exact ⟨hfront, List.forall_mem_singleton.mpr rfl⟩
  obtain ⟨htake', hdrop'⟩ := takeWhile_marks hfront' hback
  constructor
  case index =>
    rw [hws, ← List.append_assoc, ← h.index]
  case front =>
    have hids := h.front
    rw [hold, htake] at hids
    rw [hnew, htake', hids]
    simp
  case back =>
    rw [hnew, hdrop', ← hdrop, ← hold]
    exact h.back

/-- An edit that inserts no `$d` statement leaves what the index lists. -/
theorem Indexed.edit_other {proved : Bool} {e : Edit} (h : ws.Indexed early late inserted)
    (shaped : ws.Shaped (.closed proved)) (granted : ws.applyEdit st e = .ok ws')
    (other : e.isInsertDistinctVars = false) : ws'.Indexed early late inserted := by
  cases e with
  | insertDistinctVars vars => cases other
  | insertProof proof =>
      rw [← Except.ok.inj granted]
      exact h.insertProof shaped st proof
  | setRef step label =>
      obtain ⟨before, s, after, split, rfl⟩ := setRef_ok granted
      exact h.revise (revises_of_split (s.withRef label) split.statements rfl
        (s.revised_withRef label) (entries_respan _)) rfl
  | setFormula step formula =>
      obtain ⟨before, s, after, split, rfl⟩ := setFormula_ok granted
      exact h.revise (revises_of_split (s.withFormula formula) split.statements rfl
        (s.revised_withFormula formula) (entries_respan _)) rfl
  | setStatus step unification distinctCheck proof =>
      obtain ⟨before, s, after, split, -, rfl⟩ := setStatus_ok granted
      exact h.revise (revises_of_split (s.withStatus unification distinctCheck proof)
        split.statements rfl (s.revised_withStatus unification distinctCheck proof) rfl) rfl
  | insertStep step hyps ref formula =>
      obtain ⟨before, s, after, split, -, -, hws⟩ := insertStep_ok granted
      have hentries : ws'.entries = before.map Statement.entry ++
          (ws.nextId, .derivation (.inserted ws.nextStepNumber hyps ref formula)) ::
            (s :: after).map Statement.entry := by
        rw [hws]
        exact (entries_respan _).trans List.map_append
      refine h.of_marks (by rw [hws]; rfl) ?_
      rw [marks_of_split split.statements, marks_of_entries hentries]
      rfl
  | placeCursor step field =>
      obtain ⟨c, rfl⟩ := moveCursor_ok granted
      exact h.of_marks rfl rfl

/-- A granted edit adds to the index the `$d` statement that it inserts. -/
theorem Indexed.edit {proved : Bool} {e : Edit} (h : ws.Indexed early late inserted)
    (shaped : ws.Shaped (.closed proved)) (granted : ws.applyEdit st e = .ok ws') :
    ws'.Indexed early late (inserted ++ ws.added e) := by
  cases hinsert : e.isInsertDistinctVars with
  | false =>
      rw [added, hinsert, if_neg Bool.false_ne_true, List.append_nil]
      exact h.edit_other shaped granted hinsert
  | true =>
      cases e with
      | insertDistinctVars vars => exact h.insertDistinctVars shaped granted
      | _ => cases hinsert

theorem Indexed.measureLevels (h : ws.Indexed early late inserted) :
    ws.measureLevels.Indexed early late inserted :=
  h.revise (revises_measureLevels ws) rfl

theorem Indexed.renumber {interval changed : Nat} (h : ws.Indexed early late inserted)
    (granted : ws.renumber interval = .ok (ws', changed)) : ws'.Indexed early late inserted := by
  obtain ⟨-, -, rfl⟩ := renumber_ok granted
  refine h.of_marks rfl ?_
  rw [marks, marks, entries_respan, entries, entries, List.map_map, List.filterMap_map,
    List.filterMap_map]
  refine congrArg (List.filterMap · ws.statements) (funext fun s => ?_)
  obtain ⟨id, content, lead, tail, start, position⟩ := s
  cases content <;> rfl

/-- After some moves the index has those `$d` statements besides that were inserted, in that
order. -/
theorem Indexed.moves {proved : Bool} {edits : List (Worksheet × Edit)}
    (h : ws.Indexed early late inserted) (shaped : ws.Shaped (.closed proved))
    (hmoves : Moves ws edits ws') :
    ws'.Indexed early late (inserted ++ edits.flatMap fun p => p.1.added p.2) := by
  induction hmoves generalizing proved inserted with
  | done => rwa [List.flatMap_nil, List.append_nil]
  | edit granted _ ih =>
      obtain ⟨proved', shaped'⟩ := shaped.edit (changes_of_applyEdit shaped.nodup granted)
      rw [List.flatMap_cons, ← List.append_assoc]
      exact ih (h.edit shaped granted) shaped'
  | levels _ ih => exact ih h.measureLevels shaped.measureLevels
  | renumber granted _ ih => exact ih (h.renumber granted) (shaped.renumber granted)

/-! ## Loading -/

/-- The `$d` statements behind the generated proof. -/
def lateDistinctVars (ws : Worksheet) : List Statement :=
  (ws.statements.dropWhile (!·.isProof)).filter Statement.isDistinctVars

theorem back_marks (ws : Worksheet) :
    (ws.marks.dropWhile Option.isSome).filterMap id = ws.lateDistinctVars.map Statement.id := by
  unfold marks entries lateDistinctVars
  induction ws.statements with
  | nil => rfl
  | cons s rest ih =>
      obtain ⟨id, content, lead, tail, start, position⟩ := s
      cases content with
      | proof body => exact ids_of_marks (⟨id, .proof body, lead, tail, start, position⟩ :: rest)
      | _ => exact ih

/-- A worksheet that is loaded cleanly has its `$d` statements indexed in their order. -/
theorem indexed_load {request : Request} {text : Text}
    (clean : (load db st request text).broken = false) :
    ∃ early, (load db st request text).Indexed early
      ((load db st request text).lateDistinctVars.map Statement.id) [] := by
  obtain ⟨read, selected, ws, -, -, -, -, hload⟩ := load_settled clean
  obtain ⟨c, hcursor⟩ := placeCursor_eq st.caretPlacement ws.indexDistinctVars.measureLevels
  rw [hcursor] at hload
  have hmarks : (load db st request text).marks = ws.marks := by
    rw [hload]
    exact marks_of_revises (revises_measureLevels ws)
  have hindex : (load db st request text).distinctVars = ws.marks.filterMap id := by
    rw [hload, marks_ids]
    rfl
  have hsome : ∀ m ∈ ws.marks.takeWhile Option.isSome, m.isSome = true :=
    fun m hm => List.mem_takeWhile_imp hm
  refine ⟨(ws.marks.takeWhile Option.isSome).filterMap id, ?_, ?_, back_marks _⟩
  · rw [hindex, ← back_marks, hmarks, List.append_nil, ← List.filterMap_append,
      List.takeWhile_append_dropWhile]
  · rw [hmarks, List.append_nil, map_some_filterMap_id hsome]

/-! ## The order of the index -/

/-- The `$d` statements that the index lists. -/
def indexedDistinctVars (ws : Worksheet) : List Statement :=
  ws.distinctVars.filterMap fun id => (ws.find? id).filter Statement.isDistinctVars

/-- The variables of the `$d` statements are read off in the order of the index. -/
theorem distinctVarLists_eq (ws : Worksheet) :
    ws.distinctVarLists.map Content.distinctVars =
      ws.indexedDistinctVars.map Statement.content := by
  rw [distinctVarLists, indexedDistinctVars, List.map_filterMap, List.map_filterMap]
  refine congrArg (List.filterMap · ws.distinctVars) (funext fun id => ?_)
  cases ws.find? id with
  | none => rfl
  | some s =>
      obtain ⟨id, content, lead, tail, start, position⟩ := s
      cases content <;> rfl

/-- A statement of the worksheet that is a `$d` statement is found as one. -/
theorem found_distinctVars (nodup : ws.ids.Nodup) {s : Statement}
    (hs : s ∈ ws.statements.filter Statement.isDistinctVars) :
    (ws.find? s.id).filter Statement.isDistinctVars = some s := by
  obtain ⟨hmem, hdistinct⟩ := List.mem_filter.mp hs
  rw [find?_of_nodup nodup hmem, Option.filter_some, hdistinct, if_pos rfl]

/-- If the index has all `$d` statements, it lists them in their order exactly if it has their ids
in this order. -/
theorem indexedDistinctVars_iff (nodup : ws.ids.Nodup)
    (perm : ws.distinctVars.Perm
      ((ws.statements.filter Statement.isDistinctVars).map Statement.id)) :
    ws.indexedDistinctVars.Perm (ws.statements.filter Statement.isDistinctVars) ∧
      (ws.indexedDistinctVars = ws.statements.filter Statement.isDistinctVars ↔
        ws.distinctVars = (ws.statements.filter Statement.isDistinctVars).map Statement.id) := by
  let g : StatementId → Option Statement :=
    fun id => (ws.find? id).filter Statement.isDistinctVars
  generalize hss : ws.statements.filter Statement.isDistinctVars = ss at perm ⊢
  have found : ∀ s ∈ ss, g s.id = some s := fun s hs => found_distinctVars nodup (hss ▸ hs)
  have hlisted : (ss.map Statement.id).filterMap g = ss := by
    rw [List.filterMap_map]
    conv_rhs => rw [← List.filterMap_some (l := ss)]
    exact List.filterMap_congr found
  have hids : ws.indexedDistinctVars.map Statement.id = ws.distinctVars := by
    show (ws.distinctVars.filterMap g).map Statement.id = _
    rw [List.map_filterMap]
    conv_rhs => rw [← List.filterMap_some (l := ws.distinctVars)]
    refine List.filterMap_congr fun id hid => ?_
    obtain ⟨s, hs, rfl⟩ := List.mem_map.mp (perm.subset hid)
    rw [found s hs, Option.map_some]
  refine ⟨?_, fun heq => ?_, fun heq => ?_⟩
  · have := perm.filterMap g
    rwa [hlisted] at this
  · rw [← hids, heq]
  · show ws.distinctVars.filterMap g = ss
    rw [heq, hlisted]

end Worksheet

theorem append_comm_iff_of_nodup {α : Type} {l₁ l₂ : List α} (nodup : (l₁ ++ l₂).Nodup) :
    l₁ ++ l₂ = l₂ ++ l₁ ↔ l₁ = [] ∨ l₂ = [] := by
  constructor
  · intro heq
    cases l₁ with
    | nil => exact Or.inl rfl
    | cons a rest₁ =>
        cases l₂ with
        | nil => exact Or.inr rfl
        | cons b rest₂ =>
            -- both lists would begin with the same element
            have hab : a = b := (List.cons.inj heq).1
            exact absurd hab ((List.nodup_append.mp nodup).2.2 a List.mem_cons_self b
              List.mem_cons_self)
  · rintro (rfl | rfl)
    · rw [List.nil_append, List.append_nil]
    · rw [List.nil_append, List.append_nil]

namespace Worksheet

variable {ws : Worksheet} {db : Database} {st : Settings} {early late inserted : List StatementId}

/-- The index is in order unless `$d` statements were inserted and there are others behind the
generated proof. -/
theorem Indexed.index_iff (h : ws.Indexed early late inserted) (nodup : ws.ids.Nodup) :
    ws.distinctVars.Perm ((ws.statements.filter Statement.isDistinctVars).map Statement.id) ∧
      (ws.distinctVars = (ws.statements.filter Statement.isDistinctVars).map Statement.id ↔
        late = [] ∨ inserted = []) := by
  have hnodup : ((ws.statements.filter Statement.isDistinctVars).map Statement.id).Nodup :=
    nodup.sublist (List.filter_sublist.map Statement.id)
  rw [h.ids] at hnodup ⊢
  rw [h.index, List.append_assoc, List.append_assoc]
  rw [List.append_assoc] at hnodup
  refine ⟨List.perm_append_comm.append_left early, ?_⟩
  rw [List.append_cancel_left_eq, append_comm_iff_of_nodup]
  exact (List.nodup_append.mp hnodup).2.1.perm List.perm_append_comm

/-- In a worksheet that has been loaded cleanly, and on which some calls have been made, the index
lists all `$d` statements, each once. They are in the order of the text exactly if no `$d` statement
was inserted while there are others behind the generated proof. -/
theorem distinctVars_inOrder_iff {request : Request} {text : Text}
    (clean : (load db st request text).broken = false) (calls : List Call) :
    let loaded := load db st request text
    let after := loaded.afterCalls calls
    after.indexedDistinctVars.Perm (after.statements.filter Statement.isDistinctVars) ∧
      after.indexedDistinctVars.Nodup ∧
      (after.indexedDistinctVars = after.statements.filter Statement.isDistinctVars ↔
        ((∃ p ∈ loaded.grantedBy calls, p.2.isInsertDistinctVars = true) →
          loaded.lateDistinctVars = [])) := by
  intro loaded after
  obtain ⟨proved, shaped⟩ := shaped_load clean
  obtain ⟨early, hloaded⟩ := indexed_load clean
  have hafter := hloaded.moves shaped (moves_afterCalls loaded calls)
  obtain ⟨proved', shaped'⟩ := shaped.moves (moves_afterCalls loaded calls)
  obtain ⟨hperm, hindex⟩ := hafter.index_iff shaped'.nodup
  obtain ⟨perm, hlisted⟩ := indexedDistinctVars_iff shaped'.nodup hperm
  have nodup : (after.statements.filter Statement.isDistinctVars).Nodup :=
    (List.Nodup.of_map Statement.id shaped'.nodup).filter _
  have nothing_added : ([] ++ (loaded.grantedBy calls).flatMap fun p => p.1.added p.2) = [] ↔
      ¬ ∃ p ∈ loaded.grantedBy calls, p.2.isInsertDistinctVars = true := by
    rw [List.nil_append, List.flatMap_eq_nil_iff]
    simp [added]
  refine ⟨perm, perm.nodup_iff.mpr nodup, hlisted.trans (hindex.trans ?_)⟩
  rw [List.map_eq_nil_iff, nothing_added, or_comm, ← imp_iff_not_or]

theorem distinctVars_inOrder_iff_shortText :
    let loaded := load .empty {} {} shortText
    let after := loaded.afterCalls
      [.edits {} [.insertDistinctVars [['x'], ['y']]], .renumber 10,
        .edits {} [.insertProof ⟨[['a']], [.index 0]⟩, .insertDistinctVars [['z'], ['w']]]]
    loaded.broken = false ∧ after.indexedDistinctVars.Perm
        (after.statements.filter Statement.isDistinctVars) ∧
      after.indexedDistinctVars = after.statements.filter Statement.isDistinctVars := by
  intro loaded after
  obtain ⟨perm, -, inOrder⟩ := distinctVars_inOrder_iff shortText_loads
    [.edits {} [.insertDistinctVars [['x'], ['y']]], .renumber 10,
      .edits {} [.insertProof ⟨[['a']], [.index 0]⟩, .insertDistinctVars [['z'], ['w']]]]
  have nothing_late : loaded.lateDistinctVars = [] := by decide +kernel
  exact ⟨shortText_loads, perm, inOrder.mpr fun _ => nothing_late⟩

/-- A worksheet with a `$d` statement behind its generated proof. -/
def lateText : Text :=
  "$( <MM> <PROOF_ASST> THEOREM=t LOC_AFTER=?\nqed::ax |- p\n$= ax $.\n$d x y\n$)\n".toList

/-- A `$d` statement that is inserted in front of another one is listed after it. -/
theorem distinctVars_outOfOrder :
    let after := (load .empty {} {} lateText).afterCalls
      [.edits {} [.insertDistinctVars [['z'], ['w']]]]
    (load .empty {} {} lateText).broken = false ∧
      after.distinctVarLists = [[['x'], ['y']], [['z'], ['w']]] ∧
      (after.statements.filter Statement.isDistinctVars).map Statement.content =
        [.distinctVars [['z'], ['w']], .distinctVars [['x'], ['y']]] ∧
      after.indexedDistinctVars ≠ after.statements.filter Statement.isDistinctVars := by
  decide +kernel

end Worksheet

end ProofSheet
