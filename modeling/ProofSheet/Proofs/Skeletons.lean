import ProofSheet.Proofs.CursorPlacement
import ProofSheet.Proofs.NewTheorems
import ProofSheet.Proofs.SkeletonText

set_option autoImplicit false

/-! # Skeletons load

The text of a skeleton spells a worksheet, so it loads cleanly. As `qed` cites no step and there
are no local references, what is read is what the worksheet has in the end
(`Worksheet.isSkeleton_load`), and as `qed` is the only derivation step, the cursor can be placed
nowhere else. So every theorem that has been put into a table has a skeleton that loads, if it is
plain (`Worksheet.skeleton_loads`).
-/

namespace ProofSheet

/-! ## What the statements of a skeleton tell -/

namespace Worksheet

variable {ws ws' : Worksheet} {db : Database} {st : Settings} {info : TheoremInfo}

/-- The worksheet is the skeleton of a theorem that the database has. -/
structure IsSkeleton (info : TheoremInfo) (ws : Worksheet) : Prop where
  clean : ws.broken = false
  output : ws.output = skeletonText info
  contents : ws.contents = info.contents
  steps : ws.steps.map Statement.content =
    info.hypothesisSteps.map .hypothesis ++ [.derivation info.qedStep]
  isNew : ws.isNew = false
  hypothesisCount : ws.hypothesisCount = info.hypotheses.length
  atQed : ws.AtQed

theorem eq_qedStep_of_contents (h : ws.contents = info.contents) {s : Statement}
    (hs : s ∈ ws.statements) {d : Derivation} (hd : s.content = .derivation d) :
    d = info.qedStep := by
  refine TheoremInfo.eq_qedStep ?_
  rw [← h, ← hd]
  exact mem_contents hs

/-- The statements of a skeleton refer to nothing by a local reference. -/
theorem settled_of_contents (h : ws.contents = info.contents) :
    ∀ s ∈ ws.statements, ∀ d, s.content = .derivation d → d.IsSettled := by
  intro s hs d hd
  rw [eq_qedStep_of_contents h hs hd]
  exact ⟨rfl, fun target htarget => (by cases htarget)⟩

/-- The steps of a skeleton have the levels that they are read with, as `qed` cites no step. -/
theorem levelled_of_contents (h : ws.contents = info.contents) : ws.Levelled := by
  have hnone : (info.hypothesisSteps.map Content.hypothesis).filterMap Content.citing? = [] := by
    rw [List.filterMap_map]
    exact List.filterMap_eq_nil_iff.mpr fun s _ => rfl
  have hciting : info.contents.filterMap Content.citing? = [(.qed, [])] := by
    rw [TheoremInfo.contents, List.filterMap_cons_none rfl, List.filterMap_append, hnone]
    rfl
  have hlevels : Levels.of ws.statements = [(.qed, 0)] := by
    rw [levels_eq, h, hciting]
    rfl
  intro c hc step hstep
  rw [h] at hc
  rw [hlevels]
  obtain rfl | ⟨s, hs, rfl⟩ | rfl | rfl := TheoremInfo.mem_contents hc
  · cases hstep
  · cases hstep
    obtain ⟨p, -, rfl⟩ := List.mem_map.mp hs
    rfl
  · cases hstep
    rfl
  · cases hstep

theorem steps_of_contents (h : ws.contents = info.contents) :
    ws.steps.map Statement.content =
      info.hypothesisSteps.map .hypothesis ++ [.derivation info.qedStep] := by
  have hsteps : ws.steps.map Statement.content = ws.contents.filter Content.isStep := by
    rw [contents, List.filter_map]
    rfl
  have hall : (info.hypothesisSteps.map Content.hypothesis).filter Content.isStep =
      info.hypothesisSteps.map .hypothesis := by
    refine List.filter_eq_self.mpr fun c hc => ?_
    obtain ⟨s, -, rfl⟩ := List.mem_map.mp hc
    rfl
  rw [hsteps, h, TheoremInfo.contents, List.filter_cons_of_neg Bool.false_ne_true,
    List.filter_append, hall]
  rfl

/-! ## The cursor of a skeleton -/

/-- Without a caret the cursor is bound to no statement that is read. -/
theorem cursor_without_caret {text : Text} {selected : Option StatementId}
    (hread : readText db st {} text = .ok ws) (nodup : ws.ids.Nodup)
    (hresolve : resolveLocalRefs { ws with selected := selected } = .ok ws') : ws'.cursor = {} := by
  obtain ⟨-, stand, hmet⟩ := readText_meets rfl hread
  obtain ⟨hcursor, -⟩ := splices_resolveLocalRefs hresolve nodup
  simp only [hmet] at hcursor
  obtain ⟨-, unset⟩ := cursor_spliced none stand nodup hcursor
  exact unset fun k hk => (by cases hk)

/-- A cursor that is placed without a caret is at `qed` if that is the only derivation step. -/
theorem PlacedBy.atQed {placement : CaretPlacement} (h : ws.PlacedBy placement none)
    (hqed : ∀ s ∈ ws.statements, ∀ d, s.content = .derivation d → d.id = .qed ∧ d.ref = none) :
    ws.AtQed := by
  have open_at_qed {chosen : Option Statement} (hchosen : ∀ s ∈ chosen, s ∈ ws.incomplete)
      (h : ws.AtOpenStep chosen) : ws.AtQed := by
    cases chosen with
    | none => exact h
    | some s =>
        obtain ⟨d, field, hd, hopen, hbound⟩ := h
        have hs : s ∈ ws.statements := (List.mem_filter.mp (hchosen s rfl)).1
        obtain ⟨hid, href⟩ := hqed s hs d hd
        refine ⟨s, hs, ?_, ?_⟩
        · rw [Statement.stepId?_eq, hd, ← hid]
          rfl
        · cases hopen with
          | ref label => exact hbound
          | formula label formula =>
              rw [href] at label
              cases label
          | hyps label formula settled =>
              rw [href] at label
              cases label
  cases placement with
  | asIs => exact h
  | firstIncomplete => exact open_at_qed (fun s hs => List.mem_of_head? hs) h
  | lastIncomplete => exact open_at_qed (fun s hs => List.mem_of_getLast? hs) h

/-- In a skeleton a cursor that is not set is placed at `qed`. -/
theorem atQed_of_contents {qed : Statement} (placement : CaretPlacement)
    (h : ws.contents = info.contents) (hqed : ws.qedStep? = some qed)
    (hid : qed.stepId? = some .qed) (hunset : ws.cursor = {}) :
    (ws.placeCursor placement).AtQed := by
  have placedBy : (ws.placeCursor placement).PlacedBy placement ws.cursor.caret :=
    placedBy_placeCursor hqed hid (by rw [hunset])
  rw [hunset] at placedBy
  refine placedBy.atQed fun s hs d hd => ?_
  rw [statements_placeCursor] at hs
  rw [eq_qedStep_of_contents h hs hd]
  exact ⟨rfl, rfl⟩

/-! ## Loading a skeleton -/

/-- A skeleton that has been read is for the theorem, which is not new. -/
theorem isNew_of_contents {text : Text} (hread : readText db st {} text = .ok ws)
    (h : ws.contents = info.contents) (hfind : db.find? info.label = some info) :
    ws.isNew = false := by
  have titled := titled_readText rfl rfl hread
  rw [h, TheoremInfo.theorem?_contents] at titled
  have hlabel : ws.theoremLabel = some info.label := Option.toList_eq_singleton_iff.mp titled.symm
  have start : TellsNew db {} := rfl
  have told := start.readBlocks (readBlocks_of_readText hread)
  rw [told, hlabel, Option.bind_some, hfind]
  rfl

theorem hypothesisCount_of_contents {text : Text} (hread : readText db st {} text = .ok ws)
    (h : ws.contents = info.contents) : ws.hypothesisCount = info.hypotheses.length := by
  obtain ⟨proved, shaped⟩ := shaped_readText hread
  rw [shaped.hypothesisCount, h, TheoremInfo.countP_contents]

/-- The text of a skeleton is loaded as the skeleton, if the theorem is plain and the database has
it. -/
theorem isSkeleton_load (plain : info.IsPlain) (hfind : db.find? info.label = some info)
    (st : Settings) : (load db st {} (skeletonText info)).IsSkeleton info := by
  have writes := plain.writes db
  have laidOut := laidOut_of_writes writes
  have spelled := writes.imp fun c x => Chunk.Writes.spells
  have arranged := TheoremInfo.arranged hfind
  have clean := (clean_chunks_iff laidOut st).mpr ⟨_, spelled, arranged⟩
  obtain ⟨read, hread, -, hcontents⟩ := exists_readText_chunks laidOut spelled arranged st
  rw [flatMap_skeletonChunks] at clean hread
  obtain ⟨read', selected, ws, qed, hread', nodup, hresolve, hqed, hid, hload⟩ := load_placed clean
  obtain rfl : read = read' := Except.ok.inj (hread.symm.trans hread')
  -- no local reference is resolved, and no level is measured anew
  have settled : ∀ s ∈ { read with selected := selected }.statements, ∀ d,
      s.content = .derivation d → d.IsSettled := settled_of_contents hcontents
  obtain ⟨ws', hresolve', keeps⟩ := resolveLocalRefs_of_settled settled
  obtain rfl : ws = ws' := Except.ok.inj (hresolve.symm.trans hresolve')
  have hws : ws.indexDistinctVars.contents = info.contents := keeps.contents.trans hcontents
  have hmeasured := (levelled_of_contents hws).measureLevels_eq
  rw [hmeasured] at hload hqed
  -- placing the cursor changes nothing else
  obtain ⟨c, hplaced⟩ := placeCursor_eq st.caretPlacement ws.indexDistinctVars
  have hplaced' := hload.trans hplaced
  have hcontents' : (load db st {} (skeletonText info)).contents = info.contents := by
    rw [hplaced']
    exact hws
  refine ⟨clean, ?_, hcontents', steps_of_contents hcontents', ?_, ?_, ?_⟩
  · have houtput : ws.output = read.output := by
      rw [output, keeps.statements]
      exact output_respan read
    rw [hplaced']
    exact houtput.trans (output_readText rfl hread)
  · have known : read.isNew = false := isNew_of_contents hread hcontents hfind
    rw [hplaced']
    exact (isNew_resolveLocalRefs hresolve).trans known
  · have hcount : read.hypothesisCount = info.hypotheses.length :=
      hypothesisCount_of_contents hread hcontents
    rw [hplaced']
    exact keeps.hypothesisCount.trans hcount
  · have hunset : ws.cursor = {} := cursor_without_caret hread nodup hresolve
    rw [hload]
    exact atQed_of_contents st.caretPlacement hws hqed hid hunset

end Worksheet

/-! ## Tables of theorems -/

namespace TheoremTable

variable {table : TheoremTable} {label : Text} {info : TheoremInfo}

theorem label_of_find? (h : table.find? label = some info) : info.label = label := by
  rw [find?, List.findRev?_eq_find?_reverse] at h
  have heq := List.find?_some h
  exact beq_iff_eq.mp heq

theorem labels_foldl_insert (infos : List TheoremInfo) (table : TheoremTable) :
    (infos.foldl insert table).labels = table.labels := by
  induction infos generalizing table with
  | nil => rfl
  | cons info rest ih => exact ih (table.insert info)

/-- A table without further labels knows the labels of its theorems only. -/
theorem exists_find? (hlabels : table.labels = []) (known : table.knows label = true) :
    ∃ info, table.find? label = some info := by
  rw [knows, hlabels, List.contains_nil, Bool.or_false] at known
  exact Option.isSome_iff_exists.mp known

end TheoremTable

/-- For every theorem that has been put into a table there is a skeleton. If the theorem is plain,
it loads cleanly. -/
theorem Worksheet.skeleton_loads (infos : List TheoremInfo) (st : Settings) {label : Text}
    (known : (infos.foldl TheoremTable.insert {}).knows label = true) :
    ∃ info, (infos.foldl TheoremTable.insert {}).find? label = some info ∧ info.label = label ∧
      (info.IsPlain →
        ∃ ws, skeleton (infos.foldl TheoremTable.insert {}).database st label = .ok ws ∧
          ws.IsSkeleton info) := by
  have hlabels := TheoremTable.labels_foldl_insert infos {}
  generalize infos.foldl TheoremTable.insert {} = table at known hlabels ⊢
  obtain ⟨info, hfind⟩ := TheoremTable.exists_find? hlabels known
  have hlabel := TheoremTable.label_of_find? hfind
  refine ⟨info, hfind, hlabel, fun plain => ?_⟩
  have hfound : table.database.find? info.label = some info := by
    rw [hlabel]
    exact hfind
  refine ⟨load table.database st {} (skeletonText info), ?_, isSkeleton_load plain hfound st⟩
  rw [skeleton, ← hlabel, hfound]

/-- A theorem with a work variable and uneven blanks in its conclusion. -/
def weakening : TheoremInfo where
  label := "a1i".toList
  conclusion := "|- ( &W1  -> ph )".toList
  hypotheses := [⟨"a1i.1".toList, "|- ph".toList⟩]

theorem Worksheet.skeleton_loads_weakening :
    ([weakening].foldl TheoremTable.insert {}).knows weakening.label = true ∧ weakening.IsPlain ∧
      ∃ ws,
        skeleton ([weakening].foldl TheoremTable.insert {}).database {} weakening.label = .ok ws ∧
          ws.IsSkeleton weakening := by
  have known : ([weakening].foldl TheoremTable.insert {}).knows weakening.label = true := by
    decide
  have plain : weakening.IsPlain := by
    have isLabel : IsLabel "a1i.1".toList :=
      ⟨by decide, by decide, by decide, by decide, by decide⟩
    have isLine : IsLine "|- ph".toList := by decide
    exact ⟨by decide, by decide, by decide, by decide, List.forall_mem_singleton.mpr isLabel,
      List.forall_mem_singleton.mpr isLine, by decide⟩
  obtain ⟨info, hfind, -, loads⟩ := skeleton_loads [weakening] {} known
  obtain rfl : weakening = info := Option.some.inj hfind
  exact ⟨known, plain, loads plain⟩

end ProofSheet
