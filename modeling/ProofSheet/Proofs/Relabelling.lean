import ProofSheet.Proofs.Intact
import ProofSheet.Proofs.Reload

set_option autoImplicit false

/-! # Renumbering is a consistent relabelling

The new numbers go to the steps in order, while old and new numbers may overlap. Since the steps
have different names, before and after, the name in an entry of a hypothesis list leads to the same
statement as before (`Worksheet.stepIndex?_renumber`). A worksheet that has been renumbered differs
from what it was in nothing else (`Worksheet.Relabels`), and renumbering it again changes nothing
(`Worksheet.renumber_relabels`).
-/

namespace ProofSheet

/-! ## What a relabelling is -/

/-- The name that a step gets: the next multiple of the interval after those for the numbered steps
before it, unless it is `qed`. -/
def StepId.relabelled (interval : Nat) (before : List Statement) : StepId → StepId
  | qed => qed
  | number _ => number (interval * ((before.filterMap Statement.stepId?).countP (!·.isQed) + 1))

/-- An entry of a hypothesis list leads to the statement to which it led before. -/
inductive Citation.Relabelled (ws ws' : Worksheet) : Citation → Citation → Prop where
  | step {id id' : StepId} {i : Nat} (old : ws.stepIndex? id = some i)
      (new : ws'.stepIndex? id' = some i) : Relabelled ws ws' (.step id) (.step id')
  | unknown : Relabelled ws ws' .unknown .unknown

/-- A statement with some statements before it is what it was, apart from the place where it stands,
but for the name of a step, what the step cites, and its lead, which is what its fields amount
to. -/
inductive Statement.Relabelled (ws ws' : Worksheet) (interval : Nat) (before : List Statement)
    (s : Statement) : Statement → Prop where
  | other {s' : Statement} (hs : s.content.step? = none) (new : s'.unplaced = s.unplaced) :
      Relabelled ws ws' interval before s s'
  | hypothesis {s' : Statement} {h h' : Step} (hs : s.content = .hypothesis h)
      (step : h' = { h with id := h.id.relabelled interval before })
      (new : s'.unplaced =
        { s with content := .hypothesis h', lead := h'.hypothesisLead }.unplaced) :
      Relabelled ws ws' interval before s s'
  | derivation {s' : Statement} {d d' : Derivation} {hyps : List Citation}
      (hs : s.content = .derivation d)
      (cited : List.Forall₂ (Citation.Relabelled ws ws') d.hyps hyps)
      (step : d' = { d with id := d.id.relabelled interval before, hyps := hyps })
      (new : s'.unplaced = { s with content := .derivation d', lead := d'.lead }.unplaced) :
      Relabelled ws ws' interval before s s'

/-- One worksheet is another one with the steps relabelled: each statement is relabelled, the
statements are laid out anew, and nothing else is changed but the greatest step number. -/
structure Worksheet.Relabels (ws : Worksheet) (interval : Nat) (ws' : Worksheet) : Prop where
  rest : ws' =
    { ws with
      statements := ws'.statements
      greatestStep := interval * ws.numberedIds.length }
  length : ws'.statements.length = ws.statements.length
  placed : respanFrom 0 0 ws'.statements = ws'.statements
  each : ∀ (i : Nat) (s : Statement), ws.statements[i]? = some s →
    ∃ s', ws'.statements[i]? = some s' ∧
      s.Relabelled ws ws' interval (ws.statements.take i) s'

namespace Worksheet

variable {ws ws' : Worksheet} {db : Database} {st : Settings} {interval changed : Nat}

/-! ## New names -/

theorem nodup_numberedIds (nodup : ws.stepIds.Nodup) : ws.numberedIds.Nodup :=
  nodup.filter _

/-- Where the steps have different names, the place of a step decides its new name. -/
theorem newNames_of_getElem? (nodup : ws.stepIds.Nodup) {i : Nat} {id : StepId}
    (h : ws.numberedIds[i]? = some id) :
    (ws.newNames interval).apply id = .number (interval * (i + 1)) := by
  obtain ⟨j, hj, happly⟩ := Renaming.apply_of_mem (k := interval) (List.mem_of_getElem? h)
  obtain ⟨hi, -⟩ := List.getElem?_eq_some_iff.mp h
  have hij : i = j := (List.getElem?_inj hi (nodup_numberedIds nodup)).mp (h.trans hj.symm)
  rw [newNames, happly, hij]

/-- A step gets the next multiple after those for the numbered steps before it. -/
theorem newNames_eq_relabelled (nodup : ws.stepIds.Nodup) {before after : List Statement}
    {s : Statement} {id : StepId} (hss : ws.statements = before ++ s :: after)
    (hid : s.stepId? = some id) :
    (ws.newNames interval).apply id = id.relabelled interval before := by
  cases id with
  | qed => exact (newNames_eq_qed ws interval .qed).mpr rfl
  | number n =>
      refine newNames_of_getElem? nodup ?_
      have hids : ws.numberedIds = (before.filterMap Statement.stepId?).filter (!·.isQed) ++
          .number n :: (after.filterMap Statement.stepId?).filter (!·.isQed) := by
        rw [numberedIds, stepIds, hss, List.filterMap_append, List.filterMap_cons_some hid,
          List.filter_append, List.filter_cons_of_pos (by rfl)]
      rw [hids, List.countP_eq_length_filter, List.getElem?_append_right (Nat.le_refl _),
        Nat.sub_self, List.getElem?_cons_zero]

/-- The numbered steps of a renumbered worksheet have the multiples as their names, in order. -/
theorem getElem?_numberedIds_renumber (nodup : ws.stepIds.Nodup)
    (h : ws.renumber interval = .ok (ws', changed)) :
    ws'.numberedIds.length = ws.numberedIds.length ∧
      ∀ (i : Nat) (id : StepId), ws'.numberedIds[i]? = some id →
        id = .number (interval * (i + 1)) := by
  have hids : ws'.numberedIds = ws.numberedIds.map (ws.newNames interval).apply := by
    rw [numberedIds, numberedIds, stepIds_renumber h, List.filter_map]
    congr 1
    refine List.filter_congr fun id _ => ?_
    have hqed : ((ws.newNames interval).apply id).isQed = id.isQed := by
      rw [Bool.eq_iff_iff, StepId.isQed, StepId.isQed, beq_iff_eq, beq_iff_eq]
      exact newNames_eq_qed ws interval id
    rw [Function.comp_apply, hqed]
  refine ⟨by rw [hids, List.length_map], fun i id hid => ?_⟩
  rw [hids, List.getElem?_map, Option.map_eq_some_iff] at hid
  obtain ⟨old, hold, rfl⟩ := hid
  exact newNames_of_getElem? nodup hold

/-! ## Names lead where they led -/

/-- The statements of a renumbered worksheet are the renamed ones, laid out. -/
theorem statements_renumber (h : ws.renumber interval = .ok (ws', changed)) :
    ws'.statements = respanFrom 0 0 (ws.statements.map (ws.newNames interval).applyStatement) := by
  obtain ⟨-, -, rfl⟩ := renumber_ok h
  rfl

theorem findIdx?_congr {α : Type} {p q : α → Bool} {l : List α} (h : ∀ a ∈ l, p a = q a) :
    l.findIdx? p = l.findIdx? q := by
  induction l with
  | nil => rfl
  | cons a l ih =>
      obtain ⟨ha, hl⟩ := List.forall_mem_cons.mp h
      rw [List.findIdx?_cons, List.findIdx?_cons, ha, ih hl]

/-- A step is found under its new name where it was found under its old one. -/
theorem stepIndex?_renumber (h : ws.renumber interval = .ok (ws', changed)) {id : StepId}
    (hid : id ∈ ws.stepIds) :
    ws'.stepIndex? ((ws.newNames interval).apply id) = ws.stepIndex? id := by
  obtain ⟨hpos, -, -⟩ := renumber_ok h
  have index_eq : ∀ (ws : Worksheet) (id : StepId),
      ws.stepIndex? id = (ws.statements.map Statement.stepId?).findIdx? (· == some id) := by
    intro ws id
    rw [List.findIdx?_map]
    rfl
  have hnames : ws'.statements.map Statement.stepId? =
      (ws.statements.map Statement.stepId?).map (Option.map (ws.newNames interval).apply) := by
    rw [statements_renumber h, map_respanFrom Statement.stepId? (fun _ _ _ => rfl), List.map_map,
      List.map_map]
    refine List.map_congr_left fun s _ => ?_
    exact Renaming.stepId?_applyContent _ s.content
  rw [index_eq, index_eq, hnames, List.findIdx?_map]
  refine findIdx?_congr fun found hfound => ?_
  rw [Bool.eq_iff_iff, Function.comp_apply, beq_iff_eq, beq_iff_eq]
  cases found with
  | none => simp
  | some id' =>
      have hid' : id' ∈ ws.stepIds := by
        obtain ⟨s, hs, hstep⟩ := List.mem_map.mp hfound
        exact List.mem_filterMap.mpr ⟨s, hs, hstep⟩
      rw [Option.map_some, Option.some.injEq, Option.some.injEq]
      exact ⟨newNames_injOn hpos hid' hid, congrArg _⟩

/-- The name of a step is found. -/
theorem exists_stepIndex? {id : StepId} (hid : id ∈ ws.stepIds) :
    ∃ i, ws.stepIndex? id = some i := by
  obtain ⟨s, hs, hstep⟩ := List.mem_filterMap.mp hid
  rw [← Option.isSome_iff_exists, stepIndex?, List.findIdx?_isSome, List.any_eq_true]
  exact ⟨s, hs, beq_iff_eq.mpr hstep⟩

/-- What the steps cite is relabelled. -/
theorem relabelled_hyps (hcites : ws.CitesBackwards)
    (h : ws.renumber interval = .ok (ws', changed)) {d : Derivation}
    (hd : .derivation d ∈ ws.contents) :
    List.Forall₂ (Citation.Relabelled ws ws') d.hyps
      (d.hyps.map (ws.newNames interval).applyCitation) := by
  rw [List.forall₂_map_right_iff]
  refine List.forall₂_same.mpr fun entry hentry => ?_
  rcases (hcites.citesOnly hd d rfl).2 entry hentry with rfl | ⟨id, hid, rfl⟩
  · exact .unknown
  · obtain ⟨i, hi⟩ := exists_stepIndex? hid
    exact .step hi ((stepIndex?_renumber h hid).trans hi)

/-! ## One renumbering -/

/-- What is renamed and laid out is relabelled. -/
theorem Intact.relabels (intact : ws.Intact) (h : ws.renumber interval = .ok (ws', changed)) :
    ws.Relabels interval ws' := by
  have hstatements := statements_renumber h
  have hunplaced : ws'.statements.map Statement.unplaced =
      ws.statements.map fun s =>
        ((ws.newNames interval).applyStatement s).unplaced := by
    rw [hstatements, map_unplaced_respanFrom, List.map_map]
    rfl
  refine ⟨?_, ?_, ?_, fun i s hs => ?_⟩
  · obtain ⟨-, -, rfl⟩ := renumber_ok h
    rfl
  · simpa using congrArg List.length hunplaced
  · rw [hstatements, respanFrom_respanFrom]
  -- the statement in place `i` is the renamed one
  have hat := congrArg (·[i]?) hunplaced
  simp only [List.getElem?_map, hs, Option.map_some, Option.map_eq_some_iff] at hat
  obtain ⟨s', hs', hnew⟩ := hat
  refine ⟨s', hs', ?_⟩
  obtain ⟨hi, hget⟩ := List.getElem?_eq_some_iff.mp hs
  have hsplit : ws.statements = ws.statements.take i ++ s :: ws.statements.drop (i + 1) := by
    rw [← hget, List.getElem_cons_drop, List.take_append_drop]
  have hname : ∀ id, s.stepId? = some id →
      (ws.newNames interval).apply id = id.relabelled interval (ws.statements.take i) :=
    fun id hid => newNames_eq_relabelled intact.nodup hsplit hid
  have hmem : s ∈ ws.statements := List.mem_of_getElem? hs
  obtain ⟨sid, content, lead, tail, start, position⟩ := s
  cases content with
  | hypothesis step =>
      refine .hypothesis rfl rfl ?_
      rw [hnew, ← hname step.id rfl]
      rfl
  | derivation d =>
      refine .derivation rfl (relabelled_hyps intact.cites h (mem_contents hmem)) rfl ?_
      rw [hnew, ← hname d.id rfl]
      rfl
  | _ => exact .other rfl hnew

/-! ## Another renumbering -/

/-- A statement is not changed by a renaming that leaves alone its name and the names that it cites,
if its lead is what its fields amount to. -/
theorem applyStatement_eq_self {names : Renaming} {s : Statement}
    (hname : ∀ id, s.stepId? = some id → names.apply id = id)
    (hcited : ∀ d, s.content = .derivation d → ∀ entry ∈ d.hyps, names.applyCitation entry = entry)
    (hlead : ∀ lead, s.content.lead? = some lead → s.lead = lead) :
    names.applyStatement s = s := by
  have hcontent : names.applyContent s.content = s.content := by
    cases hc : s.content with
    | hypothesis step =>
        have hid := hname step.id (by rw [Statement.stepId?_eq, hc]; rfl)
        show Content.hypothesis { step with id := names.apply step.id } = _
        rw [hid]
    | derivation d =>
        have hid := hname d.id (by rw [Statement.stepId?_eq, hc]; rfl)
        have hhyps : d.hyps.map names.applyCitation = d.hyps := by
          rw [List.map_congr_left (hcited d hc), List.map_id']
        show Content.derivation { d with id := names.apply d.id, hyps := d.hyps.map _ } = _
        rw [hid, hhyps]
    | _ => rfl
  have happly : names.applyStatement s =
      { s with
        content := names.applyContent s.content
        lead := (names.applyContent s.content).lead?.getD s.lead } := rfl
  rw [happly, hcontent]
  cases hl : s.content.lead? with
  | none => rfl
  | some lead =>
      rw [Option.getD_some, ← hlead lead hl]

theorem renumber_eq (hpos : 0 < interval) (whole : ws.broken = false)
    (room : interval * ws.numberedIds.length ≤ StepId.maxNumber) :
    ws.renumber interval =
      .ok
        (respan
          { ws with
            statements := ws.statements.map (ws.newNames interval).applyStatement
            greatestStep := interval * ws.numberedIds.length },
        (ws.statements.zip (ws.statements.map (ws.newNames interval).applyStatement)).countP
          fun (old, new) => new.lead != old.lead) := by
  rw [renumber, if_neg hpos.ne', whole, if_neg Bool.false_ne_true, if_neg (Nat.not_lt.mpr room)]
  rfl

/-- In a renumbered worksheet the lead of a step is what its fields amount to. -/
theorem lead_renumber (h : ws.renumber interval = .ok (ws', changed)) {s : Statement}
    (hs : s ∈ ws'.statements) {lead : Text} (hlead : s.content.lead? = some lead) :
    s.lead = lead := by
  have hmem : (s.content, s.lead) ∈
      (ws.statements.map (ws.newNames interval).applyStatement).map
        fun s => (s.content, s.lead) := by
    rw [← map_respanFrom (fun s : Statement => (s.content, s.lead)) (fun _ _ _ => rfl) 0 0,
      ← statements_renumber h]
    exact List.mem_map_of_mem hs
  obtain ⟨t, ht, hts⟩ := List.mem_map.mp hmem
  obtain ⟨old, -, rfl⟩ := List.mem_map.mp ht
  obtain ⟨hcontent, hwritten⟩ := Prod.mk.inj hts
  have hrefreshed : ((ws.newNames interval).applyStatement old).lead =
      ((ws.newNames interval).applyStatement old).content.lead?.getD old.lead := rfl
  rw [← hwritten, hrefreshed, hcontent, hlead, Option.getD_some]

/-- Another renumbering renames nothing. -/
theorem Intact.map_applyStatement_renumber (intact : ws.Intact)
    (h : ws.renumber interval = .ok (ws', changed)) :
    ws'.statements.map (ws'.newNames interval).applyStatement = ws'.statements := by
  have intact' := intact.renumber h
  have same : ∀ id ∈ ws'.stepIds, (ws'.newNames interval).apply id = id := by
    intro id hid
    obtain ⟨rfl, happly⟩ | ⟨i, -, hi, happly⟩ := newNames_cases interval hid
    · exact happly
    · rw [happly, ← (getElem?_numberedIds_renumber intact.nodup h).2 i id hi]
  have stays : ∀ s ∈ ws'.statements, (ws'.newNames interval).applyStatement s = s := by
    intro s hs
    refine applyStatement_eq_self (fun id hid => ?_) (fun d hd entry hentry => ?_)
      fun lead hlead => ?_
    · exact same id (List.mem_filterMap.mpr ⟨s, hs, hid⟩)
    · rcases (intact'.cites.citesOnly (mem_contents hs) d hd).2 entry hentry with
        rfl | ⟨id, hid, rfl⟩
      · rfl
      · exact congrArg Citation.step (same id hid)
    · exact lead_renumber h hs hlead
  rw [List.map_congr_left stays, List.map_id']

/-- Renumbering again changes nothing. -/
theorem Intact.renumber_again (intact : ws.Intact)
    (h : ws.renumber interval = .ok (ws', changed)) : ws'.renumber interval = .ok (ws', 0) := by
  obtain ⟨hpos, hroom, -⟩ := renumber_ok h
  have hrelabels := intact.relabels h
  obtain ⟨hlength, -⟩ := getElem?_numberedIds_renumber intact.nodup h
  have hgreatest : ws'.greatestStep = interval * ws'.numberedIds.length := by
    rw [hlength]
    exact congrArg Worksheet.greatestStep hrelabels.rest
  have hrespan : respan
      { ws' with statements := ws'.statements, greatestStep := interval * ws'.numberedIds.length } =
        ws' := by
    rw [← hgreatest, respan, hrelabels.placed]
  have hcount : (ws'.statements.zip ws'.statements).countP
      (fun (old, new) => new.lead != old.lead) = 0 := by
    rw [List.countP_eq_zero]
    intro p hp
    rw [← List.map_id ws'.statements, List.zip_map', List.mem_map] at hp
    obtain ⟨s, -, rfl⟩ := hp
    simp
  rw [renumber_eq hpos (intact.renumber h).whole (hlength ▸ hroom),
    intact.map_applyStatement_renumber h, hrespan, hcount]

/-! ## The number of changes -/

/-- A renamed statement has another text exactly if it has another lead. -/
theorem text_applyStatement_ne_iff (names : Renaming) (s : Statement) :
    ((names.applyStatement s).text != s.text) = ((names.applyStatement s).lead != s.lead) := by
  have htail : (names.applyStatement s).tail = s.tail := rfl
  rw [Bool.eq_iff_iff, bne_iff_ne, bne_iff_ne, Statement.text, Statement.text, htail, ne_eq,
    List.append_left_inj]

/-- The statements that are counted are those of which the text changed. -/
theorem changed_eq (h : ws.renumber interval = .ok (ws', changed)) (whole : ws.broken = false) :
    changed = (ws.statements.zip ws'.statements).countP fun (old, new) => new.text != old.text := by
  obtain ⟨hpos, hroom, -⟩ := renumber_ok h
  let renamed := ws.statements.map (ws.newNames interval).applyStatement
  have hchanged : changed =
      (ws.statements.zip renamed).countP fun (old, new) => new.lead != old.lead := by
    rw [renumber_eq hpos whole hroom] at h
    exact (Prod.mk.inj (Except.ok.inj h)).2.symm
  have htexts : ws'.statements.map Statement.text = renamed.map Statement.text := by
    rw [statements_renumber h]
    exact map_respanFrom Statement.text (fun _ _ _ => rfl) 0 0 renamed
  -- only the texts of the new statements are looked at
  have of_texts : ∀ ss : List Statement,
      (ws.statements.zip ss).countP (fun (old, new) => new.text != old.text) =
        (ws.statements.zip (ss.map Statement.text)).countP fun (old, text) => text != old.text := by
    intro ss
    rw [List.zip_map_right, List.countP_map]
    rfl
  rw [hchanged, of_texts, htexts, ← of_texts]
  refine List.countP_congr fun p hp => ?_
  obtain ⟨s, rfl⟩ : ∃ s, p = (s, (ws.newNames interval).applyStatement s) := by
    rw [← List.map_id ws.statements, List.zip_map', List.mem_map] at hp
    obtain ⟨s, -, hs⟩ := hp
    exact ⟨s, hs.symm⟩
  dsimp only
  rw [text_applyStatement_ne_iff]

/-- Renumbering a worksheet that has been loaded cleanly, whatever calls came before, is a
consistent relabelling, as long as its steps have different names and the new numbers are in range:
it succeeds, it counts the statements of which it changes the text, and to do it again changes
nothing. -/
theorem renumber_relabels {request : Request} {text : Text}
    (clean : (load db st request text).broken = false) (calls : List Call)
    (nodup : ((load db st request text).afterCalls calls).stepIds.Nodup) (hpos : 0 < interval)
    (room : interval * ((load db st request text).afterCalls calls).numberedIds.length ≤
      StepId.maxNumber) :
    ∃ ws' changed,
      ((load db st request text).afterCalls calls).renumber interval = .ok (ws', changed) ∧
        ((load db st request text).afterCalls calls).Relabels interval ws' ∧
        changed =
          (((load db st request text).afterCalls calls).statements.zip ws'.statements).countP
            (fun (old, new) => new.text != old.text) ∧
        ws'.renumber interval = .ok (ws', 0) := by
  have intact := intact_afterCalls clean calls nodup
  generalize (load db st request text).afterCalls calls = ws at intact room
  have h := renumber_eq hpos intact.whole room
  exact ⟨_, _, h, intact.relabels h, changed_eq h intact.whole, intact.renumber_again h⟩

theorem renumber_relabels_shortText :
    (load .empty {} {} shortText).broken = false ∧
      ((load .empty {} {} shortText).afterCalls shortCalls).stepIds.Nodup ∧ 0 < 2 ∧
      2 * ((load .empty {} {} shortText).afterCalls shortCalls).numberedIds.length ≤
        StepId.maxNumber ∧
      ∃ ws' changed,
        ((load .empty {} {} shortText).afterCalls shortCalls).renumber 2 = .ok (ws', changed) ∧
          ((load .empty {} {} shortText).afterCalls shortCalls).Relabels 2 ws' ∧
          changed = (((load .empty {} {} shortText).afterCalls shortCalls).statements.zip
            ws'.statements).countP (fun (old, new) => new.text != old.text) ∧
          ws'.renumber 2 = .ok (ws', 0) := by
  have nodup : ((load .empty {} {} shortText).afterCalls shortCalls).stepIds.Nodup := by
    decide +kernel
  have room : 2 * ((load .empty {} {} shortText).afterCalls shortCalls).numberedIds.length ≤
      StepId.maxNumber := by
    decide +kernel
  exact ⟨shortText_loads, nodup, by decide, room,
    renumber_relabels shortText_loads shortCalls nodup (by decide) room⟩

end Worksheet

end ProofSheet
