import ProofSheet.Proofs.Agreement
import ProofSheet.Proofs.Grammar
import ProofSheet.Proofs.Reload
import ProofSheet.Proofs.Targets

set_option autoImplicit false

/-! # Which texts are worksheets

A text is a worksheet if its blocks spell statements, and these stand in an order that makes a
worksheet (`Arranged`): a header first and a footer last, hypotheses before derivation steps, the
last step `qed`, and so on. Loading accepts exactly the worksheets (`Worksheet.loads_iff`).

The order is compared with the phases that the statements go through. What a phase tells of the
statements before turns each clause of the order into a requirement of the next statement
(`InOrder`), and the other way round.
-/

namespace ProofSheet

/-- What the phases require of a statement and of the ones before it. -/
structure InOrder (before : List Content) (c : Content) : Prop where
  header : c.isHeader = true ↔ before = []
  /-- A hypothesis stands before all derivation steps. -/
  hypothesis : c.isHypothesis = true → before.any Content.isDerivation = false
  /-- A step stands before `qed`, or is `qed`. -/
  step : c.isStep = true → before.any Content.isQed = false
  /-- There is one generated proof at most, and it stands after `qed`. -/
  proof : c.isProof = true → before.any Content.isQed = true ∧ before.any Content.isProof = false

/-- The statements stand in an order that makes a worksheet. -/
structure Arranged (db : Database) (cs : List Content) : Prop where
  /-- The first statement is the header, the last one is the footer, and no other is one. -/
  framed : ∃ header middle, cs = .header header :: (middle ++ [.footer]) ∧
    ∀ c ∈ middle, c.isHeader = false ∧ c.isFooter = false
  names : (cs.filterMap Content.stepId?).Nodup
  /-- The last step is `qed`. -/
  qed : (cs.filterMap Content.stepId?).getLast? = some .qed
  hypotheses : EachAfter (fun before c =>
    c.isHypothesis = true → before.any Content.isDerivation = false) cs
  /-- There is one generated proof at most, and it stands after `qed`. -/
  proof : EachAfter (fun before c =>
    c.isProof = true → before.any Content.isQed = true ∧ before.any Content.isProof = false) cs
  /-- What a step cites stands before it. -/
  cited : EachAfter (fun before => CitesEarlier (before.filterMap Content.stepId?)) cs
  resolvable : EachAfter Resolvable cs
  /-- There are as many hypotheses as the theorem has, if it is known. -/
  counted : ∀ label ∈ cs.filterMap Content.theorem?, ∀ info, db.find? label = some info →
    info.hypotheses.length = cs.countP Content.isHypothesis

/-- The text is a worksheet: its first token is in the first column, and its blocks spell
statements that stand in the right order. -/
def IsWorksheet (db : Database) (text : Text) : Prop :=
  (Block.group (tokens text)).1 = [] ∧
    ∃ cs, List.Forall₂ (fun b => Spells db b.head.text b.words b.tail) (blocksOf text) cs ∧
      Arranged db cs

/-! ## Phases and order -/

theorem EachAfter.of_append {P : List Content → Content → Prop} {cs ds : List Content}
    (h : EachAfter P (cs ++ ds)) : EachAfter P cs := by
  intro before c after hcs
  refine h before c (after ++ ds) ?_
  rw [hcs, List.append_assoc, List.cons_append]

/-- What a phase that is reached from the opening tells. -/
theorem Phase.told {p : Phase} {cs : List Content} (h : Phase.opening.after cs = some p) :
    p.isOpen = cs.any Content.isHeader ∧ p.isDerived = cs.any Content.isDerivation ∧
      p.isConcluded = cs.any Content.isQed ∧ p.isProved = cs.any Content.isProof ∧
      p.isClosed = cs.any Content.isFooter := Phase.after_tells h

/-- What leads from the opening to a phase is in order. -/
theorem Phase.inOrder {p : Phase} {cs : List Content} (h : Phase.opening.after cs = some p) :
    EachAfter InOrder cs := by
  rintro before c after rfl
  obtain ⟨q, q', hbefore, hnext, -⟩ := Phase.after_split h
  obtain ⟨hopen, hderived, hconcluded, hproved, -⟩ := Phase.told hbefore
  obtain ⟨hheader, -, -, hproof, hhypothesis, hstep⟩ := Phase.next_requires hnext
  refine ⟨?_, fun hc => ?_, fun hc => ?_, fun hc => ?_⟩
  · constructor
    · intro hc
      -- the first statement is the header, so nothing stands before another one
      cases before with
      | nil => rfl
      | cons first rest =>
          have hsplit : Phase.opening.after ([] ++ first :: rest) = some q := hbefore
          obtain ⟨p₁, p₂, hnil, hfirst, -⟩ := Phase.after_split hsplit
          cases hnil
          have hheader₁ := (Phase.next_requires hfirst).1.mpr rfl
          have hclosed := hheader.mp hc
          rw [hopen, List.any_cons, hheader₁, Bool.true_or] at hclosed
          cases hclosed
    · rintro rfl
      exact hheader.mpr (hopen.trans rfl)
  · rw [← hderived]
    exact (hhypothesis hc).1
  · rw [← hconcluded]
    exact hstep hc
  · rw [← hconcluded, ← hproved]
    exact hproof hc

/-- What leads from the opening to the end is framed by the header and the footer. -/
theorem Phase.framed {proved : Bool} {cs : List Content}
    (h : Phase.opening.after cs = some (.closed proved)) :
    ∃ header middle, cs = .header header :: (middle ++ [.footer]) ∧
      ∀ c ∈ middle, c.isHeader = false ∧ c.isFooter = false := by
  have horder := Phase.inOrder h
  rcases cs with - | ⟨first, rest⟩
  · cases h
  have hfirst : first.isHeader = true := (horder [] first rest rfl).header.mpr rfl
  obtain ⟨header, rfl⟩ : ∃ header, first = .header header := by
    cases first with
    | header header => exact ⟨header, rfl⟩
    | _ => cases hfirst
  rcases List.eq_nil_or_concat rest with rfl | ⟨middle, last, rfl⟩
  · cases h
  rw [List.concat_eq_append] at h horder ⊢
  rw [← List.cons_append] at h
  obtain ⟨q, q', hbefore, hnext, hend⟩ := Phase.after_split h
  cases hend
  have hclosed := (Phase.next_requires hnext).2.1
  have hlast : last = .footer := by
    obtain ⟨-, -, -, -, htells⟩ := Phase.next_tells hnext
    rw [hclosed, Bool.false_or] at htells
    cases last with
    | footer => rfl
    | _ => cases htells
  refine ⟨header, middle, by rw [hlast], fun c hc => ⟨?_, ?_⟩⟩
  · obtain ⟨a, b, rfl⟩ := List.append_of_mem hc
    rw [Bool.eq_false_iff]
    intro hheader
    have hempty := (horder (.header header :: a) c (b ++ [last]) (by simp)).header.mp hheader
    cases hempty
  · have hnone := (Phase.told hbefore).2.2.2.2
    rw [hclosed, eq_comm, List.any_eq_false] at hnone
    exact Bool.eq_false_iff.mpr (hnone c (List.mem_cons_of_mem _ hc))

/-- The last step on the way from the opening to the end is `qed`. -/
theorem Phase.last_qed {proved : Bool} {cs : List Content}
    (h : Phase.opening.after cs = some (.closed proved)) :
    (cs.filterMap Content.stepId?).getLast? = some .qed := by
  have hconcluded := (Phase.told h).2.2.1
  obtain ⟨c, hc, hqed⟩ := List.any_eq_true.mp (hconcluded.symm.trans rfl)
  obtain ⟨before, after, rfl⟩ := List.append_of_mem hc
  have hid : c.stepId? = some .qed := by rwa [Content.isQed, beq_iff_eq] at hqed
  -- a step after `qed` would not be in order
  have hnone : after.filterMap Content.stepId? = [] := by
    rw [List.filterMap_eq_nil_iff]
    intro d hd
    obtain ⟨a, b, rfl⟩ := List.append_of_mem hd
    have hstep := (Phase.inOrder h (before ++ c :: a) d b (by simp)).step
    rw [List.any_append, List.any_cons, hqed, Bool.true_or, Bool.or_true] at hstep
    cases hid' : d.stepId? with
    | none => rfl
    | some id =>
        have := hstep (by rw [← Content.isSome_stepId?, hid']; rfl)
        cases this
  rw [List.filterMap_append, List.filterMap_cons_some hid, hnone, List.getLast?_concat]

/-- Statements other than footers that are in order lead from the opening to a phase. -/
theorem Phase.exists_after {cs : List Content} (horder : EachAfter InOrder cs)
    (not_footer : ∀ c ∈ cs, c.isFooter = false)
    (not_qed : ∀ c ∈ cs, c.isHypothesis = true → c.isQed = false) :
    ∃ p, Phase.opening.after cs = some p := by
  -- from the end, as the requirements of the last statement are met by the phase before it
  induction cs using List.reverseRecOn with
  | nil => exact ⟨.opening, rfl⟩
  | append_singleton cs c ih =>
      obtain ⟨p, hp⟩ := ih horder.of_append (fun d hd => not_footer d (List.mem_append_left _ hd))
        fun d hd => not_qed d (List.mem_append_left _ hd)
      obtain ⟨hopen, hderived, hconcluded, hproved, hclosed⟩ := Phase.told hp
      have hc := horder cs c [] rfl
      have hmem : c ∈ cs ++ [c] := List.mem_append_right _ List.mem_cons_self
      rcases cs with - | ⟨first, rest⟩
      · -- the first statement is the header
        cases hp
        have hheader := hc.header.mpr rfl
        cases c with
        | header header => exact ⟨.hypotheses, rfl⟩
        | _ => cases hheader
      · have hfirst := (horder [] first (rest ++ [c]) rfl).header.mpr rfl
        have hopen' : p.isOpen = true := by rw [hopen, List.any_cons, hfirst, Bool.true_or]
        have hclosed' : p.isClosed = false := by
          rw [hclosed, List.any_eq_false]
          exact fun d hd => Bool.eq_false_iff.mp (not_footer d (List.mem_append_left _ hd))
        have hheader : c.isHeader = false := by
          rw [Bool.eq_false_iff]
          intro hheader
          cases hc.header.mp hheader
        obtain ⟨q, hnext⟩ := Phase.exists_next hopen' hclosed' hheader
          (fun hfooter => by rw [not_footer c hmem] at hfooter; cases hfooter)
          (fun h => by rw [hconcluded, hproved]; exact hc.proof h)
          (fun h => by rw [hderived]; exact ⟨hc.hypothesis h, not_qed c hmem h⟩)
          (fun h => by rw [hconcluded]; exact hc.step h)
        exact ⟨q, Phase.after_concat hp hnext⟩

namespace Arranged

variable {db : Database} {cs : List Content}

/-- No step stands after `qed`, as the names are different and `qed` is the last one. -/
theorem step (h : Arranged db cs) :
    EachAfter (fun before c => c.isStep = true → before.any Content.isQed = false) cs := by
  rintro before c after rfl hstep
  obtain ⟨id, hid⟩ : ∃ id, c.stepId? = some id := by
    rwa [← Content.isSome_stepId?, Option.isSome_iff_exists] at hstep
  have hnames := h.names
  have hlast := h.qed
  rw [List.filterMap_append, List.filterMap_cons_some hid] at hnames hlast
  rw [List.getLast?_append_of_ne_nil _ (List.cons_ne_nil _ _)] at hlast
  rw [List.any_eq_false]
  intro b hb hqed
  have hearly : .qed ∈ before.filterMap Content.stepId? :=
    List.mem_filterMap.mpr ⟨b, hb, by rwa [Content.isQed, beq_iff_eq] at hqed⟩
  exact (List.nodup_append.mp hnames).2.2 _ hearly _ (List.mem_of_getLast? hlast) rfl

theorem inOrder (h : Arranged db cs) : EachAfter InOrder cs := by
  intro before c after hcs
  refine ⟨?_, h.hypotheses before c after hcs, h.step before c after hcs,
    h.proof before c after hcs⟩
  obtain ⟨header, middle, hframed, hmiddle⟩ := h.framed
  rw [hcs] at hframed
  cases before with
  | nil =>
      rw [List.nil_append, List.cons.injEq] at hframed
      simp [hframed.1, Content.isHeader]
  | cons first rest =>
      -- another statement than the first is in the middle or is the footer
      rw [List.cons_append, List.cons.injEq] at hframed
      have hmem : c ∈ middle ++ [.footer] := by
        rw [← hframed.2]
        exact List.mem_append_right _ List.mem_cons_self
      have hheader : c.isHeader = false := by
        rcases List.mem_append.mp hmem with hc | hc
        · exact (hmiddle c hc).1
        · rw [List.mem_singleton.mp hc]
          rfl
      simp [hheader]

/-- Statements that are arranged lead from the opening to the end. -/
theorem exists_phase (h : Arranged db cs)
    (not_qed : ∀ c ∈ cs, c.isHypothesis = true → c.isQed = false) :
    ∃ proved, Phase.opening.after cs = some (.closed proved) := by
  obtain ⟨header, middle, rfl, hmiddle⟩ := h.framed
  have horder := h.inOrder
  rw [← List.cons_append] at horder not_qed
  obtain ⟨p, hp⟩ := Phase.exists_after horder.of_append
    (List.forall_mem_cons.mpr ⟨rfl, fun c hc => (hmiddle c hc).2⟩)
    fun c hc => not_qed c (List.mem_append_left _ hc)
  obtain ⟨hopen, -, hconcluded, -, hclosed⟩ := Phase.told hp
  -- the step `qed` is in the middle, and so the footer may follow
  have hconcluded' : p.isConcluded = true := by
    have hqed := List.mem_of_getLast? h.qed
    obtain ⟨c, hc, hid⟩ := List.mem_filterMap.mp hqed
    have hc' : c.isQed = true := by rw [Content.isQed, hid]; rfl
    rw [← List.cons_append, List.mem_append, List.mem_singleton] at hc
    rw [hconcluded, List.any_eq_true]
    refine ⟨c, hc.resolve_right ?_, hc'⟩
    rintro rfl
    cases hid
  have hclosed' : p.isClosed = false := by
    rw [hclosed, List.any_eq_false]
    refine List.forall_mem_cons.mpr ⟨Bool.false_ne_true, fun c hc => ?_⟩
    exact Bool.eq_false_iff.mp (hmiddle c hc).2
  obtain ⟨q, hnext⟩ := Phase.exists_next (c := .footer) (hopen.trans rfl) hclosed' rfl
    (fun _ => hconcluded') (fun h => by cases h) (fun h => by cases h) (fun h => by cases h)
  have hq : q.isClosed = true := by
    rw [(Phase.next_tells hnext).2.2.2.2]
    exact Bool.or_true _
  rw [← List.cons_append]
  cases q with
  | closed proved => exact ⟨proved, Phase.after_concat hp hnext⟩
  | _ => cases hq

/-- Statements that lead from the opening to the end are arranged. -/
theorem of_phase {proved : Bool} (hphase : Phase.opening.after cs = some (.closed proved))
    (names : (cs.filterMap Content.stepId?).Nodup) (cited : Along CitesEarlier [] cs)
    (resolvable : EachAfter Resolvable cs)
    (counted : ∀ label ∈ cs.filterMap Content.theorem?, ∀ info, db.find? label = some info →
      info.hypotheses.length = cs.countP Content.isHypothesis) : Arranged db cs where
  framed := Phase.framed hphase
  names := names
  qed := Phase.last_qed hphase
  hypotheses before c after hcs := (Phase.inOrder hphase before c after hcs).hypothesis
  proof before c after hcs := (Phase.inOrder hphase before c after hcs).proof
  cited := along_iff.mp cited
  resolvable := resolvable
  counted := counted

end Arranged

/-- Only the header begins as a header does. -/
theorem Says.lead_of_header {db : Database} {lead tail : Text} {words : List Text}
    {header : Header} (h : Says db lead words tail (.header header)) : lead = Keyword.header := by
  cases h
  rfl

/-- A hypothesis is not `qed`. -/
theorem Says.not_qed {db : Database} {lead tail : Text} {words : List Text} {c : Content}
    (h : Says db lead words tail c) (hc : c.isHypothesis = true) : c.isQed = false := by
  cases c with
  | hypothesis s =>
      have hid := h.hypothesis_ne_qed
      simpa [Content.isQed] using hid
  | _ => cases hc

namespace Worksheet

variable {db : Database} {st : Settings} {text : Text}

/-- A text that loads cleanly is a worksheet. -/
theorem isWorksheet_of_clean {request : Request}
    (clean : (load db st request text).broken = false) : IsWorksheet db text := by
  obtain ⟨read, selected, ws, c, ids, hread, hresolve, -, hcount, -⟩ := load_clean clean
  obtain ⟨proved, hshaped⟩ := shaped_readText hread
  obtain ⟨hstray, ss, hss, hall⟩ := readText_reads hread
  obtain ⟨hnodup, -⟩ := numbered_readText rfl rfl hread
  have titled := titled_readText rfl rfl hread
  have cited : Along CitesEarlier [] read.contents := citesEarlier_readText rfl hread
  -- what is resolved has a selected step, which makes no difference to the contents
  have resolvable : EachAfter Resolvable read.contents := by
    have hall := resolveLocalRefs_isOk_iff.mp ⟨ws, hresolve⟩
    exact hall
  have spelled : List.Forall₂ (fun b => Spells db b.head.text b.words b.tail) (blocksOf text)
      read.contents := by
    have hss' : read.statements = ss := hss
    rw [contents, hss', List.forall₂_map_right_iff]
    exact hall.imp fun b s hs => spells_iff_says.mpr hs.said
  rw [stepIds_eq] at hnodup
  refine ⟨hstray, read.contents, spelled,
    Arranged.of_phase hshaped.phase hnodup cited resolvable fun label hlabel info hinfo => ?_⟩
  -- the hypotheses are counted after the local references have been resolved
  obtain ⟨kept, r, -, keeps⟩ := resolveLocalRefs_ok hresolve hshaped.nodup
  have hlabel' : ws.theoremLabel = some label := by
    rw [titled] at hlabel
    exact keeps.theoremLabel.trans (Option.mem_toList.mp hlabel)
  have hinfo' : ws.theoremLabel.bind db.find? = some info := by rwa [hlabel', Option.bind_some]
  calc info.hypotheses.length = ws.hypothesisCount := hcount info hinfo'
    _ = read.hypothesisCount := keeps.hypothesisCount
    _ = read.contents.countP Content.isHypothesis := hshaped.hypothesisCount

/-- Blocks that spell statements in the right order are read, and what is read is settled. -/
theorem exists_load {cs : List Content} (hstray : (Block.group (tokens text)).1 = [])
    (spelled : List.Forall₂ (fun b => Spells db b.head.text b.words b.tail) (blocksOf text) cs)
    (arranged : Arranged db cs) (st : Settings) (caret : Option Nat) :
    ∃ read resolved c, readText db st { cursor := { caret := caret } } text = .ok read ∧
      read.contents = cs ∧ read.broken = false ∧ read.resolveLocalRefs = .ok resolved ∧
        load db st { caret := caret } text =
          { resolved.indexDistinctVars.measureLevels with cursor := c } := by
  have said := spelled.imp fun b c => spells_iff_says.mp
  have not_qed : ∀ c ∈ cs, c.isHypothesis = true → c.isQed = false := by
    intro c hc
    obtain ⟨b, -, hb⟩ := exists_mem_of_forall₂ said hc
    exact hb.not_qed
  obtain ⟨proved, hphase⟩ := arranged.exists_phase not_qed
  -- the first block is the one of the header
  obtain ⟨header, middle, hframed, -⟩ := arranged.framed
  obtain ⟨b, bs, hblocks, hhead⟩ : ∃ b bs, blocksOf text = b :: bs ∧
      b.head.text = Keyword.header := by
    rw [hframed] at said
    cases hblocks : blocksOf text with
    | nil =>
        rw [hblocks] at said
        cases said
    | cons b bs =>
        rw [hblocks, List.forall₂_cons] at said
        exact ⟨b, bs, rfl, said.1.lead_of_header⟩
  have hnames := arranged.names
  have hcited : Along CitesEarlier [] cs := along_iff.mpr arranged.cited
  rw [← List.nil_append (cs.filterMap Content.stepId?)] at hnames
  obtain ⟨read, new, hread, hbroken, hstatements, hcontents, -⟩ :=
    (shaped_start caret).exists_readBlocks st rfl said hphase hnames hcited
  rw [hblocks, ← readText_eq hstray hblocks hhead] at hread
  have hcontents' : read.contents = cs := by
    rw [contents, hstatements, ← hcontents]
    rfl
  -- what is read can be settled
  obtain ⟨proved', hshaped⟩ := shaped_readText hread
  have titled := titled_readText rfl rfl hread
  have counted : read.Counted db := by
    rw [Counted, hcontents']
    exact arranged.counted
  obtain ⟨resolved, hresolve⟩ :=
    resolveLocalRefs_isOk_iff.mpr (by rw [hcontents']; exact arranged.resolvable)
  -- the grammar has no local reference that is `qed`, so the step `qed` is not dropped
  have local_not_qed : ∀ d target, .derivation d ∈ read.contents → d.localRef = some target →
      d.id ≠ .qed := by
    intro d target hd hlocal
    rw [hcontents'] at hd
    obtain ⟨b', -, hb'⟩ := exists_mem_of_forall₂ said hd
    exact hb'.localRef_ne_qed hlocal
  obtain ⟨c, hsettle⟩ :=
    hshaped.exists_settle local_not_qed hresolve (counted.labelled titled hshaped) st
  refine ⟨read, resolved, c, hread, hcontents', hbroken, hresolve, ?_⟩
  unfold load
  dsimp only
  rw [hread, ok_bind, hsettle]
  rfl

/-- A worksheet loads cleanly, if no step search is requested. -/
theorem clean_of_isWorksheet (h : IsWorksheet db text) (st : Settings) (caret : Option Nat) :
    (load db st { caret := caret } text).broken = false := by
  obtain ⟨hstray, cs, spelled, arranged⟩ := h
  obtain ⟨read, resolved, c, hread, -, hbroken, hresolve, hload⟩ :=
    exists_load hstray spelled arranged st caret
  obtain ⟨proved, hshaped⟩ := shaped_readText hread
  obtain ⟨kept, r, -, keeps⟩ := resolveLocalRefs_ok hresolve hshaped.nodup
  rw [hload]
  exact keeps.broken.trans hbroken

/-- Loading accepts exactly the worksheets. -/
theorem loads_iff (db : Database) (st : Settings) (caret : Option Nat) (text : Text) :
    (load db st { caret := caret } text).broken = false ↔ IsWorksheet db text :=
  ⟨isWorksheet_of_clean, fun h => clean_of_isWorksheet h st caret⟩

end Worksheet

end ProofSheet
