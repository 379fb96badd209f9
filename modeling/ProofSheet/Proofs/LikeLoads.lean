import ProofSheet.Proofs.Likeness
import ProofSheet.Proofs.Loading

set_option autoImplicit false

/-! # Loads that are alike

What is settled after reading is settled alike for worksheets that are alike: local references,
the check of `qed`, the `$d` index, the number of hypotheses, the levels. Only the cursor is placed
as it may be. So a text and its respelling load alike, with any two carets and any two ways to
place them (`Worksheet.load_like`). If nothing is respelled, the two worksheets are the same but
for the cursor: a caret never has a part in what is loaded (`Worksheet.load_without_cursor`).
-/

namespace ProofSheet

variable {R : Respelling}

/-! ## Statements -/

namespace Statement.Like

variable {s s' old old' new new' : Statement}

theorem derivation? (h : s.Like R s') : s'.derivation? = s.derivation? := by
  rw [Statement.derivation?, Statement.derivation?, h.content, Content.derivation?_mapComment]

theorem step? (h : s.Like R s') : s'.step? = s.step? := by
  rw [Statement.step?, Statement.step?, h.content, Content.step?_mapComment]

theorem isStep (h : s.Like R s') : s'.isStep = s.isStep := by
  rw [Statement.isStep, Statement.isStep, h.step?]

theorem isDistinctVars (h : s.Like R s') : s'.isDistinctVars = s.isDistinctVars := by
  rw [Statement.isDistinctVars, Statement.isDistinctVars, h.content]
  cases s.content <;> rfl

theorem mapDerivation (h : s.Like R s') (f : Derivation → Derivation) :
    (s.mapDerivation f).Like R (s'.mapDerivation f) := by
  refine { h with content := ?_ }
  rw [Statement.mapDerivation, Statement.mapDerivation, h.content, Content.mapDerivation_mapComment]

theorem mapStep (h : s.Like R s') (f : Step → Step) : (s.mapStep f).Like R (s'.mapStep f) := by
  refine { h with content := ?_ }
  rw [Statement.mapStep, Statement.mapStep, h.content, Content.mapStep_mapComment]

theorem refreshLead (h : s.Like R s') : s.refreshLead.Like R s'.refreshLead := by
  refine { h with lead := ?_ }
  rw [Statement.refreshLead, Statement.refreshLead, h.content, h.lead, Content.lead?_mapComment]

/-- A lead is written anew in both statements or in neither. -/
theorem refresh (hold : old.Like R old') (hnew : new.Like R new') :
    (Resolution.refresh old new).Like R (Resolution.refresh old' new') := by
  cases hlead : new.content.lead? with
  | some t =>
      have hsame : new'.content = old'.content ↔ new.content = old.content := by
        rw [hnew.content, hold.content, Content.mapComment_inj_of_step hlead]
      rw [Resolution.refresh, Resolution.refresh, if_congr hsame rfl rfl]
      split
      · exact hnew
      · exact hnew.refreshLead
  | none =>
      -- what is no step has no lead of its own
      have idle : ∀ {s t : Statement}, t.content.lead? = none → Resolution.refresh s t = t := by
        intro s t ht
        rw [Resolution.refresh, Statement.refreshLead, ht]
        exact ite_self t
      rw [idle hlead, idle (by rw [hnew.content, Content.lead?_mapComment, hlead])]
      exact hnew

theorem refreshAll {olds olds' news news' : List Statement}
    (hold : List.Forall₂ (Statement.Like R) olds olds')
    (hnew : List.Forall₂ (Statement.Like R) news news') :
    List.Forall₂ (Statement.Like R) (List.zipWith Resolution.refresh olds news)
      (List.zipWith Resolution.refresh olds' news') := by
  induction hold generalizing news news' with
  | nil => exact .nil
  | cons hfirst _ ih =>
      cases hnew with
      | nil => exact .nil
      | cons hsecond hrest => exact .cons (hfirst.refresh hsecond) (ih hrest)

theorem lineFeeds (h : s.Like R s') : lineFeeds s'.text = lineFeeds s.text := by
  rw [Statement.text, Statement.text, lineFeeds_append, lineFeeds_append, h.lead, h.tail,
    R.lineFeeds_text]

theorem stop (h : s.Like R s') {m n : Nat} (hmn : R.offset m n) :
    R.offset (m + s.text.length) (n + s'.text.length) := by
  rw [Statement.text, Statement.text, List.length_append, List.length_append, h.lead, h.tail,
    ← Nat.add_assoc, ← Nat.add_assoc]
  exact R.offset_text (R.offset_add hmn _) _

/-- Statements that are alike are laid out alike. -/
theorem respanFrom {ss ss' : List Statement} (h : List.Forall₂ (Statement.Like R) ss ss')
    {m n : Nat} (hmn : R.offset m n) (line : Nat) :
    List.Forall₂ (Statement.Like R) (respanFrom m line ss) (ProofSheet.respanFrom n line ss') := by
  induction h generalizing m n line with
  | nil => exact .nil
  | cons hs _ ih =>
      rw [ProofSheet.respanFrom, ProofSheet.respanFrom, hs.lineFeeds]
      exact .cons { hs with start := hmn, position := rfl } (ih (hs.stop hmn) _)

end Statement.Like

/-! ## Local references -/

namespace Resolution

/-- What is known in the middle of the two passes. -/
structure Like (R : Respelling) (r r' : Resolution) : Prop where
  earlier : r'.earlier = r.earlier
  redirects : r'.redirects = r.redirects
  removed : r'.removed = r.removed
  messages : List.Forall₂ (Message.Like R) r.messages r'.messages

variable {r r' : Resolution} {s s' : Statement}

theorem Like.resolveCitations (h : r.Like R r') (hyps : List Citation) :
    r'.resolveCitations hyps = r.resolveCitations hyps := by
  induction hyps with
  | nil => rfl
  | cons entry rest ih =>
      have hentry : r'.resolveCitation entry = r.resolveCitation entry := by
        cases entry with
        | step id => rw [resolveCitation, resolveCitation, h.redirects]
        | unknown => rfl
        | localRef target => rw [resolveCitation, resolveCitation, h.earlier]
      rw [Resolution.resolveCitations, Resolution.resolveCitations, hentry, ih]

theorem Like.remember (h : r.Like R r') (step : Step) (isLocalRef : Bool) :
    (r.remember step isLocalRef).Like R (r'.remember step isLocalRef) := by
  refine { h with earlier := ?_ }
  rw [Resolution.remember, Resolution.remember, h.earlier]

theorem leadSpan_like (hs : s.Like R s') :
    Option.Rel (Span.Like R) (some (leadSpan s)) (some (leadSpan s')) := by
  rw [leadSpan, leadSpan, hs.lead]
  exact .some ⟨hs.start, R.offset_add hs.start _⟩

theorem fault_like (hs : s.Like R s') (d : Derivation) (cause : Cause) :
    (fault s d cause).Like R (fault s' d cause) :=
  ⟨rfl, rfl, rfl, congrArg some hs.position, leadSpan_like hs⟩

theorem Like.resolveStep (h : r.Like R r') (label : Option Text) (hs : s.Like R s')
    (d : Derivation) :
    Outcomes (Fault.Like R) (Resolution.Like R) ((r.resolveStep label s d).mapError (fault s d))
      ((r'.resolveStep label s' d).mapError (fault s' d)) := by
  unfold Resolution.resolveStep
  cases d.localRef with
  | none => exact .ok (h.remember _ _)
  | some target =>
      have hfind : Citable.find r'.earlier target = Citable.find r.earlier target := by
        rw [h.earlier]
      dsimp only
      rw [hfind]
      cases Citable.find r.earlier target with
      | error cause => exact .error (fault_like hs d cause)
      | ok found =>
          dsimp only
          refine .ok (Like.remember ?_ _ _)
          refine ⟨h.earlier, ?_, ?_, ?_⟩
          · rw [h.redirects]
          · rw [h.removed, hs.id]
          · split
            · exact List.rel_append h.messages (.cons ⟨rfl, rfl, leadSpan_like hs⟩ .nil)
            · exact h.messages

theorem Like.resolveStatement (h : r.Like R r') (label : Option Text) (hs : s.Like R s') :
    (r.resolveStatement label s).1.Like R (r'.resolveStatement label s').1 ∧
      Outcomes (Fault.Like R) (Resolution.Like R) (r.resolveStatement label s).2
        (r'.resolveStatement label s').2 := by
  unfold Resolution.resolveStatement
  rw [hs.derivation?, hs.step?]
  cases s.derivation? with
  | none =>
      cases s.step? with
      | none => exact ⟨hs, .ok h⟩
      | some step => exact ⟨hs, .ok (h.remember _ _)⟩
  | some d =>
      dsimp only
      rw [h.resolveCitations]
      cases (r.resolveCitations d.hyps).2 with
      | some cause => exact ⟨hs.mapDerivation _, .error (fault_like hs d cause)⟩
      | none => exact ⟨hs.mapDerivation _, h.resolveStep label hs d⟩

/-- The two passes go over statements that are alike, and stop at the same one. -/
theorem Like.resolveAll (h : r.Like R r') (label : Option Text) {ss ss' : List Statement}
    (hss : List.Forall₂ (Statement.Like R) ss ss') :
    List.Forall₂ (Statement.Like R) (r.resolveAll label ss).1 (r'.resolveAll label ss').1 ∧
      Outcomes (Fault.Like R) (Resolution.Like R) (r.resolveAll label ss).2
        (r'.resolveAll label ss').2 := by
  induction hss generalizing r r' with
  | nil => exact ⟨.nil, .ok h⟩
  | @cons s s' rest rest' hs hrest ih =>
      rw [Resolution.resolveAll, Resolution.resolveAll]
      obtain ⟨hfirst, hnext⟩ := h.resolveStatement label hs
      generalize r.resolveStatement label s = x at hfirst hnext ⊢
      generalize r'.resolveStatement label s' = x' at hfirst hnext ⊢
      obtain ⟨t, outcome⟩ := x
      obtain ⟨t', outcome'⟩ := x'
      cases hnext with
      | error hf => exact ⟨.cons hfirst hrest, .error hf⟩
      | ok h₁ => exact ⟨.cons hfirst (ih h₁).1, (ih h₁).2⟩

end Resolution

namespace Worksheet

namespace Like

variable {ws ws' : Worksheet}

theorem respan (h : ws.Like R ws') : ws.respan.Like R ws'.respan :=
  { h with statements := Statement.Like.respanFrom h.statements R.offset_zero 0 }

theorem remove (h : ws.Like R ws') (ids : List StatementId) :
    (ws.remove ids).Like R (ws'.remove ids) := by
  unfold Worksheet.remove
  split
  · exact h
  · refine respan { h with statements := ?_, distinctVars := ?_, selected := ?_, generation := ?_ }
    · refine List.rel_filter (fun s s' hs => ?_) h.statements
      show (!ids.contains s.id) = true ↔ (!ids.contains s'.id) = true
      rw [hs.id]
    · rw [h.distinctVars]
    · rw [h.selected]
    · rw [h.generation]

theorem resolveLocalRefs (h : ws.Like R ws') :
    ReadingLike R ws.resolveLocalRefs ws'.resolveLocalRefs := by
  have start : Resolution.Like R {} {} := ⟨rfl, rfl, rfl, .nil⟩
  obtain ⟨hresolved, houtcome⟩ := start.resolveAll ws.theoremLabel h.statements
  have hlabel : Resolution.resolveAll {} ws'.theoremLabel ws'.statements =
      Resolution.resolveAll {} ws.theoremLabel ws'.statements := by rw [h.theoremLabel]
  unfold Worksheet.resolveLocalRefs
  rw [hlabel]
  generalize Resolution.resolveAll {} ws.theoremLabel ws.statements = x at hresolved houtcome ⊢
  generalize Resolution.resolveAll {} ws.theoremLabel ws'.statements = x' at hresolved houtcome ⊢
  obtain ⟨resolved, outcome⟩ := x
  obtain ⟨resolved', outcome'⟩ := x'
  cases houtcome with
  | error hf => exact .error ⟨{ h with statements := hresolved }, hf⟩
  | @ok r r' hr =>
      have refreshed : List.Forall₂ (Statement.Like R)
          (List.zipWith Resolution.refresh ws.statements resolved)
          (List.zipWith Resolution.refresh ws'.statements resolved') :=
        Statement.Like.refreshAll h.statements hresolved
      dsimp only
      rw [hr.removed]
      refine .ok (remove (respan ?_) _)
      exact
        { h with
          statements := refreshed
          messages := List.rel_append h.messages hr.messages }

/-! ## The worksheet as a whole -/

theorem steps_ids (h : ws.Like R ws') :
    ws'.steps.map Statement.id = ws.steps.map Statement.id := by
  refine map_eq_of_forall₂ (R := Statement.Like R)
    (List.rel_filter (fun s s' hs => ?_) h.statements) fun s s' hs => hs.id
  show s.isStep = true ↔ s'.isStep = true
  rw [hs.isStep]

theorem checkQed (h : ws.Like R ws') : ReadingLike R ws.checkQed ws'.checkQed := by
  have hlast : ws'.steps.getLast?.map Statement.id = ws.steps.getLast?.map Statement.id := by
    rw [← List.getLast?_map, ← List.getLast?_map, h.steps_ids]
  unfold Worksheet.checkQed
  rw [hlast, h.qed]
  split
  · exact .ok h
  · exact .error ⟨h, rfl, rfl, rfl, rfl, .none⟩

theorem indexDistinctVars (h : ws.Like R ws') :
    ws.indexDistinctVars.Like R ws'.indexDistinctVars := by
  refine { h with distinctVars := ?_ }
  refine map_eq_of_forall₂ (R := Statement.Like R)
    (List.rel_filter (fun s s' hs => ?_) h.statements) fun s s' hs => hs.id
  show s.isDistinctVars = true ↔ s'.isDistinctVars = true
  rw [hs.isDistinctVars]

theorem checkHypothesisCount (db : Database) (h : ws.Like R ws') :
    ReadingLike R (ws.checkHypothesisCount db) (ws'.checkHypothesisCount db) := by
  unfold Worksheet.checkHypothesisCount
  rw [h.theoremLabel, h.hypothesisCount]
  split
  · exact .ok h
  split
  · exact .ok h
  have hstatements := h.statements
  refine .error ⟨h, ?_⟩
  generalize ws.statements = ss at hstatements ⊢
  generalize ws'.statements = ss' at hstatements ⊢
  cases hstatements with
  | nil => exact ⟨rfl, rfl, rfl, rfl, .none⟩
  | cons hs _ =>
      refine ⟨rfl, rfl, rfl, congrArg some hs.position, .some ⟨hs.start, ?_⟩⟩
      dsimp only
      rw [hs.lead]
      exact R.offset_add hs.start _

theorem measureLevels (h : ws.Like R ws') : ws.measureLevels.Like R ws'.measureLevels := by
  have hmap := map_eq_of_forall₂ h.statements fun s s' hs => hs.derivation?
  have hderivations : ws'.statements.filterMap Statement.derivation? =
      ws.statements.filterMap Statement.derivation? := by
    have hfilter := congrArg (List.filterMap id) hmap
    rwa [List.filterMap_map, List.filterMap_map] at hfilter
  have hlevels : Levels.of ws'.statements = Levels.of ws.statements := by
    rw [Levels.of, Levels.of, hderivations]
  refine { h with statements := ?_ }
  rw [Worksheet.measureLevels, Worksheet.measureLevels, hlevels]
  exact List.forall₂_map_left_iff.mpr (List.forall₂_map_right_iff.mpr
    (h.statements.imp fun s s' hs => hs.mapStep _))

theorem settle (db : Database) {st st' : Settings} (h : ws.Like R ws') :
    ReadingLike R (ws.settle db st false) (ws'.settle db st' false) := by
  rw [settle_eq, settle_eq]
  refine h.resolveLocalRefs.bind fun ws₁ ws₁' h₁ => ?_
  refine h₁.checkQed.bind fun ws₂ ws₂' h₂ => ?_
  refine (h₂.indexDistinctVars.checkHypothesisCount db).bind fun ws₃ ws₃' h₃ => ?_
  -- the cursor is all that the placement changes
  obtain ⟨c, hcursor⟩ := placeCursor_eq st.caretPlacement ws₃.measureLevels
  obtain ⟨c', hcursor'⟩ := placeCursor_eq st'.caretPlacement ws₃'.measureLevels
  rw [hcursor, hcursor']
  exact .ok { h₃.measureLevels with broken := h₃.broken }

theorem breakBy (h : ws.Like R ws') {f f' : Fault} (hf : f.Like R f') :
    (ws.breakBy f).Like R (ws'.breakBy f') := by
  have message : Message.Like R
      ({ f with theoremLabel := f.theoremLabel.or ws.theoremLabel } : Fault).toMessage
      ({ f' with theoremLabel := f'.theoremLabel.or ws'.theoremLabel } : Fault).toMessage := by
    refine ⟨?_, ?_, hf.span⟩
    · rw [Fault.toMessage, Fault.toMessage, hf.cause]
    · rw [Fault.toMessage, Fault.toMessage, Fault.context, Fault.context, hf.cause,
        hf.theoremLabel, h.theoremLabel, hf.step, hf.position]
  exact { h with broken := rfl, messages := List.rel_append h.messages (.cons message .nil) }

end Like

theorem ofReading_like {r r' : Reading} (h : ReadingLike R r r') :
    (ofReading r).Like R (ofReading r') := by
  cases h with
  | ok h => exact h
  | error h => exact h.sheet.breakBy h.fault

/-- A text and its respelling load alike, wherever the carets are and however they are placed. -/
theorem load_like (R : Respelling) (db : Database) (st st' : Settings)
    (hst : st'.provableType = st.provableType) (k k' : Option Nat) (text : Text) :
    (load db st { caret := k } text).Like R (load db st' { caret := k' } (R.text text)) := by
  have start : Worksheet.Like R { cursor := { caret := k } } { cursor := { caret := k' } } :=
    ⟨rfl, rfl, rfl, .nil, rfl, rfl, rfl, rfl, rfl, .nil, rfl, rfl, rfl⟩
  have read := start.readText hst db (R.tokens_like text)
  exact ofReading_like (read.bind fun ws ws' h => h.settle db)

end Worksheet

/-! ## Where nothing is respelled -/

theorem eq_of_forall₂ {α : Type} {P : α → α → Prop} (hP : ∀ a b, P a b → b = a) {l l' : List α}
    (h : List.Forall₂ P l l') : l' = l := by
  have hmap := map_eq_of_forall₂ (f := id) (g := id) h hP
  rwa [List.map_id, List.map_id] at hmap

theorem Statement.Like.eq {s s' : Statement} (h : s.Like .same s') : s' = s := by
  have hcontent : s.content.mapComment Respelling.same.text = s.content := by
    cases s.content with
    | comment t => exact congrArg Content.comment (Respelling.text_same t)
    | _ => rfl
  have hstart : s.start = s'.start := h.start
  show Statement.mk s'.id s'.content s'.lead s'.tail s'.start s'.position = s
  rw [h.id, h.content, hcontent, h.lead, h.tail, Respelling.text_same, ← hstart, h.position]

theorem Span.Like.eq {p p' : Span} (h : p.Like .same p') : p' = p := by
  have hstart : p.start = p'.start := h.1
  have hstop : p.stop = p'.stop := h.2
  show Span.mk p'.start p'.stop = p
  rw [← hstart, ← hstop]

theorem Message.Like.eq {m m' : Message} (h : m.Like .same m') : m' = m := by
  have hspan : m'.span = m.span := by
    have rel := h.span
    generalize m.span = span at rel ⊢
    generalize m'.span = span' at rel ⊢
    cases rel with
    | none => rfl
    | some h => rw [h.eq]
  show Message.mk m'.code m'.text m'.span = m
  rw [h.code, h.text, hspan]

theorem Worksheet.Like.eq {ws ws' : Worksheet} (h : ws.Like .same ws') (c : Cursor) :
    { ws' with cursor := c } = { ws with cursor := c } := by
  have hstatements := eq_of_forall₂ (fun _ _ => Statement.Like.eq) h.statements
  have hmessages := eq_of_forall₂ (fun _ _ => Message.Like.eq) h.messages
  rw [h.theoremLabel, h.locAfter, h.isNew, hstatements, h.greatestStep, h.hypothesisCount, h.qed,
    h.distinctVars, h.broken, hmessages, h.selected, h.nextId, h.generation]

/-- The caret and its placement have no part in what is loaded: but for the cursor, the worksheet
is always the same. -/
theorem Worksheet.load_without_cursor (db : Database) (st : Settings) (p p' : CaretPlacement)
    (k k' : Option Nat) (text : Text) :
    { load db { st with caretPlacement := p' } { caret := k' } text with cursor := {} } =
      { load db { st with caretPlacement := p } { caret := k } text with cursor := {} } := by
  have h : Worksheet.Like .same (load db { st with caretPlacement := p } { caret := k } text)
      (load db { st with caretPlacement := p' } { caret := k' } (Respelling.same.text text)) :=
    load_like .same db { st with caretPlacement := p } { st with caretPlacement := p' } rfl k k'
      text
  rw [Respelling.text_same] at h
  exact h.eq {}

end ProofSheet
