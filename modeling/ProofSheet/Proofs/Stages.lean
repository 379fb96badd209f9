import ProofSheet.Proofs.Findings

set_option autoImplicit false

/-! # Where a load ends

A load reads a text, selects a step if a search is asked for, resolves the local references, and
counts the hypotheses. A fault in one of these stages ends it, and then the worksheet is what the
stages before have made of the text (`Worksheet.Loads`). The check that `qed` is the last step is no
stage at which a load could end, since the shape of the worksheet makes it superfluous.
-/

namespace ProofSheet

namespace Worksheet

variable {db : Database} {st : Settings} {ws ws' : Worksheet} {stop : Stop} {request : Request}
  {text : Text}

/-- A text loads to a worksheet: the load ends with the fault of a stage, or the worksheet is
settled. -/
inductive Loads (db : Database) (st : Settings) (request : Request) (text : Text) :
    Worksheet → Prop where
  | unread {stop : Stop}
      (fault : readText db st { cursor := { caret := request.caret } } text = .error stop) :
      Loads db st request text (stop.sheet.breakBy stop.fault)
  | unselected {read : Worksheet} {stop : Stop}
      (reading : readText db st { cursor := { caret := request.caret } } text = .ok read)
      (wanted : request.selectStep = true) (fault : read.selectStep = .error stop) :
      Loads db st request text (stop.sheet.breakBy stop.fault)
  | unresolved {read chosen : Worksheet} {stop : Stop}
      (reading : readText db st { cursor := { caret := request.caret } } text = .ok read)
      (selecting : (if request.selectStep then read.selectStep else .ok read) = .ok chosen)
      (fault : chosen.resolveLocalRefs = .error stop) :
      Loads db st request text (stop.sheet.breakBy stop.fault)
  | miscounted {read chosen ws : Worksheet} {stop : Stop}
      (reading : readText db st { cursor := { caret := request.caret } } text = .ok read)
      (selecting : (if request.selectStep then read.selectStep else .ok read) = .ok chosen)
      (resolving : chosen.resolveLocalRefs = .ok ws)
      (fault : ws.indexDistinctVars.checkHypothesisCount db = .error stop) :
      Loads db st request text (stop.sheet.breakBy stop.fault)
  | settled {read chosen ws : Worksheet}
      (reading : readText db st { cursor := { caret := request.caret } } text = .ok read)
      (selecting : (if request.selectStep then read.selectStep else .ok read) = .ok chosen)
      (resolving : chosen.resolveLocalRefs = .ok ws) :
      Loads db st request text (ws.indexDistinctVars.measureLevels.placeCursor st.caretPlacement)

/-- Every load ends at one of the stages. -/
theorem loads_load (db : Database) (st : Settings) (request : Request) (text : Text) :
    Loads db st request text (load db st request text) := by
  have hload : load db st request text =
      ofReading (readText db st { cursor := { caret := request.caret } } text >>=
        fun ws => ws.settle db st request.selectStep) := rfl
  rw [hload]
  cases hread : readText db st { cursor := { caret := request.caret } } text with
  | error stop => exact .unread hread
  | ok read =>
      rw [ok_bind, settle_eq]
      cases hselect : (if request.selectStep then read.selectStep else .ok read) with
      | error stop =>
          by_cases wanted : request.selectStep = true
          · rw [if_pos wanted] at hselect
            exact .unselected hread wanted hselect
          · rw [if_neg wanted] at hselect
            cases hselect
      | ok chosen =>
          rw [ok_bind]
          cases hresolve : chosen.resolveLocalRefs with
          | error stop => exact .unresolved hread hselect hresolve
          | ok ws =>
              obtain ⟨selected, rfl⟩ := selecting_ok hselect
              obtain ⟨proved, shaped⟩ := shaped_resolved hread hresolve
              rw [ok_bind, shaped.checkQed, ok_bind]
              cases hcount : ws.indexDistinctVars.checkHypothesisCount db with
              | error stop => exact .miscounted hread hselect hresolve hcount
              | ok counted =>
                  obtain ⟨-, rfl⟩ := checkHypothesisCount_eq_ok.mp hcount
                  exact .settled hread hselect hresolve

/-! ## The stages -/

/-- A step that is selected is a derivation step to which the cursor is bound. -/
theorem selectStep_eq_ok (h : ws.selectStep = .ok ws') :
    ∃ s, ws.cursor.statement?.bind ws.find? = some s ∧ s.derivation?.isSome = true ∧
      ws' = { ws with selected := some s.id } := by
  unfold selectStep at h
  split at h
  · next s hfound =>
      split at h
      · next hder => exact ⟨s, hfound, hder, (Except.ok.inj h).symm⟩
      · cases h
  · cases h

theorem selectStep_error (h : ws.selectStep = .error stop) :
    stop.sheet = ws ∧ stop.fault.cause = .caretNotOnStep := by
  unfold selectStep at h
  split at h
  · split at h
    · cases h
    · cases h
      exact ⟨rfl, rfl⟩
  · cases h
    exact ⟨rfl, rfl⟩

theorem checkHypothesisCount_error (h : ws.checkHypothesisCount db = .error stop) :
    stop.sheet = ws ∧
      ∃ expected found, stop.fault.cause = .hypCountMismatch expected found := by
  unfold checkHypothesisCount at h
  split at h
  · cases h
  · split at h
    · cases h
    · cases h
      exact ⟨rfl, _, _, rfl⟩

/-- A load that comes to its end is clean. -/
theorem broken_settled {read chosen : Worksheet} {selecting : Bool}
    (hread : readText db st { cursor := { caret := request.caret } } text = .ok read)
    (hselect : (if selecting then read.selectStep else .ok read) = .ok chosen)
    (hresolve : chosen.resolveLocalRefs = .ok ws) :
    (ws.indexDistinctVars.measureLevels.placeCursor st.caretPlacement).broken = false := by
  obtain ⟨c, hcursor⟩ := placeCursor_eq st.caretPlacement ws.indexDistinctVars.measureLevels
  obtain ⟨selected, rfl⟩ := selecting_ok hselect
  obtain ⟨proved, shaped⟩ := shaped_readText hread
  obtain ⟨kept, r, -, keeps⟩ := resolveLocalRefs_ok hresolve shaped.nodup
  rw [hcursor]
  exact keeps.broken.trans (broken_readText hread)

end Worksheet

end ProofSheet
