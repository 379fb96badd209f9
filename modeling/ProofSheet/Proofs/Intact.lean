import ProofSheet.Proofs.Levels

set_option autoImplicit false

/-! # Intact worksheets

What the other files show of worksheets one by one holds together of a worksheet whose steps have
different names (`Worksheet.Intact`): it is not broken, it has its shape, steps cite backwards, and
all levels are right. A worksheet that loads cleanly is intact, and it stays so through all calls as
long as its steps have different names (`Worksheet.intact_afterCalls`).
-/

namespace ProofSheet

namespace Worksheet

variable {ws ws' : Worksheet} {db : Database} {st : Settings}

/-- Nothing is wrong with the worksheet. -/
structure Intact (ws : Worksheet) : Prop where
  whole : ws.broken = false
  shaped : ∃ proved, ws.Shaped (.closed proved)
  numbered : ws.Numbered
  nodup : ws.stepIds.Nodup
  cites : ws.CitesBackwards
  levelled : ws.Levelled

theorem intact_load {request : Request} {text : Text}
    (clean : (load db st request text).broken = false) : (load db st request text).Intact := by
  obtain ⟨nodup, numbered⟩ := numbered_load clean
  refine ⟨clean, shaped_load clean, numbered, nodup, citesBackwards_load clean, ?_⟩
  obtain ⟨read, selected, ws, c, ids, -, -, -, -, hload⟩ := load_clean clean
  have levelled := levelled_measureLevels ws
  rw [hload]
  exact levelled

/-- An edit that is granted keeps a worksheet intact, if there is room for the number of a step that
it inserts. -/
theorem Intact.edit {e : Edit} (h : ws.Intact) (granted : ws.applyEdit st e = .ok ws')
    (room : e.isInsertStep = true → .number StepId.maxNumber ∉ ws.stepIds) : ws'.Intact := by
  obtain ⟨proved, hshaped⟩ := h.shaped
  have hchange := changes_of_applyEdit hshaped.nodup granted
  have fresh : e.isInsertStep = true → .number ws.nextStepNumber ∉ ws.stepIds :=
    fun hinsert => mt h.numbered.fresh.mp (room hinsert)
  exact
    { whole := hchange.broken.trans h.whole
      shaped := hshaped.edit hchange
      numbered := h.numbered.edit hchange
      nodup := (nodup_edit h.numbered hchange).mpr ⟨h.nodup, room⟩
      cites := h.cites.edit hchange
      levelled := h.levelled.edit hshaped.nodup h.cites granted fresh }

/-- Measuring the levels of an intact worksheet changes nothing. -/
theorem Intact.measureLevels_eq (h : ws.Intact) : ws.measureLevels = ws :=
  h.levelled.measureLevels_eq

theorem Intact.renumber {interval changed : Nat} (h : ws.Intact)
    (granted : ws.renumber interval = .ok (ws', changed)) : ws'.Intact := by
  obtain ⟨proved, hshaped⟩ := h.shaped
  refine ⟨?_, ⟨proved, hshaped.renumber granted⟩, .renumber granted,
    (nodup_renumber granted).mpr h.nodup, h.cites.renumber granted,
    h.levelled.renumber h.cites granted⟩
  obtain ⟨-, -, rfl⟩ := renumber_ok granted
  exact h.whole

/-- A worksheet is still intact after moves if its steps still have different names. -/
theorem Intact.moves {edits : List (Worksheet × Edit)} (h : ws.Intact)
    (hmoves : Moves ws edits ws') (nodup : ws'.stepIds.Nodup) : ws'.Intact := by
  induction hmoves with
  | done => exact h
  | edit granted rest ih =>
      -- the names would not be different now if there had been no room for one of them
      obtain ⟨proved, hshaped⟩ := h.shaped
      have hroom := ((nodup_moves hshaped h.numbered (.edit granted rest)).2.mp nodup).2
      exact ih (h.edit granted (hroom _ List.mem_cons_self)) nodup
  | levels _ ih =>
      rw [h.measureLevels_eq] at ih
      exact ih h nodup
  | renumber granted _ ih => exact ih (h.renumber granted) nodup

/-- A worksheet that has been loaded cleanly is intact after all calls, if its steps have different
names. -/
theorem intact_afterCalls {request : Request} {text : Text}
    (clean : (load db st request text).broken = false) (calls : List Call)
    (nodup : ((load db st request text).afterCalls calls).stepIds.Nodup) :
    ((load db st request text).afterCalls calls).Intact :=
  (intact_load clean).moves (moves_afterCalls _ calls) nodup

end Worksheet

end ProofSheet
