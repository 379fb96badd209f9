import ProofSheet.Proofs.Loading

set_option autoImplicit false

/-! # New theorems

A worksheet is for a new theorem exactly if the database has no theorem with its label
(`Worksheet.TellsNew`). The header settles this, and there is one lemma for each other kind of
statement that reading it leaves it so; so it holds after all blocks
(`Worksheet.TellsNew.readBlocks`). Resolving the local references does not touch the mark.
-/

namespace ProofSheet

namespace Worksheet

variable {ws ws' : Worksheet} {db : Database} {st : Settings} {b : Block} {last : Bool}

/-- The worksheet is for a new theorem exactly if the database has no theorem with its label. -/
def TellsNew (db : Database) (ws : Worksheet) : Prop :=
  ws.isNew = (ws.theoremLabel.bind db.find?).isNone

theorem tellsNew_readHeader (h : ws.readHeader db b last = .ok ws') : ws'.TellsNew db := by
  unfold readHeader at h
  split at h
  · cases h
  split at h
  · cases h
  dsimp only at h
  split at h
  · cases h
  split at h
  · cases h
    rfl
  split at h
  · cases h
    rfl
  split at h
  · cases h
    rfl
  · cases h

theorem TellsNew.readHypothesis (told : ws.TellsNew db)
    (h : ws.readHypothesis st b last = .ok ws') : ws'.TellsNew db := by
  unfold Worksheet.readHypothesis at h
  split at h
  · cases h
  split at h
  · cases h
  split at h
  · cases h
  next f _ _ _ id _ hadm =>
  obtain ⟨-, -, -, rfl⟩ := admitStep_eq_ok.mp hadm
  split at h
  · cases h
  split at h
  · cases h
  split at h
  · cases h
  obtain ⟨ms, hms⟩ := noteHypothesis_eq st
    { ws with greatestStep := max ws.greatestStep id.value } b f.step
  dsimp only at h
  rw [hms] at h
  cases h
  exact told

theorem TellsNew.readDerivation (told : ws.TellsNew db)
    (h : ws.readDerivation st b last = .ok ws') : ws'.TellsNew db := by
  unfold Worksheet.readDerivation at h
  split at h
  · cases h
  split at h
  · cases h
  next f _ _ id _ hadm =>
  obtain ⟨-, -, -, rfl⟩ := admitStep_eq_ok.mp hadm
  split at h
  · cases h
  split at h
  · cases h
  obtain ⟨ms, hms⟩ := noteFormulaType_eq st
    { ws with greatestStep := max ws.greatestStep id.value } f.step b.body
  dsimp only at h
  rw [hms] at h
  cases h
  exact told

theorem TellsNew.readBlock (told : ws.TellsNew db) (h : ws.readBlock db st b last = .ok ws') :
    ws'.TellsNew db := by
  unfold Worksheet.readBlock at h
  dsimp only at h
  split at h
  · exact tellsNew_readHeader h
  split at h
  · obtain ⟨-, -, rfl⟩ := readFooter_eq_ok.mp h
    exact told
  split at h
  · obtain ⟨-, -, body, -, rfl⟩ := readGeneratedProof_eq_ok.mp h
    exact told
  split at h
  · obtain ⟨-, -, rfl⟩ := readDistinctVars_eq_ok.mp h
    exact told
  split at h
  · cases h
    exact told
  split at h
  · exact told.readHypothesis h
  split at h
  · exact told.readDerivation h
  · cases h

theorem TellsNew.readBlocks {bs : List Block} (told : ws.TellsNew db)
    (h : ws.readBlocks db st bs = .ok ws') : ws'.TellsNew db := by
  induction bs generalizing ws with
  | nil => cases h
  | cons b rest ih =>
      obtain ⟨ws₁, c, hb, -, -, ⟨-, -, rfl⟩ | ⟨-, -, hrest⟩⟩ := readBlocks_cons_ok h
      · exact told.readBlock hb
      · exact ih (told.readBlock hb) hrest

theorem isNew_resolveLocalRefs (h : ws.resolveLocalRefs = .ok ws') : ws'.isNew = ws.isNew := by
  unfold resolveLocalRefs at h
  cases hall : Resolution.resolveAll {} ws.theoremLabel ws.statements with
  | mk resolved outcome =>
      rw [hall] at h
      cases outcome with
      | error f => cases h
      | ok r =>
          obtain ⟨_, _, _, _, _, hremove⟩ := remove_eq _ _
          rw [← Except.ok.inj h, hremove]
          rfl

end Worksheet

end ProofSheet
