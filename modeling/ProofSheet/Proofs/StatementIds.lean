import ProofSheet.Proofs.Sequence

set_option autoImplicit false

/-! # The ids of the statements

The ids are numbered from zero. One is given to every statement that is read and to every statement
that an edit puts in (`Edit.inserts`), and none is given again. So the next id counts the
statements of the text and the edits of that kind that were granted (`Worksheet.nextId_afterCalls`),
and the statements of a worksheet have different ids below it (`Worksheet.ids_afterCalls`).
-/

namespace ProofSheet

/-- The edit puts a statement in. -/
def Edit.inserts : Edit → Bool
  | .insertStep _ _ _ _ | .insertDistinctVars _ | .insertProof _ => true
  | _ => false

namespace Worksheet

variable {ws ws' : Worksheet} {db : Database} {st : Settings}

/-! ## Calls -/

/-- A granted edit gives an id exactly if it puts a statement in. -/
theorem nextId_applyEdit {e : Edit} (h : ws.applyEdit st e = .ok ws') :
    ws'.nextId = ws.nextId + if e.inserts then 1 else 0 := by
  cases e with
  | setRef step label =>
      obtain ⟨before, s, after, -, rfl⟩ := setRef_ok h
      rfl
  | setFormula step formula =>
      obtain ⟨before, s, after, -, rfl⟩ := setFormula_ok h
      rfl
  | setStatus step unification distinctCheck proof =>
      obtain ⟨before, s, after, -, -, rfl⟩ := setStatus_ok h
      rfl
  | insertStep step hyps ref formula =>
      obtain ⟨before, s, after, -, -, -, rfl⟩ := insertStep_ok h
      rfl
  | insertDistinctVars vars =>
      obtain ⟨-, before, after, -, -, rfl⟩ := insertDistinctVars_ok h
      rfl
  | insertProof proof =>
      have inserted : ws.insertProof st proof = ws' := Except.ok.inj h
      obtain ⟨_, _, _, _, _, hremove⟩ := remove_eq ws _
      rw [← inserted, insertProof, hremove]
      rfl
  | placeCursor step field =>
      obtain ⟨c, rfl⟩ := moveCursor_ok h
      rfl

theorem nextId_renumber {interval changed : Nat}
    (h : ws.renumber interval = .ok (ws', changed)) : ws'.nextId = ws.nextId := by
  obtain ⟨-, -, rfl⟩ := renumber_ok h
  rfl

/-- Moves give as many ids as there are edits among them that put a statement in. -/
theorem nextId_of_moves {edits : List (Worksheet × Edit)} (h : Moves ws edits ws') :
    ws'.nextId = ws.nextId + edits.countP (·.2.inserts) := by
  induction h with
  | done => rfl
  | @edit st ws ws₁ ws₂ e edits granted _ ih =>
      calc ws₂.nextId
          = ws₁.nextId + edits.countP (·.2.inserts) := ih
        _ = ws.nextId + (if e.inserts then 1 else 0) + edits.countP (·.2.inserts) := by
            rw [nextId_applyEdit granted]
        _ = ws.nextId + edits.countP (·.2.inserts) + (if e.inserts then 1 else 0) :=
            Nat.add_right_comm ..
        _ = ws.nextId + ((ws, e) :: edits).countP (·.2.inserts) := by
            rw [List.countP_cons, Nat.add_assoc]
  | levels _ ih => exact ih
  | renumber granted _ ih => rw [ih, nextId_renumber granted]

/-! ## Loading -/

/-- Reading gives an id to every statement of the text. -/
theorem nextId_readText {caret : Option Nat} {text : Text}
    (h : readText db st { cursor := { caret := caret } } text = .ok ws) :
    ws.nextId = (blocksOf text).length := by
  have counted : ws.nextId = ws.statements.length := by
    refine keeps_readText (I := fun ws => ws.nextId = ws.statements.length) h rfl ?_
    intro b _ c ws₁ ws₂ _ _ hadds counted
    rw [hadds.2.nextId, hadds.2.statements, List.length_append, counted]
    rfl
  obtain ⟨-, new, hnew, hall⟩ := readText_reads h
  rw [counted, hnew, List.nil_append, hall.length_eq]

/-- Splicing local references out gives no id back. -/
theorem nextId_load {request : Request} {text : Text}
    (clean : (load db st request text).broken = false) :
    (load db st request text).nextId = (blocksOf text).length := by
  obtain ⟨read, selected, ws, c, ids, hread, hresolve, -, -, hload⟩ := load_clean clean
  obtain ⟨proved, shaped⟩ := shaped_readText hread
  obtain ⟨kept, r, -, keeps⟩ := resolveLocalRefs_ok hresolve shaped.nodup
  calc (load db st request text).nextId
      = ws.nextId := by rw [hload]; rfl
    _ = read.nextId := keeps.nextId
    _ = (blocksOf text).length := nextId_readText hread

/-- After all calls the next id is the number of statements that were read or put in. -/
theorem nextId_afterCalls {request : Request} {text : Text}
    (clean : (load db st request text).broken = false) (calls : List Call) :
    ((load db st request text).afterCalls calls).nextId =
      (blocksOf text).length +
        ((load db st request text).grantedBy calls).countP (·.2.inserts) := by
  rw [nextId_of_moves (moves_afterCalls _ calls), nextId_load clean]

/-- The statements have different ids, below the number of statements that were read or put in. -/
theorem ids_afterCalls {request : Request} {text : Text}
    (clean : (load db st request text).broken = false) (calls : List Call) :
    ((load db st request text).afterCalls calls).ids.Nodup ∧
      ∀ id ∈ ((load db st request text).afterCalls calls).ids,
        id < (blocksOf text).length +
          ((load db st request text).grantedBy calls).countP (·.2.inserts) := by
  obtain ⟨proved, shaped⟩ := shaped_afterCalls clean calls
  rw [← nextId_afterCalls clean calls]
  exact ⟨shaped.nodup, shaped.below⟩

end Worksheet

end ProofSheet
