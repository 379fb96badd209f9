import ProofSheet.Proofs.Contents
import ProofSheet.Worksheet.Reading
import Mathlib.Data.List.Nodup

set_option autoImplicit false

/-! # What may stand where

Whether a statement may stand where it does is decided by what was read before
(`Worksheet.Admits`). A worksheet to which it is added keeps what it has, gives the statement the
next id, and counts on what it counts of its statements (`Worksheet.Extends`). If the statement is
no step, that is all that appending it does (`Worksheet.extends_append`).
-/

namespace ProofSheet

/-- The theorem that a header names. -/
def Content.theorem? : Content → Option Text
  | .header h => some h.label
  | _ => none

/-- The number of a step, or zero for `qed`. -/
def StepId.value : StepId → Nat
  | number n => n
  | qed => 0

namespace Worksheet

variable {ws ws' : Worksheet} {b : Block} {last : Bool}

/-- What was read so far lets the next statement say this. -/
def Admits (ws : Worksheet) : Content → Prop
  | .header _ => ws.statements.any Statement.isHeader = false
  | .footer => ws.qed.isSome = true
  | .proof _ => ws.qed.isSome = true ∧ ws.statements.any Statement.isProof = false
  | .hypothesis s =>
    ws.qed = none ∧ s.id ∉ ws.stepIds ∧ ws.statements.any (·.derivation?.isSome) = false
  | .derivation d => ws.qed = none ∧ d.id ∉ ws.stepIds ∧ ∀ id ∈ d.cited, id ∈ ws.stepIds
  | _ => True

/-- A step that is admitted has a new name. -/
theorem Admits.fresh {c : Content} {id : StepId} (h : ws.Admits c) (hid : c.stepId? = some id) :
    id ∉ ws.stepIds := by
  cases c with
  | hypothesis s =>
      cases hid
      exact h.2.1
  | derivation d =>
      cases hid
      exact h.2.1
  | _ => cases hid

/-- What a worksheet gains when a statement is read. -/
structure Extends (ws : Worksheet) (s : Statement) (ws' : Worksheet) : Prop where
  statements : ws'.statements = ws.statements ++ [s]
  nextId : ws'.nextId = ws.nextId + 1
  broken : ws'.broken = ws.broken
  hypothesisCount :
    ws'.hypothesisCount = ws.hypothesisCount + if s.content.isHypothesis then 1 else 0
  greatestStep : ws'.greatestStep = max ws.greatestStep ((s.stepId?.map StepId.value).getD 0)
  qed : ws'.qed = if s.stepId? = some .qed then some ws.nextId else ws.qed
  theoremLabel : ws'.theoremLabel = s.content.theorem?.or ws.theoremLabel

theorem Extends.entries {s : Statement} (h : ws.Extends s ws') :
    ws'.entries = ws.entries ++ [s.entry] := by
  rw [Worksheet.entries, h.statements, List.map_append]
  rfl

theorem Extends.contents {s : Statement} (h : ws.Extends s ws') :
    ws'.contents = ws.contents ++ [s.content] := by
  rw [Worksheet.contents, h.statements, List.map_append]
  rfl

theorem Extends.stepIds {s : Statement} (h : ws.Extends s ws') :
    ws'.stepIds = ws.stepIds ++ s.stepId?.toList := by
  rw [Worksheet.stepIds, h.statements, List.filterMap_append, List.filterMap_cons]
  cases s.stepId? <;> rfl

theorem Extends.ids {s : Statement} (h : ws.Extends s ws') : ws'.ids = ws.ids ++ [s.id] := by
  rw [Worksheet.ids, h.statements, List.map_append]
  rfl

/-- A statement with the next id has one that no other has had. -/
theorem Extends.fresh {s : Statement} (h : ws.Extends s ws') (hid : s.id = ws.nextId)
    (nodup : ws.ids.Nodup) (below : ∀ id ∈ ws.ids, id < ws.nextId) :
    ws'.ids.Nodup ∧ ∀ id ∈ ws'.ids, id < ws'.nextId := by
  rw [h.ids, hid, h.nextId]
  constructor
  · rw [List.nodup_append]
    refine ⟨nodup, List.nodup_singleton _, ?_⟩
    intro id hold id' hnew
    rw [List.mem_singleton.mp hnew]
    exact Nat.ne_of_lt (below id hold)
  · intro id hmem
    rcases List.mem_append.mp hmem with hmem | hmem
    · exact Nat.lt_succ_of_lt (below id hmem)
    · rw [List.mem_singleton.mp hmem]
      exact Nat.lt_succ_self _

/-- Reading a block has added a statement that says what the block says. -/
def Adds (ws : Worksheet) (b : Block) (content : Content) (ws' : Worksheet) : Prop :=
  ws.Admits content ∧ ws.Extends (b.toStatement ws.nextId content) ws'

theorem extends_append {c : Content} (hstep : c.stepId? = none) (hheader : c.theorem? = none) :
    ws.Extends (b.toStatement ws.nextId c) (ws.append b last c) := by
  have hid : (b.toStatement ws.nextId c).stepId? = none := hstep
  have hhyp : c.isHypothesis = false := by
    cases c with
    | hypothesis s => cases hstep
    | _ => rfl
  refine ⟨rfl, rfl, rfl, ?_, ?_, ?_, ?_⟩
  · show ws.hypothesisCount = ws.hypothesisCount + if c.isHypothesis then 1 else 0
    rw [hhyp]
    rfl
  · rw [hid]
    exact (Nat.max_zero _).symm
  · rw [hid]
    rfl
  · show ws.theoremLabel = c.theorem?.or ws.theoremLabel
    rw [hheader, Option.none_or]

end Worksheet

end ProofSheet
