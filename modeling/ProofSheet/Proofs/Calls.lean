import ProofSheet.Worksheet.Edit
import ProofSheet.Worksheet.Renumber

set_option autoImplicit false

/-! # Calls on a worksheet

After it has been loaded, a worksheet answers calls: to renumber its steps, to apply edits, and
to let a processor compute edits and apply them. A call may be refused, and edits may be applied
in part, but there is always a worksheet afterwards (`Worksheet.afterCalls`).

Whatever the calls are, they come down to moves of three kinds: an edit that is granted, the
measuring of levels, and a renumbering that is granted (`Worksheet.moves_afterCalls`). So what
holds after all calls is shown by an induction on the moves.
-/

namespace ProofSheet

/-- A call on a worksheet that has been loaded. -/
inductive Call where
  | renumber (interval : Nat)
  | edits (st : Settings) (edits : List Edit)
  | process (st : Settings) (cancelled : Bool)
      (processor : Worksheet → Except String (List Edit))

namespace Worksheet

/-- The worksheet after a call, be it granted or refused. -/
def afterCall (ws : Worksheet) : Call → Worksheet
  | .renumber interval =>
    match ws.renumber interval with
    | .ok (ws', _) => ws'
    | .error _ => ws
  | .edits st edits => (ws.applyEdits st edits).1
  | .process st cancelled processor => (ws.applyProcessor st cancelled processor).1

/-- The worksheet after some calls. -/
def afterCalls (ws : Worksheet) (calls : List Call) : Worksheet := calls.foldl afterCall ws

/-- The edits of a list that are granted, each with the worksheet that it meets. -/
def granted (st : Settings) (ws : Worksheet) : List Edit → List (Worksheet × Edit)
  | [] => []
  | e :: rest =>
    match ws.applyEdit st e with
    | .ok ws' => (ws, e) :: ws'.granted st rest
    | .error _ => []

/-- The edits that a call gets granted. -/
def grantedIn (ws : Worksheet) : Call → List (Worksheet × Edit)
  | .renumber _ => []
  | .edits st edits => if ws.broken then [] else ws.granted st edits
  | .process st cancelled processor =>
    if ws.broken || cancelled then []
    else
      match processor ws with
      | .ok edits => ws.granted st edits
      | .error _ => []

/-- The edits that some calls get granted, each with the worksheet that it meets. -/
def grantedBy (ws : Worksheet) : List Call → List (Worksheet × Edit)
  | [] => []
  | call :: rest => ws.grantedIn call ++ (ws.afterCall call).grantedBy rest

/-- One worksheet becomes another by moves, with the edits among them. -/
inductive Moves : Worksheet → List (Worksheet × Edit) → Worksheet → Prop where
  | done (ws : Worksheet) : Moves ws [] ws
  | edit {st : Settings} {ws ws' ws'' : Worksheet} {e : Edit} {edits : List (Worksheet × Edit)}
      (granted : ws.applyEdit st e = .ok ws') (rest : Moves ws' edits ws'') :
      Moves ws ((ws, e) :: edits) ws''
  | levels {ws ws'' : Worksheet} {edits : List (Worksheet × Edit)}
      (rest : Moves ws.measureLevels edits ws'') : Moves ws edits ws''
  | renumber {ws ws' ws'' : Worksheet} {interval changed : Nat}
      {edits : List (Worksheet × Edit)}
      (granted : ws.renumber interval = .ok (ws', changed)) (rest : Moves ws' edits ws'') :
      Moves ws edits ws''

theorem Moves.trans {ws ws' ws'' : Worksheet} {edits edits' : List (Worksheet × Edit)}
    (h : Moves ws edits ws') (h' : Moves ws' edits' ws'') : Moves ws (edits ++ edits') ws'' := by
  induction h with
  | done => exact h'
  | edit granted _ ih => exact .edit granted (ih h')
  | levels _ ih => exact .levels (ih h')
  | renumber granted _ ih => exact .renumber granted (ih h')

theorem moves_applyInOrder (st : Settings) (ws : Worksheet) (edits : List Edit) :
    Moves ws (ws.granted st edits) (ws.applyInOrder st edits).1 := by
  induction edits generalizing ws with
  | nil => exact .done ws
  | cons e rest ih =>
      rw [granted, applyInOrder]
      cases h : ws.applyEdit st e with
      | ok ws' => exact .edit h (ih ws')
      | error r => exact .done ws

theorem moves_applyEdits {st : Settings} {ws : Worksheet} (edits : List Edit)
    (h : ws.broken = false) : Moves ws (ws.granted st edits) (ws.applyEdits st edits).1 := by
  have order := moves_applyInOrder st ws edits
  rw [applyEdits, h]
  cases happ : ws.applyInOrder st edits with
  | mk ws' refusal =>
      rw [happ] at order
      cases refusal with
      | some r => exact order
      | none =>
          have := order.trans (.levels (.done ws'.measureLevels))
          rwa [List.append_nil] at this

theorem moves_afterCall (ws : Worksheet) (call : Call) :
    Moves ws (ws.grantedIn call) (ws.afterCall call) := by
  cases call with
  | renumber interval =>
      rw [grantedIn, afterCall]
      cases h : ws.renumber interval with
      | ok result => exact .renumber h (.done result.1)
      | error r => exact .done ws
  | edits st edits =>
      rw [grantedIn, afterCall]
      cases hb : ws.broken with
      | true =>
          rw [applyEdits, hb]
          exact .done ws
      | false => exact moves_applyEdits edits hb
  | process st cancelled processor =>
      rw [grantedIn, afterCall, applyProcessor]
      cases hb : ws.broken with
      | true => exact .done ws
      | false =>
          cases cancelled with
          | true => exact .done ws
          | false =>
              simp only [Bool.or_self, Bool.false_eq_true, if_false]
              cases processor ws with
              | ok edits => exact moves_applyEdits edits hb
              | error reason => exact .done ws

/-- Calls come down to moves. -/
theorem moves_afterCalls (ws : Worksheet) (calls : List Call) :
    Moves ws (ws.grantedBy calls) (ws.afterCalls calls) := by
  induction calls generalizing ws with
  | nil => exact .done ws
  | cons call rest ih => exact (moves_afterCall ws call).trans (ih (ws.afterCall call))

end Worksheet

end ProofSheet
