import ProofSheet.Worksheet.Basic

set_option autoImplicit false

/-! # Levels

The level of a step is its distance from `qed` along hypothesis lists, on the longest way; a
step that `qed` does not need has level zero. Since steps cite earlier ones only, the levels
are found in one pass from the last statement to the first.
-/

namespace ProofSheet

/-- The levels of the steps that are known to be needed. -/
abbrev Levels := List (StepId × Nat)

namespace Levels

/-- A step is at least at a level. -/
def raise (levels : Levels) (level : Nat) (id : StepId) : Levels :=
  match levels.lookup id with
  | none => (id, level) :: levels
  | some old => levels.map fun (i, n) => if i = id then (i, max old level) else (i, n)

/-- The steps that a needed derivation step cites are one level further. -/
def visit (levels : Levels) (d : Derivation) : Levels :=
  let level := if d.id.isQed then some 0 else levels.lookup d.id
  match level with
  | none => levels
  | some n => d.cited.foldl (·.raise (n + 1) ·) (levels.raise n d.id)

/-- The levels that follow from a list of statements. -/
def of (statements : List Statement) : Levels :=
  (statements.filterMap Statement.derivation?).foldr (fun d levels => levels.visit d) []

end Levels

/-- Records the levels of all steps. -/
def Worksheet.measureLevels (ws : Worksheet) : Worksheet :=
  let levels := Levels.of ws.statements
  { ws with
    statements := ws.statements.map
      (·.mapStep fun s => { s with level := (levels.lookup s.id).getD 0 }) }

end ProofSheet
