import ProofSheet.Yaml.Character

set_option autoImplicit false

/-! # Gaps in scalars

Spaces and ends of lines between two words of a scalar make up a gap. Spaces within a line
count as they are. Where a line ends, the spaces around its end are dropped, and a single line
feed counts as a space; of several ends of lines the first is dropped if it is a line feed.
-/

namespace ProofSheet.Yaml

/-- What stands between two words of a scalar. -/
structure Gap where
  /-- The spaces before the first end of a line. -/
  spaces : Text := []
  breaks : Text := []
  /-- The gap begins with an escaped end of a line, which counts as nothing. -/
  joined : Bool := false
deriving DecidableEq, Repr, Inhabited

namespace Gap

/-- Words are next to each other. -/
def isEmpty (g : Gap) : Bool := g.spaces.isEmpty && g.breaks.isEmpty

/-- The gap goes on in another line. -/
def isBroken (g : Gap) : Bool := g.joined || !g.breaks.isEmpty

/-- A gap with one more character. -/
def push (g : Gap) (c : Char) : Gap :=
  if isBreak c then { g with breaks := g.breaks ++ [c] }
  else if g.isBroken then g
  else { g with spaces := g.spaces ++ [c] }

/-- The text that a gap counts as. -/
def text (g : Gap) : Text :=
  if g.joined then g.breaks
  else
    match g.breaks with
    | [] => g.spaces
    | ['\n'] => [' ']
    | '\n' :: more => more
    | breaks => breaks

end Gap

end ProofSheet.Yaml
