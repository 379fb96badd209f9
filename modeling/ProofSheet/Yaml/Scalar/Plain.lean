import ProofSheet.Yaml.Scalar.Gap

set_option autoImplicit false

/-! # Plain scalars

A scalar without quotes goes on over gaps, also into further lines as long as these begin right
of the column that contains it. It ends before a colon that a gap follows, before a `#` after a
gap, before a mark that begins or ends a document, and inside brackets also before a bracket or
a comma; there no colon may stand right before one of these.
-/

namespace ProofSheet.Yaml

/-- Reads a plain scalar at the beginning of a text: its text, and the number of characters that it
takes with the gap that follows it. Given are the leftmost column of its further lines, the gap
before the text, and the column where the text begins. A tab left of the leftmost column is an
error. -/
def readPlain (inFlow : Bool) (margin : Nat) (gap : Gap) (column : Nat) :
    Text → Option (Text × Nat)
  | [] => some ([], 0)
  | c :: rest =>
    if isGap c then
      if c = '\t' ∧ gap.isBroken ∧ column < margin then none
      else do
        let next := if isBreak c then 0 else column + 1
        let (text, size) ← readPlain inFlow margin (gap.push c) next rest
        some (text, size + 1)
    else
      let left := !inFlow && column < margin
      let marked := column == 0 && atDocumentMark (c :: rest)
      if !gap.isEmpty && (left || c == '#' || marked) then some ([], 0)
      else if inFlow && c == ':' && rest.head?.any (fun d => d == '?' || isFlowSign d) then none
      else if (c == ':' && atGap rest) || (inFlow && isFlowSign c) then some ([], 0)
      else do
        let (more, size) ← readPlain inFlow margin {} (column + 1) rest
        some (gap.text ++ c :: more, size + 1)

end ProofSheet.Yaml
