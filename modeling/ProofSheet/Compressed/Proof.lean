import ProofSheet.Compressed.Code

set_option autoImplicit false

/-! # Compressed proofs

A compressed proof lists the labels it uses and then names them by number. The mandatory
hypotheses of the theorem are numbered first and not listed; every other label gets the next
number where it first appears.
-/

namespace ProofSheet

/-- The listed labels and the codes of a compressed proof. -/
structure CompressedProof where
  labels : List Text
  codes : List Code
deriving DecidableEq, Repr, Inhabited

namespace CompressedProof

/-- The code section, without spaces. -/
def codeText (p : CompressedProof) : Text := Code.textOf p.codes

/-- Some step of the proof is unknown. -/
def isIncomplete (p : CompressedProof) : Bool := p.codes.contains .unknown

end CompressedProof

/-- A label is added at the end of a numbering unless it has a number already. -/
def addLabel (known : List Text) (label : Text) : List Text :=
  if label ∈ known then known else known ++ [label]

/-- Numbers the labels of a proof in postfix order, starting from the labels that are known, and
gives the final numbering with the codes; a label `?` is an unknown step. -/
def numberLabels (known : List Text) : List Text → List Text × List Code
  | [] => (known, [])
  | label :: rest =>
    if label = ['?'] then
      let (all, codes) := numberLabels known rest
      (all, .unknown :: codes)
    else
      let (all, codes) := numberLabels (addLabel known label) rest
      (all, .index ((addLabel known label).idxOf label) :: codes)

/-- Compresses a proof given as labels in postfix order. -/
def compress (mandatory proof : List Text) : CompressedProof :=
  let implicit := mandatory.foldl addLabel []
  let (all, codes) := numberLabels implicit proof
  { labels := all.drop implicit.length, codes := codes }

end ProofSheet
