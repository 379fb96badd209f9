import ProofSheet.Text.Basic

set_option autoImplicit false

/-! # The database

A worksheet is read against a database, of which it asks two things only: what is known of the
theorem with a label, and whether a label names anything at all. A table of theorems is a
database that is kept in memory. It may list a label twice, and then the last entry counts.
-/

namespace ProofSheet

/-- A logical hypothesis of a theorem: its label and the text of its formula. -/
structure Hypothesis where
  label : Text
  formula : Text
deriving DecidableEq, Repr, Inhabited

/-- What is known of a theorem. -/
structure TheoremInfo where
  label : Text
  conclusion : Text
  /-- The logical hypotheses, in order. -/
  hypotheses : List Hypothesis := []
  /-- The labels that compressed proofs of the theorem number first. -/
  mandatoryFrame : List Text := []
deriving DecidableEq, Repr, Inhabited

/-- A database, as the answers it gives. Unless it says otherwise, it knows the labels of its
theorems and no others. -/
structure Database where
  find? : Text → Option TheoremInfo
  knows : Text → Bool := fun label => (find? label).isSome

/-- Theorems, and further labels of which nothing else is known. -/
structure TheoremTable where
  theorems : List TheoremInfo := []
  labels : List Text := []
deriving DecidableEq, Repr, Inhabited

namespace TheoremTable

/-- The last theorem with the label. -/
def find? (t : TheoremTable) (label : Text) : Option TheoremInfo :=
  t.theorems.findRev? (·.label == label)

/-- The label names a theorem or is one of the further labels. -/
def knows (t : TheoremTable) (label : Text) : Bool :=
  (t.find? label).isSome || t.labels.contains label

/-- The table as a database. -/
def database (t : TheoremTable) : Database := { find? := t.find?, knows := t.knows }

/-- The table as a database that does not know the further labels. -/
def theoremDatabase (t : TheoremTable) : Database := { find? := t.find? }

/-- Puts a theorem in the place of the last one with its label, if there is one. -/
def replaceLast (new : TheoremInfo) : List TheoremInfo → Option (List TheoremInfo)
  | [] => none
  | old :: rest =>
    match replaceLast new rest with
    | some rest' => some (old :: rest')
    | none => if old.label = new.label then some (new :: rest) else none

/-- Adds a theorem, or replaces the one that its label stood for. -/
def insert (t : TheoremTable) (new : TheoremInfo) : TheoremTable :=
  { t with theorems := (replaceLast new t.theorems).getD (t.theorems ++ [new]) }

/-- Adds a further label. -/
def insertLabel (t : TheoremTable) (label : Text) : TheoremTable :=
  if t.labels.contains label then t else { t with labels := t.labels ++ [label] }

end TheoremTable

end ProofSheet
