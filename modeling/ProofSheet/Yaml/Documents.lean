import ProofSheet.Database
import ProofSheet.Settings
import ProofSheet.Yaml.Record

set_option autoImplicit false

/-! # Settings and theorem tables in YAML

The two kinds of documents that are read from files. Settings that are not given keep their
defaults. A theorem has a label and a conclusion; its hypotheses and its mandatory frame may
be left out. -/

namespace ProofSheet

open Yaml

/-- Why settings cannot be used. -/
inductive SettingsError where
  /-- The text is not a settings document. -/
  | notSettings
  /-- A setting has a value that it must not have. -/
  | invalid (d : SettingsDefect)
deriving DecidableEq, Repr, Inhabited

/-- The wording of a settings error. -/
def SettingsError.message : SettingsError → String
  | notSettings => "YAML parse error: not a settings document"
  | invalid d => d.message

/-- A placement by its name. -/
def CaretPlacement.ofName? (name : Text) : Option CaretPlacement :=
  if name = "first_incomplete".toList then some .firstIncomplete
  else if name = "last_incomplete".toList then some .lastIncomplete
  else if name = "as_is".toList then some .asIs
  else none

namespace Settings

/-- The names of the settings. -/
def names : List String :=
  ["cursor_placement", "renumber_interval", "step_selector_max_results", "provable_type",
    "proof_text_width", "proof_indent"]

/-- The settings that a document gives. -/
def ofDocument (doc : Document) : Lookup Settings := do
  let r ← doc.record names doc.root
  let d : Settings := {}
  return {
    caretPlacement :=
      ← r.optional "cursor_placement" d.caretPlacement fun n => do
        CaretPlacement.ofName? (← doc.choice n)
    renumberInterval :=
      ← r.optional "renumber_interval" d.renumberInterval (doc.number 0x100000000)
    selectorMaxResults :=
      ← r.optional "step_selector_max_results" d.selectorMaxResults
          (doc.number 0x10000000000000000)
    provableType := ← r.optional "provable_type" d.provableType doc.text
    proofTextWidth :=
      ← r.optional "proof_text_width" d.proofTextWidth (doc.number 0x10000000000000000)
    proofIndent := ← r.optional "proof_indent" d.proofIndent (doc.number 0x10000000000000000) }

/-- Reads settings and checks them. -/
def ofYaml (text : Text) : Except SettingsError Settings :=
  match (Document.ofText? text).bind (·.read? ofDocument) with
  | none => .error .notSettings
  | some s =>
    match s.defect? with
    | some d => .error (.invalid d)
    | none => .ok s

end Settings

/-- The hypothesis that a node of a document gives. -/
def Hypothesis.ofNode (doc : Document) (n : Node) : Lookup Hypothesis := do
  let r ← doc.record ["label", "formula"] n
  return { label := ← r.required "label" doc.text, formula := ← r.required "formula" doc.text }

/-- The theorem that a node of a document gives. -/
def TheoremInfo.ofNode (doc : Document) (n : Node) : Lookup TheoremInfo := do
  let r ← doc.record ["label", "hypotheses", "conclusion", "mandatory_frame"] n
  return {
    label := ← r.required "label" doc.text
    hypotheses := ← r.optional "hypotheses" [] (doc.list (Hypothesis.ofNode doc))
    conclusion := ← r.required "conclusion" doc.text
    mandatoryFrame := ← r.optional "mandatory_frame" [] (doc.list doc.text) }

namespace TheoremTable

/-- The table that a document gives. -/
def ofDocument (doc : Document) : Lookup TheoremTable := do
  let r ← doc.record ["theorems", "labels"] doc.root
  return {
    theorems := ← r.optional "theorems" [] (doc.list (TheoremInfo.ofNode doc))
    labels := ← r.optional "labels" [] (doc.list doc.text) }

/-- Reads a table. -/
def ofYaml? (text : Text) : Option TheoremTable :=
  (Document.ofText? text).bind (·.read? ofDocument)

end TheoremTable

end ProofSheet
