import ProofSheet.Yaml.Node

set_option autoImplicit false

/-! # Values in a YAML document

What a node means depends on what is wanted of it: a text is any scalar, a number is a plain
scalar, a list is a sequence, and a record is a mapping whose keys name its fields. Keys that
name no field are ignored, but no field may be given twice. Where a list or a record is wanted,
a missing value is an empty one.
-/

namespace ProofSheet.Yaml

/-- The fields that a node gives, by name. -/
abbrev Record := List (String × Node)

/-- Reads a number without a sign: in decimal without superfluous zeros, or in base sixteen,
eight or two after `0x`, `0o` or `0b`. -/
def readUnsigned (t : Text) : Option Nat :=
  match t with
  | '0' :: 'x' :: rest => digits? 16 rest
  | '0' :: 'o' :: rest => digits? 8 rest
  | '0' :: 'b' :: rest => digits? 2 rest
  | '0' :: _ :: _ => none
  | _ => digits? 10 t

/-- Reads a number that a plus sign may precede. -/
def readNumber (t : Text) : Option Nat :=
  readUnsigned (if t.head? = some '+' then t.drop 1 else t)

/-- Reads part of a document, or finds that it is not what is wanted. The state is the number of
aliases that may still be followed. -/
abbrev Lookup := StateT Nat Option

namespace Document

/-- The node at a place: an alias is the node that it is for. -/
def resolve (d : Document) : Node → Lookup Node
  | .aliasOf number => do
    match ← get with
    | 0 => failure
    | left + 1 =>
      set left
      d.named.lookup number
  | n => return n

/-- The text of a scalar. -/
def text (d : Document) (n : Node) : Lookup Text := do
  match ← d.resolve n with
  | .scalar text _ _ => return text
  | _ => failure

/-- The items of a sequence. -/
def items (d : Document) (n : Node) : Lookup (List Node) := do
  match ← d.resolve n with
  | .sequence items => return items
  | .scalar [] .plain _ => return []
  | _ => failure

/-- Reads each item of a sequence. -/
def list {α : Type} (d : Document) (read : Node → Lookup α) (n : Node) : Lookup (List α) := do
  (← d.items n).mapM read

/-- The number that a scalar is, if it is below a limit. The scalar is plain, or in literal lines
with the tag of numbers. -/
def number (d : Document) (limit : Nat) (n : Node) : Lookup Nat := do
  match ← d.resolve n with
  | .scalar text style tag =>
    if style = .plain ∨ (style = .literal ∧ tag = some integerTag) then
      (readNumber text).filter (· < limit)
    else failure
  | _ => failure

/-- The name of one of some choices: a scalar, or a tag that says all, with an empty or null
scalar. -/
def choice (d : Document) (n : Node) : Lookup Text := do
  match ← d.resolve n with
  | .scalar text style (some ('!' :: name)) =>
    let isNull := ["", "~", "null", "Null", "NULL"].contains (String.ofList text)
    if style = .plain ∧ isNull then return name else failure
  | .scalar text _ _ => return text
  | _ => failure

/-- The fields of a record with the given field names. -/
def record (d : Document) (fields : List String) (n : Node) : Lookup Record := do
  match ← d.resolve n with
  | .scalar [] .plain _ => return []
  | .mapping entries =>
    let named ← entries.mapM fun (key, value) => do return (String.ofList (← d.text key), value)
    let known := named.filter fun (name, _) => fields.contains name
    if (known.map Prod.fst).Nodup then return known else failure
  | _ => failure

/-- Reads a whole document. -/
def read? {α : Type} (d : Document) (read : Document → Lookup α) : Option α :=
  (read d).run' d.aliasLimit

end Document

namespace Record

/-- Reads a field that has to be given. -/
def required {α : Type} (r : Record) (field : String) (read : Node → Lookup α) : Lookup α := do
  read (← r.lookup field)

/-- Reads a field that has a default. -/
def optional {α : Type} (r : Record) (field : String) (default : α) (read : Node → Lookup α) :
    Lookup α :=
  match r.lookup field with
  | some n => read n
  | none => return default

end Record

end ProofSheet.Yaml
