import ProofSheet.Yaml.Documents
import Mathlib.Data.Finset.Card
import Mathlib.Data.Finset.Insert
import Mathlib.Logic.Function.Basic

set_option autoImplicit false

/-! # Tables of theorems as finite maps

A table is read as two lists, of theorems and of further labels, and entries can be added to it one
by one. It can keep an index of the lists (`IndexedTable`): where the last theorem with each label
stands, and the set of the further labels. An index that is made of the lists in the end is the one
that is kept while they grow (`TheoremTable.indexed_addAll`), and it answers as the lists do
(`TheoremTable.mirrors_indexed`).

A table that was read and one to which the same entries were added give the same answers, and those
of a finite map in which the last entry counts (`Database.IsMapOf`). Only their sizes may differ.
Adding a theorem replaces the one with its label, while a list that is read keeps both
(`TheoremTable.read_built`).
-/

namespace ProofSheet

/-- What can be added to a table. -/
inductive TableEntry where
  | info (new : TheoremInfo)
  /-- A label of which nothing else is known. -/
  | label (name : Text)
deriving DecidableEq, Repr, Inhabited

namespace TableEntry

/-- The label of the entry. -/
def name : TableEntry → Text
  | info new => new.label
  | label name => name

/-- The theorem that the entry gives. -/
def info? : TableEntry → Option TheoremInfo
  | info new => some new
  | label _ => none

end TableEntry

namespace TheoremTable

/-- Adds an entry. -/
def add (t : TheoremTable) : TableEntry → TheoremTable
  | .info new => t.insert new
  | .label name => t.insertLabel name

/-- Adds entries one after the other. -/
def addAll (t : TheoremTable) (entries : List TableEntry) : TheoremTable := entries.foldl add t

/-- The number of theorems. -/
def size (t : TheoremTable) : Nat := t.theorems.length

/-- The labels of the theorems. -/
def names (t : TheoremTable) : List Text := t.theorems.map (·.label)

end TheoremTable

/-- A table with an index of it. -/
structure IndexedTable where
  theorems : List TheoremInfo := []
  labels : List Text := []
  /-- Where the theorem stands that a label names. -/
  position? : Text → Option Nat := fun _ => none
  labelSet : Finset Text := ∅

namespace IndexedTable

/-- The theorem that the index names. -/
def find? (t : IndexedTable) (label : Text) : Option TheoremInfo :=
  (t.position? label).bind (t.theorems[·]?)

/-- The label is in the index. -/
def knows (t : IndexedTable) (label : Text) : Bool :=
  (t.position? label).isSome || decide (label ∈ t.labelSet)

/-- Adds a theorem, or replaces the one that the index names. -/
def insert (t : IndexedTable) (new : TheoremInfo) : IndexedTable :=
  match t.position? new.label with
  | some i => { t with theorems := t.theorems.set i new }
  | none =>
    { t with
      position? := Function.update t.position? new.label (some t.theorems.length)
      theorems := t.theorems ++ [new] }

/-- Adds a further label. -/
def insertLabel (t : IndexedTable) (label : Text) : IndexedTable :=
  if label ∈ t.labelSet then t
  else { t with labelSet := Insert.insert label t.labelSet, labels := t.labels ++ [label] }

/-- Adds an entry. -/
def add (t : IndexedTable) : TableEntry → IndexedTable
  | .info new => t.insert new
  | .label name => t.insertLabel name

/-- Adds entries one after the other. -/
def addAll (t : IndexedTable) (entries : List TableEntry) : IndexedTable := entries.foldl add t

/-- The table as a database, which looks into the index. -/
def database (t : IndexedTable) : Database := { find? := t.find?, knows := t.knows }

/-- The indexed table has the lists of the table and gives its answers. -/
structure Mirrors (t : IndexedTable) (table : TheoremTable) : Prop where
  theorems : t.theorems = table.theorems
  labels : t.labels = table.labels
  database : t.database = table.database

end IndexedTable

/-- The index of theorems, made by going through them from the first to the last. -/
def positions (ts : List TheoremInfo) : Text → Option Nat :=
  ts.zipIdx.foldl (fun index (info, i) => Function.update index info.label (some i)) fun _ => none

/-- Makes the index of a table. -/
def TheoremTable.indexed (t : TheoremTable) : IndexedTable where
  theorems := t.theorems
  labels := t.labels
  position? := positions t.theorems
  labelSet := t.labels.toFinset

/-! ## Where a label stands last -/

/-- The last place at which a name stands in a list. -/
def lastIndex? (name : Text) : List Text → Option Nat
  | [] => none
  | first :: rest =>
    match lastIndex? name rest with
    | some i => some (i + 1)
    | none => if first = name then some 0 else none

theorem lastIndex?_concat (name last : Text) (names : List Text) :
    lastIndex? name (names ++ [last]) =
      if last = name then some names.length else lastIndex? name names := by
  induction names with
  | nil => rfl
  | cons first rest ih =>
      rw [List.cons_append, lastIndex?, ih]
      by_cases h : last = name
      · simp [h]
      · simp [h, lastIndex?]

theorem lastIndex?_eq_none {name : Text} {names : List Text} :
    lastIndex? name names = none ↔ name ∉ names := by
  induction names with
  | nil => simp [lastIndex?]
  | cons first rest ih =>
      rw [lastIndex?, List.mem_cons, not_or, ← ih]
      cases lastIndex? name rest with
      | some i => simp
      | none => simp [eq_comm]

theorem getElem?_of_lastIndex? {name : Text} {names : List Text} {i : Nat}
    (h : lastIndex? name names = some i) : names[i]? = some name := by
  induction names generalizing i with
  | nil => cases h
  | cons first rest ih =>
      rw [lastIndex?] at h
      cases hrest : lastIndex? name rest with
      | some j =>
          rw [hrest] at h
          cases h
          exact ih hrest
      | none =>
          rw [hrest] at h
          dsimp only at h
          split at h
          · next hfirst =>
              cases h
              rw [List.getElem?_cons_zero, hfirst]
          · cases h

namespace TheoremTable

theorem replaceLast_eq (new : TheoremInfo) (ts : List TheoremInfo) :
    replaceLast new ts = (lastIndex? new.label (ts.map (·.label))).map (ts.set · new) := by
  induction ts with
  | nil => rfl
  | cons old rest ih =>
      rw [replaceLast, ih, List.map_cons, lastIndex?]
      cases lastIndex? new.label (rest.map (·.label)) with
      | some i => rfl
      | none =>
          by_cases h : old.label = new.label
          · simp [h]
          · simp [h]

theorem findRev?_eq (label : Text) (ts : List TheoremInfo) :
    ts.findRev? (·.label == label) =
      (lastIndex? label (ts.map (·.label))).bind (ts[·]?) := by
  induction ts with
  | nil => rfl
  | cons first rest ih =>
      rw [List.findRev?, ih, List.map_cons, lastIndex?]
      cases hrest : lastIndex? label (rest.map (·.label)) with
      | some i =>
          have hget := getElem?_of_lastIndex? hrest
          rw [List.getElem?_map, Option.map_eq_some_iff] at hget
          obtain ⟨info, hinfo, -⟩ := hget
          simp [hinfo]
      | none =>
          by_cases h : first.label = label
          · simp [h]
          · simp [h]

/-! ## What adding an entry does -/

variable {t : TheoremTable} {new : TheoremInfo} {label : Text} {i : Nat}

theorem insert_of_some (h : lastIndex? new.label t.names = some i) :
    t.insert new = { t with theorems := t.theorems.set i new } := by
  rw [insert, replaceLast_eq, ← names, h]
  rfl

theorem insert_of_none (h : lastIndex? new.label t.names = none) :
    t.insert new = { t with theorems := t.theorems ++ [new] } := by
  rw [insert, replaceLast_eq, ← names, h]
  rfl

/-- A theorem brings its label in, unless there is one with it. -/
theorem names_insert (t : TheoremTable) (new : TheoremInfo) :
    (t.insert new).names =
      if new.label ∈ t.names then t.names else t.names ++ [new.label] := by
  cases hlast : lastIndex? new.label t.names with
  | some i =>
      have hget := getElem?_of_lastIndex? hlast
      obtain ⟨hi, hname⟩ := List.getElem?_eq_some_iff.mp hget
      have hmem : new.label ∈ t.names := List.mem_of_getElem? hget
      rw [insert_of_some hlast, if_pos hmem]
      calc (t.theorems.set i new).map (·.label)
          = t.names.set i new.label := List.map_set
        _ = t.names.set i t.names[i] := by rw [hname]
        _ = t.names := List.set_getElem_self hi
  | none =>
      rw [insert_of_none hlast, if_neg (lastIndex?_eq_none.mp hlast), names, List.map_append]
      rfl

/-- A theorem that is added is the one that its label names. -/
theorem find?_insert (t : TheoremTable) (new : TheoremInfo) (label : Text) :
    (t.insert new).find? label = if new.label = label then some new else t.find? label := by
  have hfind : ∀ t : TheoremTable,
      t.find? label = (lastIndex? label t.names).bind (t.theorems[·]?) :=
    fun t => findRev?_eq label t.theorems
  rw [hfind, hfind, names_insert]
  cases hlast : lastIndex? new.label t.names with
  | some i =>
      obtain ⟨hi, hname⟩ := List.getElem?_eq_some_iff.mp (getElem?_of_lastIndex? hlast)
      have hmem : new.label ∈ t.names := List.mem_of_getElem? (getElem?_of_lastIndex? hlast)
      rw [insert_of_some hlast, if_pos hmem]
      by_cases hlabel : new.label = label
      · rw [names, List.length_map] at hi
        rw [if_pos hlabel, ← hlabel, hlast, Option.bind_some, List.getElem?_set_self hi]
      · rw [if_neg hlabel]
        refine Option.bind_congr fun j hj => List.getElem?_set_ne ?_
        rintro rfl
        have hsame := (getElem?_of_lastIndex? hlast).symm.trans (getElem?_of_lastIndex? hj)
        exact hlabel (Option.some.inj hsame)
  | none =>
      rw [insert_of_none hlast, if_neg (lastIndex?_eq_none.mp hlast), lastIndex?_concat]
      by_cases hlabel : new.label = label
      · rw [if_pos hlabel, if_pos hlabel, Option.bind_some, names, List.length_map]
        exact List.getElem?_concat_length
      · rw [if_neg hlabel, if_neg hlabel]
        refine Option.bind_congr fun j hj => ?_
        obtain ⟨hj, -⟩ := List.getElem?_eq_some_iff.mp (getElem?_of_lastIndex? hj)
        rw [names, List.length_map] at hj
        exact List.getElem?_append_left hj

theorem isSome_find? : (t.find? label).isSome = true ↔ label ∈ t.names := by
  rw [find?, List.findRev?_eq_find?_reverse, List.find?_isSome, names, List.mem_map]
  simp only [List.mem_reverse, beq_iff_eq]

theorem knows_iff : t.knows label = true ↔ label ∈ t.names ∨ label ∈ t.labels := by
  rw [knows, Bool.or_eq_true, isSome_find?, List.contains_iff_mem]

/-! ## The index of a table -/

theorem positions_eq (ts : List TheoremInfo) (label : Text) :
    positions ts label = lastIndex? label (ts.map (·.label)) := by
  induction ts using List.reverseRecOn with
  | nil => rfl
  | append_singleton ts last ih =>
      rw [List.map_append, List.map_singleton, lastIndex?_concat, List.length_map, ← ih, positions,
        List.zipIdx_append, List.foldl_append, ← positions]
      simp [Function.update_apply, eq_comm]

/-- Adding a theorem keeps the index as making it anew would. -/
theorem indexed_insert (t : TheoremTable) (new : TheoremInfo) :
    (t.insert new).indexed = t.indexed.insert new := by
  have hindex : t.indexed.position? new.label = lastIndex? new.label t.names :=
    positions_eq t.theorems new.label
  have hpositions : positions (t.insert new).theorems = fun label =>
      lastIndex? label (if new.label ∈ t.names then t.names else t.names ++ [new.label]) := by
    funext label
    rw [← names_insert]
    exact positions_eq _ label
  unfold IndexedTable.insert
  rw [hindex]
  cases hlast : lastIndex? new.label t.names with
  | some i =>
      have hmem : new.label ∈ t.names := List.mem_of_getElem? (getElem?_of_lastIndex? hlast)
      have hsame : positions (t.theorems.set i new) = positions t.theorems := by
        rw [insert_of_some hlast, if_pos hmem] at hpositions
        exact hpositions.trans (funext fun label => (positions_eq t.theorems label).symm)
      rw [insert_of_some hlast, indexed, hsame]
      rfl
  | none =>
      have hgrown : positions (t.theorems ++ [new]) =
          Function.update (positions t.theorems) new.label (some t.theorems.length) := by
        rw [insert_of_none hlast, if_neg (lastIndex?_eq_none.mp hlast)] at hpositions
        rw [hpositions]
        funext label
        rw [lastIndex?_concat, Function.update_apply, positions_eq, names, List.length_map]
        simp [eq_comm]
      rw [insert_of_none hlast, indexed, hgrown]
      rfl

theorem mem_labelSet_indexed : label ∈ t.indexed.labelSet ↔ label ∈ t.labels :=
  List.mem_toFinset

theorem indexed_insertLabel (t : TheoremTable) (label : Text) :
    (t.insertLabel label).indexed = t.indexed.insertLabel label := by
  unfold insertLabel IndexedTable.insertLabel
  by_cases h : label ∈ t.labels
  · rw [if_pos (List.contains_iff_mem.mpr h), if_pos (mem_labelSet_indexed.mpr h)]
  · have hset : (t.labels ++ [label]).toFinset = Insert.insert label t.labels.toFinset := by
      ext x
      simp
    rw [if_neg (fun hc => h (List.contains_iff_mem.mp hc)),
      if_neg (fun hm => h (mem_labelSet_indexed.mp hm)), indexed, hset]
    rfl

theorem indexed_add (t : TheoremTable) (entry : TableEntry) :
    (t.add entry).indexed = t.indexed.add entry := by
  cases entry with
  | info new => exact t.indexed_insert new
  | label name => exact t.indexed_insertLabel name

/-- An index that is kept while entries are added is the index of the table in the end. -/
theorem indexed_addAll (t : TheoremTable) (entries : List TableEntry) :
    (t.addAll entries).indexed = t.indexed.addAll entries := by
  induction entries generalizing t with
  | nil => rfl
  | cons entry rest ih =>
      rw [IndexedTable.addAll, List.foldl_cons, ← indexed_add]
      exact ih (t.add entry)

theorem find?_indexed (t : TheoremTable) (label : Text) :
    t.indexed.find? label = t.find? label := by
  rw [find?, findRev?_eq, IndexedTable.find?, ← positions_eq]
  rfl

theorem knows_indexed (t : TheoremTable) (label : Text) :
    t.indexed.knows label = t.knows label := by
  have hnamed : (t.indexed.position? label).isSome = true ↔ label ∈ t.names := by
    have hpos : t.indexed.position? label = lastIndex? label t.names :=
      positions_eq t.theorems label
    rw [Option.isSome_iff_ne_none, hpos, Ne, lastIndex?_eq_none, not_not]
  rw [Bool.eq_iff_iff, knows_iff, IndexedTable.knows, Bool.or_eq_true, hnamed, decide_eq_true_iff,
    mem_labelSet_indexed]

theorem mirrors_indexed (t : TheoremTable) : t.indexed.Mirrors t where
  theorems := rfl
  labels := rfl
  database := by
    rw [IndexedTable.database, database, funext t.find?_indexed, funext t.knows_indexed]

end TheoremTable

/-! ## Tables as finite maps -/

/-- The theorems among entries. -/
def givenTheorems (given : List TableEntry) : List TheoremInfo := given.filterMap TableEntry.info?

/-- The labels of the theorems among entries, each once. -/
def givenNames (given : List TableEntry) : Finset Text :=
  ((givenTheorems given).map (·.label)).toFinset

/-- The database answers as a finite map of the entries. -/
structure Database.IsMapOf (db : Database) (given : List TableEntry) : Prop where
  /-- Of the theorems with a label the last one counts. -/
  find : ∀ label, db.find? label = (givenTheorems given).findRev? (·.label == label)
  knows : ∀ label, db.knows label = true ↔ label ∈ given.map TableEntry.name

@[simp] theorem givenTheorems_append (given more : List TableEntry) :
    givenTheorems (given ++ more) = givenTheorems given ++ givenTheorems more :=
  List.filterMap_append

@[simp] theorem givenTheorems_map_info (ts : List TheoremInfo) :
    givenTheorems (ts.map .info) = ts := by
  have hinfo : TableEntry.info? ∘ TableEntry.info = some := rfl
  rw [givenTheorems, List.filterMap_map, hinfo, List.filterMap_some]

@[simp] theorem givenTheorems_map_label (ls : List Text) :
    givenTheorems (ls.map .label) = [] := by
  rw [givenTheorems, List.filterMap_eq_nil_iff]
  intro entry hentry
  obtain ⟨name, -, rfl⟩ := List.mem_map.mp hentry
  rfl

theorem findRev?_concat (label : Text) (last : TheoremInfo) (ts : List TheoremInfo) :
    (ts ++ [last]).findRev? (·.label == label) =
      if last.label = label then some last else ts.findRev? (·.label == label) := by
  rw [List.findRev?_eq_find?_reverse, List.findRev?_eq_find?_reverse, List.reverse_concat,
    List.find?_cons]
  by_cases h : last.label = label
  · rw [if_pos h, beq_iff_eq.mpr h]
  · rw [if_neg h, beq_eq_false_iff_ne.mpr h]

namespace TheoremTable

variable {t : TheoremTable} {given : List TableEntry}

/-- Adding an entry to a table is giving one more. -/
theorem isMapOf_add (h : t.database.IsMapOf given) (entry : TableEntry) :
    (t.add entry).database.IsMapOf (given ++ [entry]) where
  find label := by
    have hfind : t.find? label = (givenTheorems given).findRev? (·.label == label) := h.find label
    rw [givenTheorems_append]
    cases entry with
    | info new =>
        calc (t.insert new).find? label
            = if new.label = label then some new else t.find? label := t.find?_insert new label
          _ = (givenTheorems given ++ [new]).findRev? (·.label == label) := by
              rw [findRev?_concat, hfind]
    | label name =>
        have hnone : givenTheorems [.label name] = [] := rfl
        have hsame : (t.insertLabel name).find? label = t.find? label := by
          unfold insertLabel find?
          split <;> rfl
        rw [hnone, List.append_nil, ← hfind]
        exact hsame
  knows label := by
    have hknown : t.knows label = true ↔ label ∈ given.map TableEntry.name := h.knows label
    rw [List.map_append, List.mem_append, ← hknown, knows_iff, List.map_singleton,
      List.mem_singleton]
    cases entry with
    | info new =>
        refine knows_iff.trans ?_
        have hlabels : (t.insert new).labels = t.labels := rfl
        rw [add, names_insert, hlabels, TableEntry.name]
        split
        · grind
        · grind
    | label name =>
        refine knows_iff.trans ?_
        rw [add, TableEntry.name, insertLabel]
        split
        · grind
        · grind [names]

theorem isMapOf_addAll (h : t.database.IsMapOf given) (entries : List TableEntry) :
    (t.addAll entries).database.IsMapOf (given ++ entries) := by
  induction entries generalizing t given with
  | nil => rwa [List.append_nil]
  | cons entry rest ih =>
      have hrest := ih (isMapOf_add h entry)
      rwa [List.append_assoc] at hrest

/-- A table that is read is a map of the entries it lists. -/
theorem isMapOf_read (ts : List TheoremInfo) (ls : List Text) :
    ({ theorems := ts, labels := ls } : TheoremTable).database.IsMapOf
      (ts.map .info ++ ls.map .label) where
  find label := by
    rw [givenTheorems_append, givenTheorems_map_info, givenTheorems_map_label, List.append_nil]
    rfl
  knows label := by
    have hlabels : (ls.map TableEntry.label).map TableEntry.name = ls := by
      rw [List.map_map]
      exact List.map_id ls
    rw [List.map_append, List.map_map, hlabels, List.mem_append]
    exact knows_iff

/-! ## The number of theorems -/

/-- The labels that come in while entries are added are new ones, and each comes in once. -/
theorem names_addAll (t : TheoremTable) (entries : List TableEntry) :
    ∃ fresh, (t.addAll entries).names = t.names ++ fresh ∧ fresh.Nodup ∧
      ∀ label, label ∈ fresh ↔ label ∈ givenNames entries ∧ label ∉ t.names := by
  induction entries generalizing t with
  | nil => exact ⟨[], (List.append_nil _).symm, List.nodup_nil, by simp [givenNames, givenTheorems]⟩
  | cons entry rest ih =>
      obtain ⟨fresh, hnames, hnodup, hfresh⟩ := ih (t.add entry)
      cases entry with
      | label name =>
          have hsame : (t.add (.label name)).names = t.names := by
            unfold add insertLabel
            dsimp only
            split <;> rfl
          rw [hsame] at hnames hfresh
          exact ⟨fresh, hnames, hnodup, hfresh⟩
      | info new =>
          have hgiven : ∀ label, label ∈ givenNames (.info new :: rest) ↔
              label = new.label ∨ label ∈ givenNames rest := by
            intro label
            simp [givenNames, givenTheorems, TableEntry.info?, eq_comm]
          rw [add, names_insert] at hnames hfresh
          by_cases hmem : new.label ∈ t.names
          · rw [if_pos hmem] at hnames hfresh
            refine ⟨fresh, hnames, hnodup, fun label => ?_⟩
            rw [hfresh, hgiven]
            grind
          · rw [if_neg hmem] at hnames hfresh
            refine ⟨new.label :: fresh, ?_, ?_, fun label => ?_⟩
            · rw [addAll, List.foldl_cons]
              exact hnames.trans (List.append_assoc ..)
            · have hnew : new.label ∉ fresh := by
                rw [hfresh]
                simp
              exact List.nodup_cons.mpr ⟨hnew, hnodup⟩
            · rw [List.mem_cons, hfresh, hgiven]
              grind

/-- As many theorems are counted as labels were given exactly if no label was read twice. -/
theorem size_addAll_iff (ts : List TheoremInfo) (ls : List Text) (entries : List TableEntry) :
    (({ theorems := ts, labels := ls } : TheoremTable).addAll entries).size =
        (givenNames (ts.map .info ++ ls.map .label ++ entries)).card ↔
      (ts.map (·.label)).Nodup := by
  obtain ⟨fresh, hnames, hnodup, hfresh⟩ :=
    names_addAll ({ theorems := ts, labels := ls } : TheoremTable) entries
  have hgiven : givenNames (ts.map .info ++ ls.map .label ++ entries) =
      (ts.map (·.label) ++ fresh).toFinset := by
    ext label
    simp only [givenNames, givenTheorems_append, givenTheorems_map_info, givenTheorems_map_label,
      List.mem_toFinset, List.map_append, List.mem_append, names] at hfresh ⊢
    rw [hfresh]
    grind
  have hsize : (({ theorems := ts, labels := ls } : TheoremTable).addAll entries).size =
      (ts.map (·.label) ++ fresh).length := by
    have hlength := congrArg List.length hnames
    rw [names, List.length_map] at hlength
    exact hlength
  have hapart : (ts.map (·.label)).Disjoint fresh := by
    intro label hread hnew
    exact ((hfresh label).mp hnew).2 hread
  rw [hsize, hgiven, eq_comm]
  calc (ts.map (·.label) ++ fresh).toFinset.card = (ts.map (·.label) ++ fresh).length
      ↔ (ts.map (·.label) ++ fresh).Nodup := Multiset.toFinset_card_eq_card_iff_nodup
    _ ↔ (ts.map (·.label)).Nodup := by
        rw [List.nodup_append']
        exact and_iff_left ⟨hnodup, hapart⟩

/-- A table that was read and then got further entries, and one to which all these entries were
added, are the same finite map, with an index or without. The second always has as many theorems as
there are labels of theorems. The first has as many exactly if no label was read twice. -/
theorem read_built (ts : List TheoremInfo) (ls : List Text) (entries : List TableEntry) :
    let given := ts.map .info ++ ls.map .label ++ entries
    let listed : TheoremTable := { theorems := ts, labels := ls }
    let read := listed.addAll entries
    let built := ({} : TheoremTable).addAll given
    (read.database.IsMapOf given ∧ (listed.indexed.addAll entries).Mirrors read) ∧
      (built.database.IsMapOf given ∧ (({} : IndexedTable).addAll given).Mirrors built) ∧
      built.size = (givenNames given).card ∧
      (read.size = (givenNames given).card ↔ (ts.map (·.label)).Nodup) := by
  intro given listed read built
  have hempty : ({} : TheoremTable).database.IsMapOf [] := isMapOf_read [] []
  have hread : (listed.indexed.addAll entries).Mirrors read := by
    rw [← indexed_addAll]
    exact mirrors_indexed read
  have hbuilt : (({} : TheoremTable).indexed.addAll given).Mirrors built := by
    rw [← indexed_addAll]
    exact mirrors_indexed built
  exact ⟨⟨isMapOf_addAll (isMapOf_read ts ls) entries, hread⟩,
    ⟨isMapOf_addAll hempty given, hbuilt⟩,
    (size_addAll_iff [] [] given).mpr List.nodup_nil, size_addAll_iff ts ls entries⟩

/-- A document that lists a theorem twice. Both entries are counted. -/
theorem repeated_counts_twice :
    ∃ listed : TheoremTable,
      ofYaml? ("theorems:\n  - { label: a, conclusion: one }\n".toList ++
          "  - { label: a, conclusion: two }\n".toList) = some listed ∧
        listed.size = 2 ∧ (givenNames (listed.theorems.map .info)).card = 1 ∧
        (({} : TheoremTable).addAll (listed.theorems.map .info)).size = 1 := by
  refine ⟨{ theorems := [{ label := ['a'], conclusion := "one".toList },
    { label := ['a'], conclusion := "two".toList }] }, ?_, rfl, rfl, rfl⟩
  decide +kernel

end TheoremTable

end ProofSheet
