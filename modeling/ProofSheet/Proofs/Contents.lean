import ProofSheet.Worksheet.Basic

set_option autoImplicit false

/-! # Statements in their order

Most of what is true of a worksheet through all its edits is about what its statements say, in
order (`Worksheet.contents`), or about their ids (`Worksheet.ids`), and not about where they
stand in the text. This file has the two lists, and the list of both (`Worksheet.entries`), what
the operations of the worksheet do to them, and how a step that is found by its name splits the
list of statements (`Worksheet.SplitsAt`).
-/

namespace ProofSheet

/-- A computation that succeeds has succeeded step by step. -/
theorem bind_eq_ok {ε α β : Type} {x : Except ε α} {f : α → Except ε β} {b : β}
    (h : (x >>= f) = .ok b) : ∃ a, x = .ok a ∧ f a = .ok b := by
  cases x with
  | error e => cases h
  | ok a => exact ⟨a, rfl, h⟩

/-- A computation that fails has failed at some step. -/
theorem bind_eq_error {ε α β : Type} {x : Except ε α} {f : α → Except ε β} {e : ε}
    (h : (x >>= f) = .error e) : x = .error e ∨ ∃ a, x = .ok a ∧ f a = .error e := by
  cases x with
  | error e' =>
      cases h
      exact Or.inl rfl
  | ok a => exact Or.inr ⟨a, rfl, h⟩

theorem ok_bind {ε α β : Type} (a : α) (f : α → Except ε β) : (Except.ok a >>= f) = f a := rfl

theorem mapError_ok {ε ε' α : Type} (f : ε → ε') (a : α) :
    (Except.ok a : Except ε α).mapError f = .ok a := rfl

theorem mapError_error {ε ε' α : Type} (f : ε → ε') (e : ε) :
    (Except.error e : Except ε α).mapError f = .error (f e) := rfl

namespace Content

/-- The name of a proof step. -/
def stepId? (c : Content) : Option StepId := c.step?.map Step.id

/-- The content is a header. -/
def isHeader (c : Content) : Bool := c matches .header _

/-- The content is the footer. -/
def isFooter (c : Content) : Bool := c matches .footer

/-- The content is a hypothesis step. -/
def isHypothesis (c : Content) : Bool := c matches .hypothesis _

/-- The content is a generated proof. -/
def isProof (c : Content) : Bool := c matches .proof _

/-- The content is a derivation step. -/
def isDerivation (c : Content) : Bool := c matches .derivation _

/-- The content is a proof step. -/
def isStep (c : Content) : Bool := c.step?.isSome

theorem derivation?_eq_some {c : Content} {d : Derivation} :
    c.derivation? = some d ↔ c = .derivation d := by
  cases c <;> simp [derivation?]

theorem isSome_derivation? (c : Content) : c.derivation?.isSome = c.isDerivation := by
  cases c <;> rfl

theorem isSome_stepId? (c : Content) : c.stepId?.isSome = c.isStep := by
  cases c <;> rfl

theorem stepId?_of_not_step {c : Content} (h : c.step? = none) : c.stepId? = none := by
  rw [stepId?, h, Option.map_none]

theorem step?_of_isProof {c : Content} (h : c.isProof = true) : c.step? = none := by
  cases c with
  | proof body => rfl
  | _ => cases h

theorem derivation?_of_not_step {c : Content} (h : c.step? = none) : c.derivation? = none := by
  cases c with
  | derivation d => cases h
  | _ => rfl

@[simp] theorem stepId?_hypothesis (s : Step) : (hypothesis s).stepId? = some s.id := rfl

@[simp] theorem stepId?_derivation (d : Derivation) : (derivation d).stepId? = some d.id := rfl

end Content

/-- Every content meets a condition on the contents before it. -/
def EachAfter (P : List Content → Content → Prop) (cs : List Content) : Prop :=
  ∀ before c after, cs = before ++ c :: after → P before c

theorem eachAfter_cons {P : List Content → Content → Prop} {c : Content} {cs : List Content} :
    EachAfter P (c :: cs) ↔ P [] c ∧ EachAfter (fun before => P (c :: before)) cs := by
  constructor
  · intro h
    refine ⟨h [] c cs rfl, fun before x after hcs => h (c :: before) x after ?_⟩
    rw [hcs, List.cons_append]
  · rintro ⟨hfirst, hrest⟩ before x after hcs
    cases before with
    | nil =>
        cases hcs
        exact hfirst
    | cons c' before =>
        rw [List.cons_append, List.cons.injEq] at hcs
        obtain ⟨rfl, hcs⟩ := hcs
        exact hrest before x after hcs

/-- The mark for work variables is right. -/
def Derivation.NotesWorkVars (d : Derivation) : Prop :=
  d.hasWorkVars = d.formula.any Formula.hasWorkVars

namespace Statement

/-- The id of the statement and what it says. -/
def entry (s : Statement) : StatementId × Content := (s.id, s.content)

theorem stepId?_eq (s : Statement) : s.stepId? = s.content.stepId? := rfl

theorem isHeader_eq (s : Statement) : s.isHeader = s.content.isHeader := rfl

theorem isFooter_eq (s : Statement) : s.isFooter = s.content.isFooter := rfl

theorem isHypothesis_eq (s : Statement) : s.isHypothesis = s.content.isHypothesis := rfl

theorem isProof_eq (s : Statement) : s.isProof = s.content.isProof := rfl

theorem isStep_eq (s : Statement) : s.isStep = s.content.isStep := rfl

end Statement

/-! ## Where statements stand does not matter -/

/-- What does not depend on where a statement stands is not changed by laying statements out. -/
theorem map_respanFrom {α : Type} (f : Statement → α)
    (hf : ∀ (s : Statement) (o : Nat) (p : Position), f { s with start := o, position := p } = f s)
    (offset line : Nat) (ss : List Statement) :
    (respanFrom offset line ss).map f = ss.map f := by
  induction ss generalizing offset line with
  | nil => rfl
  | cons s rest ih => rw [respanFrom, List.map_cons, List.map_cons, ih, hf]

/-- A statement without the place where it stands. -/
def Statement.unplaced (s : Statement) : Statement := { s with start := 0, position := {} }

/-- Laying out statements depends on nothing but the statements without their places. -/
theorem respanFrom_congr {ss ts : List Statement}
    (h : ss.map Statement.unplaced = ts.map Statement.unplaced) (offset line : Nat) :
    respanFrom offset line ss = respanFrom offset line ts := by
  induction ss generalizing ts offset line with
  | nil =>
      cases ts with
      | nil => rfl
      | cons t ts => simp at h
  | cons s ss ih =>
      cases ts with
      | nil => simp at h
      | cons t ts =>
          rw [List.map_cons, List.map_cons, List.cons.injEq] at h
          obtain ⟨hst, hrest⟩ := h
          have htext : s.text = t.text := by
            show s.unplaced.text = t.unplaced.text
            rw [hst]
          have hplaced : ({ s with start := offset, position := ⟨line, 0⟩ } : Statement) =
              { t with start := offset, position := ⟨line, 0⟩ } := by
            show ({ s.unplaced with start := offset, position := ⟨line, 0⟩ } : Statement) =
              { t.unplaced with start := offset, position := ⟨line, 0⟩ }
            rw [hst]
          rw [respanFrom, respanFrom, hplaced, htext, ih hrest]

@[simp] theorem map_unplaced_respanFrom (offset line : Nat) (ss : List Statement) :
    (respanFrom offset line ss).map Statement.unplaced = ss.map Statement.unplaced :=
  map_respanFrom Statement.unplaced (fun _ _ _ => rfl) offset line ss

namespace Worksheet

/-- The ids of the statements and what they say, in order. -/
def entries (ws : Worksheet) : List (StatementId × Content) := ws.statements.map Statement.entry

/-- What the statements say, in order. -/
def contents (ws : Worksheet) : List Content := ws.statements.map Statement.content

/-- The ids of the statements, in order. -/
def ids (ws : Worksheet) : List StatementId := ws.statements.map Statement.id

theorem contents_eq (ws : Worksheet) : ws.contents = ws.entries.map Prod.snd := by
  rw [contents, entries, List.map_map]
  rfl

theorem ids_eq (ws : Worksheet) : ws.ids = ws.entries.map Prod.fst := by
  rw [ids, entries, List.map_map]
  rfl

/-- A statement among others, as the list of entries shows it. -/
theorem contents_of_entries {ws : Worksheet} {before after : List Statement} {id : StatementId}
    {c : Content}
    (h : ws.entries = before.map Statement.entry ++ (id, c) :: after.map Statement.entry) :
    ws.contents = before.map Statement.content ++ c :: after.map Statement.content := by
  rw [contents_eq, h, List.map_append, List.map_cons, List.map_map, List.map_map]
  rfl

theorem ids_of_entries {ws : Worksheet} {before after : List Statement} {id : StatementId}
    {c : Content}
    (h : ws.entries = before.map Statement.entry ++ (id, c) :: after.map Statement.entry) :
    ws.ids = before.map Statement.id ++ id :: after.map Statement.id := by
  rw [ids_eq, h, List.map_append, List.map_cons, List.map_map, List.map_map]
  rfl

theorem stepIds_eq (ws : Worksheet) : ws.stepIds = ws.contents.filterMap Content.stepId? := by
  rw [stepIds, contents, List.filterMap_map]
  rfl

/-- Statements are found by their contents wherever they stand. -/
theorem mem_contents {ws : Worksheet} {s : Statement} (h : s ∈ ws.statements) :
    s.content ∈ ws.contents := List.mem_map_of_mem h

@[simp] theorem entries_respan (ws : Worksheet) : ws.respan.entries = ws.entries :=
  map_respanFrom Statement.entry (fun _ _ _ => rfl) 0 0 ws.statements

@[simp] theorem contents_respan (ws : Worksheet) : ws.respan.contents = ws.contents :=
  map_respanFrom Statement.content (fun _ _ _ => rfl) 0 0 ws.statements

@[simp] theorem stepIds_respan (ws : Worksheet) : ws.respan.stepIds = ws.stepIds := by
  rw [stepIds_eq, stepIds_eq, contents_respan]

/-- Where ids are not repeated, a statement is found by its id. -/
theorem find?_of_nodup {ws : Worksheet} (nodup : ws.ids.Nodup) {s : Statement}
    (hs : s ∈ ws.statements) : ws.find? s.id = some s := by
  unfold ids at nodup
  unfold find?
  generalize ws.statements = ss at nodup hs ⊢
  induction ss with
  | nil => cases hs
  | cons t rest ih =>
      rw [List.map_cons, List.nodup_cons] at nodup
      rw [List.find?_cons]
      rcases List.mem_cons.mp hs with rfl | hmem
      · simp
      · have hne : t.id ≠ s.id := fun heq => nodup.1 (heq ▸ List.mem_map_of_mem hmem)
        rw [beq_eq_false_iff_ne.mpr hne]
        exact ih nodup.2 hmem

theorem filterMap_stepId?_respanFrom (offset line : Nat) (ss : List Statement) :
    (respanFrom offset line ss).filterMap Statement.stepId? =
      ss.filterMap Statement.stepId? := by
  have h := map_respanFrom Statement.stepId? (fun _ _ _ => rfl) offset line ss
  have h' := congrArg (List.filterMap id) h
  rwa [List.filterMap_map, List.filterMap_map] at h'

/-! ## Steps found by their names -/

/-- The first step with a name splits the statements. -/
structure SplitsAt (ws : Worksheet) (step : StepId) (before : List Statement) (s : Statement)
    (after : List Statement) : Prop where
  statements : ws.statements = before ++ s :: after
  found : s.stepId? = some step
  first : ∀ t ∈ before, t.stepId? ≠ some step

/-- An index that is found splits the list. -/
theorem split_of_findIdx? {α : Type} {p : α → Bool} {l : List α} {i : Nat}
    (h : l.findIdx? p = some i) :
    ∃ a x b, l = a ++ x :: b ∧ a.length = i ∧ p x = true ∧ ∀ y ∈ a, p y = false := by
  obtain ⟨hi, hp, hfirst⟩ := List.findIdx?_eq_some_iff_getElem.mp h
  refine ⟨l.take i, l[i], l.drop (i + 1), ?_, ?_, hp, ?_⟩
  · rw [List.getElem_cons_drop, List.take_append_drop]
  · rw [List.length_take]
    omega
  · intro y hy
    obtain ⟨j, hj, rfl⟩ := List.mem_take_iff_getElem.mp hy
    exact Bool.eq_false_iff.mpr (hfirst j (by omega))

/-- A step that is looked for and found splits the statements. -/
theorem split_of_stepIndex? {ws : Worksheet} {step : StepId} {i : Nat}
    (h : ws.stepIndex? step = some i) :
    ∃ before s after, ws.SplitsAt step before s after ∧ before.length = i := by
  obtain ⟨before, s, after, hss, hlen, hs, hfirst⟩ := split_of_findIdx? h
  refine ⟨before, s, after, ⟨hss, by simpa using hs, ?_⟩, hlen⟩
  intro t ht
  simpa using hfirst t ht

/-- Changing the statement at an index. -/
theorem modifyAt_split {ws : Worksheet} {before after : List Statement} {s : Statement}
    (h : ws.statements = before ++ s :: after) (f : Statement → Statement) :
    ws.modifyAt before.length f = { ws with statements := before ++ f s :: after } := by
  rw [modifyAt, h, List.modify_eq_take_cons_drop (by simp), List.take_append_length]
  congr 2
  rw [List.getElem_append_right (Nat.le_refl _)]
  simp [List.drop_append]

/-- Removing statements changes what mentions them and nothing else. -/
theorem remove_eq (ws : Worksheet) (ids : List StatementId) :
    ∃ kept cursor distinctVars selected generation,
      ws.remove ids =
        { ws with
          statements := kept
          cursor := cursor
          distinctVars := distinctVars
          selected := selected
          generation := generation } := by
  unfold remove
  split
  · exact ⟨_, _, _, _, _, rfl⟩
  · exact ⟨_, _, _, _, _, rfl⟩

/-- The statement that a content and a text make. Its lead reaches up to the first blank. -/
def newStatement (id : StatementId) (content : Content) (text : Text) : Statement :=
  { id := id
    content := content
    lead := text.takeWhile (!isBlank ·)
    tail := text.dropWhile (!isBlank ·) }

/-- Inserting a statement at an index. -/
theorem insert_split {ws : Worksheet} {before after : List Statement} {i : Nat}
    (h : ws.statements = before ++ after) (hi : before.length = i) (content : Content)
    (text : Text) :
    ws.insert i content text =
      respan
        { ws with
          statements := before ++ newStatement ws.nextId content text :: after
          nextId := ws.nextId + 1
          generation := ws.generation + 1 } := by
  rw [insert, h, List.take_left' hi, List.drop_left' hi]
  rfl

end Worksheet

end ProofSheet
