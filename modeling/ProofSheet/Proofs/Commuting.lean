import ProofSheet.Proofs.Calls
import ProofSheet.Proofs.Edits
import ProofSheet.Proofs.Loading
import Mathlib.Logic.Function.Conjugate

set_option autoImplicit false

/-! # Edits that commute

An edit that sets the label, the formula or the status of a step changes one part of that step
(`Edit.target?`) and lays the statements out anew if their texts may have changed
(`Worksheet.applyEdit_eq_ok`). The lead of a step has nothing of its formula, the tail nothing of
its label, and no text anything of its status. So what two edits of different parts make of a
statement does not depend on which comes first (`Edit.change_comm`), and laying the statements out
once in between makes no difference to where they end up. Edits of which no two set the same part
of the same step can therefore be applied in any order (`Worksheet.applyInOrder_perm`), and the
worksheets are equal in every field (`Worksheet.applyEdits_comm`).
-/

namespace ProofSheet

/-- A part of a step that can be set. -/
inductive StepPart where
  | ref
  | formula
  /-- The outcome of unification. -/
  | status
deriving DecidableEq, Repr, Inhabited

namespace StepPart

/-- The statement lacks the part. Only a derivation step has a status. -/
def lackedBy (s : Option Statement) : StepPart → Bool
  | .status => (s.bind Statement.derivation?).isNone
  | _ => false

/-- Lays the statements out anew after the part was set. A status is not in the text. -/
def lay (ss : List Statement) : StepPart → List Statement
  | .status => ss
  | _ => respanFrom 0 0 ss

end StepPart

namespace Edit

/-- The step of which an edit sets a part, and the part. -/
def target? : Edit → Option (StepId × StepPart)
  | setRef step _ => some (step, .ref)
  | setFormula step _ => some (step, .formula)
  | setStatus step _ _ _ => some (step, .status)
  | _ => none

/-- What an edit that sets a part of a step makes of the statement. -/
def change : Edit → Statement → Statement
  | setRef _ label => Statement.withRef label
  | setFormula _ formula => Statement.withFormula formula
  | setStatus _ unification distinctCheck proof =>
    Statement.withStatus unification distinctCheck proof
  | _ => id

/-- The edits set different parts, or parts of different steps. -/
def Independent (e₁ e₂ : Edit) : Prop :=
  ∃ t₁ t₂, e₁.target? = some t₁ ∧ e₂.target? = some t₂ ∧ t₁ ≠ t₂

theorem Independent.symm {e₁ e₂ : Edit} (h : e₁.Independent e₂) : e₂.Independent e₁ := by
  obtain ⟨t₁, t₂, h₁, h₂, hne⟩ := h
  exact ⟨t₂, t₁, h₂, h₁, hne.symm⟩

end Edit

namespace Statement

/-- By what an edit finds a step: its name, and whether it is a derivation step. -/
def face (s : Statement) : Option StepId × Bool := (s.stepId?, s.derivation?.isSome)

end Statement

variable {e e₁ e₂ : Edit} {step step₁ step₂ : StepId} {part part₁ part₂ : StepPart}

/-! ## What an edit makes of a statement -/

namespace Edit

theorem face_change (e : Edit) (s : Statement) : (e.change s).face = s.face := by
  obtain ⟨id, content, lead, tail, start, position⟩ := s
  cases e <;> cases content <;> rfl

/-- Edits make the same of a statement wherever it stands. -/
theorem unplaced_change (e : Edit) (s : Statement) :
    (e.change s).unplaced = (e.change s.unplaced).unplaced := by
  obtain ⟨id, content, lead, tail, start, position⟩ := s
  cases e <;> rfl

/-- A status changes neither the text nor the place of a statement. -/
theorem change_status (h : e.target? = some (step, .status)) (s : Statement) (offset : Nat)
    (position : Position) :
    (e.change s).text = s.text ∧
      e.change { s with start := offset, position := position } =
        { e.change s with start := offset, position := position } := by
  cases e with
  | setStatus => exact ⟨rfl, rfl⟩
  | _ => cases h

/-- Edits of different parts make the same of a statement in either order. -/
theorem change_comm (h₁ : e₁.target? = some (step₁, part₁)) (h₂ : e₂.target? = some (step₂, part₂))
    (hne : part₁ ≠ part₂) : Function.Commute e₁.change e₂.change := by
  rintro ⟨id, content, lead, tail, start, position⟩
  cases e₁ <;> cases h₁ <;> cases e₂ <;> cases h₂ <;>
    first
    | exact absurd rfl hne
    | (cases content <;> rfl)

end Edit

/-! ## What an edit makes of the statements -/

/-- An element can be changed before all are or after, by changes that amount to the same. -/
theorem map_modify {α β : Type} {f : α → β} {g : α → α} {h : β → β}
    (hf : Function.Semiconj f g h) (l : List α) (i : Nat) :
    (l.modify i g).map f = (l.map f).modify i h := by
  induction l generalizing i with
  | nil => rw [List.modify_nil, List.map_nil, List.modify_nil]
  | cons a l ih =>
      cases i with
      | zero => rw [List.modify_zero_cons, List.map_cons, List.map_cons, List.modify_zero_cons, hf a]
      | succ i =>
          rw [List.modify_succ_cons, List.map_cons, List.map_cons, List.modify_succ_cons, ih]

theorem map_face_modify (e : Edit) (i : Nat) (ss : List Statement) :
    (ss.modify i e.change).map Statement.face = ss.map Statement.face := by
  rw [map_modify (h := id) e.face_change, List.modify_id]

/-- A status can be set before or after the statements are laid out. -/
theorem modify_respanFrom (h : e.target? = some (step, .status)) (offset line i : Nat)
    (ss : List Statement) :
    (respanFrom offset line ss).modify i e.change =
      respanFrom offset line (ss.modify i e.change) := by
  induction ss generalizing offset line i with
  | nil => rw [respanFrom, List.modify_nil, respanFrom]
  | cons s rest ih =>
      obtain ⟨htext, hplaced⟩ := Edit.change_status h s offset ⟨line, 0⟩
      cases i with
      | zero =>
          rw [respanFrom, List.modify_zero_cons, List.modify_zero_cons, respanFrom, hplaced, htext]
      | succ i => rw [respanFrom, List.modify_succ_cons, List.modify_succ_cons, respanFrom, ih]

/-- It makes no difference to the layout after an edit that the statements were laid out before. -/
theorem respanFrom_modify_respanFrom (e : Edit) (i : Nat) (ss : List Statement) :
    respanFrom 0 0 ((respanFrom 0 0 ss).modify i e.change) =
      respanFrom 0 0 (ss.modify i e.change) := by
  refine respanFrom_congr ?_ 0 0
  have hchange : Function.Semiconj Statement.unplaced e.change
      (Statement.unplaced ∘ e.change) := e.unplaced_change
  rw [map_modify hchange, map_modify hchange, map_unplaced_respanFrom]

namespace StepPart

theorem map_face_lay (part : StepPart) (ss : List Statement) :
    (part.lay ss).map Statement.face = ss.map Statement.face := by
  cases part with
  | status => rfl
  | _ => exact map_respanFrom Statement.face (fun _ _ _ => rfl) 0 0 ss

/-- It does not matter for which part the statements are laid out first. -/
theorem lay_lay (part₁ part₂ : StepPart) (ss : List Statement) :
    part₂.lay (part₁.lay ss) = part₁.lay (part₂.lay ss) := by
  cases part₁ <;> cases part₂ <;> rfl

/-- The change that an edit makes can be made before the statements are laid out for another. -/
theorem lay_modify_lay (h : e.target? = some (step, part₂)) (part₁ : StepPart) (i : Nat)
    (ss : List Statement) :
    part₂.lay ((part₁.lay ss).modify i e.change) = part₂.lay (part₁.lay (ss.modify i e.change)) := by
  have laid_twice : respanFrom 0 0 (respanFrom 0 0 (ss.modify i e.change)) =
      respanFrom 0 0 (ss.modify i e.change) :=
    respanFrom_congr (map_unplaced_respanFrom 0 0 _) 0 0
  have relaid := (respanFrom_modify_respanFrom e i ss).trans laid_twice.symm
  cases part₁ with
  | status => rfl
  | ref | formula =>
      cases part₂ with
      | status => exact modify_respanFrom h 0 0 i ss
      | ref | formula => exact relaid

end StepPart

/-! ## What an edit makes of a worksheet -/

namespace Worksheet

variable {ws ws' ws₁ ws₂ : Worksheet} {st : Settings} {i : Nat}

/-- A worksheet after an edit that sets a part of the step at an index. -/
def setPart (ws : Worksheet) (part : StepPart) (e : Edit) (i : Nat) : Worksheet :=
  { ws with statements := part.lay (ws.statements.modify i e.change) }

theorem applyEdit_eq (h : e.target? = some (step, part)) (st : Settings) (ws : Worksheet) :
    ws.applyEdit st e =
      ws.requireStep step >>= fun i =>
        if part.lackedBy ws.statements[i]? then .error (.invalidEdit (.notDerivation step.text))
        else .ok (ws.setPart part e i) := by
  cases e <;> cases h <;> rfl

/-- An edit that sets a part of a step is granted if the step is there and has the part. -/
theorem applyEdit_eq_ok (h : e.target? = some (step, part)) :
    ws.applyEdit st e = .ok ws' ↔
      ∃ i, ws.stepIndex? step = some i ∧ part.lackedBy ws.statements[i]? = false ∧
        ws' = ws.setPart part e i := by
  rw [applyEdit_eq h, requireStep]
  cases ws.stepIndex? step with
  | none =>
      constructor
      · intro granted
        cases granted
      · rintro ⟨i, hi, -⟩
        cases hi
  | some i =>
      dsimp only
      rw [ok_bind]
      constructor
      · intro granted
        split at granted
        · cases granted
        · next hlacked =>
            exact ⟨i, rfl, Bool.eq_false_iff.mpr hlacked, (Except.ok.inj granted).symm⟩
      · rintro ⟨j, hj, hlacked, rfl⟩
        obtain rfl := Option.some.inj hj
        rw [hlacked]
        rfl

/-- Steps are found by their faces. -/
theorem stepIndex?_of_faces
    (h : ws'.statements.map Statement.face = ws.statements.map Statement.face) (step : StepId) :
    ws'.stepIndex? step = ws.stepIndex? step := by
  have by_faces : ∀ ws : Worksheet, ws.stepIndex? step =
      (ws.statements.map Statement.face).findIdx? (·.1 == some step) := by
    intro ws
    rw [List.findIdx?_map]
    rfl
  rw [by_faces, by_faces, h]

theorem lackedBy_of_faces
    (h : ws'.statements.map Statement.face = ws.statements.map Statement.face) (part : StepPart)
    (i : Nat) : part.lackedBy ws'.statements[i]? = part.lackedBy ws.statements[i]? := by
  have by_faces : ∀ s : Option Statement, part.lackedBy s =
      (part == .status && ((s.map Statement.face).all (!·.2))) := by
    intro s
    cases part <;> cases s <;> simp [StepPart.lackedBy, Statement.face]
  rw [by_faces, by_faces, ← List.getElem?_map, ← List.getElem?_map, h]

/-- An index has one name. -/
theorem stepIndex?_inj (h₁ : ws.stepIndex? step₁ = some i) (h₂ : ws.stepIndex? step₂ = some i) :
    step₁ = step₂ := by
  obtain ⟨before, s, after, split, hlen⟩ := split_of_stepIndex? h₁
  obtain ⟨before', s', after', split', hlen'⟩ := split_of_stepIndex? h₂
  have hss := split.statements.symm.trans split'.statements
  obtain ⟨-, hrest⟩ := List.append_inj hss (hlen.trans hlen'.symm)
  obtain ⟨rfl, -⟩ := List.cons.inj hrest
  exact Option.some.inj (split.found.symm.trans split'.found)

theorem map_face_setPart (ws : Worksheet) (part : StepPart) (e : Edit) (i : Nat) :
    (ws.setPart part e i).statements.map Statement.face = ws.statements.map Statement.face :=
  (part.map_face_lay _).trans (map_face_modify e i ws.statements)

/-- Parts that are set one after the other can be set in the other order. -/
theorem setPart_comm {j : Nat} (h₁ : e₁.target? = some (step₁, part₁))
    (h₂ : e₂.target? = some (step₂, part₂)) (apart : i = j → part₁ ≠ part₂) :
    (ws.setPart part₁ e₁ i).setPart part₂ e₂ j = (ws.setPart part₂ e₂ j).setPart part₁ e₁ i := by
  have modified : (ws.statements.modify i e₁.change).modify j e₂.change =
      (ws.statements.modify j e₂.change).modify i e₁.change := by
    by_cases hij : i = j
    · have hchange := Edit.change_comm h₁ h₂ (apart hij)
      rw [hij, List.modify_modify_eq, List.modify_modify_eq, hchange.comp_eq]
    · exact List.modify_modify_ne _ _ _ hij
  unfold setPart
  congr 1
  dsimp only
  rw [StepPart.lay_modify_lay h₂, StepPart.lay_modify_lay h₁, StepPart.lay_lay, modified]

/-- Two independent edits that are granted one after the other are granted in the other order too,
and come to the same worksheet. -/
theorem applyEdit_swap (independent : e₁.Independent e₂) (h₁ : ws.applyEdit st e₁ = .ok ws₁)
    (h₂ : ws₁.applyEdit st e₂ = .ok ws₂) :
    ∃ ws₁', ws.applyEdit st e₂ = .ok ws₁' ∧ ws₁'.applyEdit st e₁ = .ok ws₂ := by
  obtain ⟨⟨step₁, part₁⟩, ⟨step₂, part₂⟩, ht₁, ht₂, hne⟩ := independent
  obtain ⟨i, hi, hhas₁, rfl⟩ := (applyEdit_eq_ok ht₁).mp h₁
  obtain ⟨j, hj, hhas₂, rfl⟩ := (applyEdit_eq_ok ht₂).mp h₂
  -- neither edit changes how a step is found
  have faces₁ := map_face_setPart ws part₁ e₁ i
  have faces₂ := map_face_setPart ws part₂ e₂ j
  rw [stepIndex?_of_faces faces₁] at hj
  rw [lackedBy_of_faces faces₁] at hhas₂
  refine ⟨_, (applyEdit_eq_ok ht₂).mpr ⟨j, hj, hhas₂, rfl⟩,
    (applyEdit_eq_ok ht₁).mpr ⟨i, ?_, ?_, ?_⟩⟩
  · rw [stepIndex?_of_faces faces₂, hi]
  · rw [lackedBy_of_faces faces₂, hhas₁]
  · refine setPart_comm ht₁ ht₂ fun hij hpart => hne ?_
    rw [stepIndex?_inj hi (hij ▸ hj), hpart]

/-! ## Edits in any order -/

/-- Edits that are granted can be applied in any order, if every two of them are independent. -/
theorem applyInOrder_perm {edits edits' : List Edit} (perm : edits.Perm edits')
    (independent : edits.Pairwise Edit.Independent)
    (granted : ws.applyInOrder st edits = (ws', none)) :
    ws.applyInOrder st edits' = (ws', none) := by
  induction perm generalizing ws with
  | nil => exact granted
  | @cons e rest rest' _ ih =>
      rw [applyInOrder] at granted ⊢
      cases happ : ws.applyEdit st e with
      | error r => simp [happ] at granted
      | ok ws₁ =>
          simp only [happ] at granted ⊢
          exact ih independent.of_cons granted
  | swap e₂ e₁ rest =>
      have apart : e₁.Independent e₂ := List.rel_of_pairwise_cons independent List.mem_cons_self
      rw [applyInOrder] at granted
      cases h₁ : ws.applyEdit st e₁ with
      | error r => simp [h₁] at granted
      | ok ws₁ =>
          simp only [h₁] at granted
          rw [applyInOrder] at granted
          cases h₂ : ws₁.applyEdit st e₂ with
          | error r => simp [h₂] at granted
          | ok ws₂ =>
              simp only [h₂] at granted
              obtain ⟨ws₁', h₂', h₁'⟩ := applyEdit_swap apart h₁ h₂
              simp only [applyInOrder, h₂', h₁']
              exact granted
  | trans first _ ih₁ ih₂ =>
      have independent' := (first.pairwise_iff Edit.Independent.symm).mp independent
      exact ih₂ independent' (ih₁ independent granted)

/-- Two edits that set different parts, or parts of different steps, come to the same worksheet in
either order, if they are granted in one of them. -/
theorem applyEdits_comm (independent : e₁.Independent e₂)
    (granted : (ws.applyEdits st [e₁, e₂]).2 = none) :
    ws.applyEdits st [e₂, e₁] = ws.applyEdits st [e₁, e₂] := by
  have pairwise : [e₁, e₂].Pairwise Edit.Independent := by simpa using independent
  unfold applyEdits at granted ⊢
  cases hbroken : ws.broken with
  | true => simp [hbroken] at granted
  | false =>
      simp only [hbroken, Bool.false_eq_true, if_false] at granted ⊢
      cases happ : ws.applyInOrder st [e₁, e₂] with
      | mk ws' refusal =>
          cases refusal with
          | some r => simp [happ] at granted
          | none => rw [applyInOrder_perm (List.Perm.swap e₂ e₁ []) pairwise happ]

/-- Both edits rewrite the text of one step, and the label has a blank and a line feed in it. -/
theorem applyEdits_comm_shortText :
    let ws := (load .empty {} {} shortText).afterCalls [.renumber 10]
    let e₁ : Edit := .setRef (.number 10) "new\nlabel x".toList
    let e₂ : Edit := .setFormula (.number 10) ⟨["|-".toList, "p\nq".toList]⟩
    e₁.Independent e₂ ∧ (ws.applyEdits {} [e₁, e₂]).2 = none ∧
      ws.applyEdits {} [e₂, e₁] = ws.applyEdits {} [e₁, e₂] := by
  intro ws e₁ e₂
  have independent : e₁.Independent e₂ := ⟨_, _, rfl, rfl, by decide⟩
  have granted : (ws.applyEdits {} [e₁, e₂]).2 = none := by decide +kernel
  exact ⟨independent, granted, applyEdits_comm independent granted⟩

end Worksheet

end ProofSheet
