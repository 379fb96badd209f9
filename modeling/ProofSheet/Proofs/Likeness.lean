import ProofSheet.Proofs.Respelling
import ProofSheet.Worksheet.Reading

set_option autoImplicit false

/-! # Worksheets that are alike

Worksheets are alike if they agree in everything but their cursors, up to a respelling of the
texts (`Worksheet.Like`). Worksheets that are alike read blocks that are alike, and the outcomes
are alike again, whether the reading goes on or stops (`Worksheet.Like.readBlock`). So the cursor
has no part in what is read, and neither has the spelling of separators
(`Worksheet.Like.readText`).
-/

namespace ProofSheet

/-! ## Outcomes -/

/-- Two outcomes are alike: both are results, or both are errors, that are related. -/
inductive Outcomes {ε α : Type} (E : ε → ε → Prop) (A : α → α → Prop) :
    Except ε α → Except ε α → Prop where
  | ok {a a' : α} (h : A a a') : Outcomes E A (.ok a) (.ok a')
  | error {e e' : ε} (h : E e e') : Outcomes E A (.error e) (.error e')

namespace Outcomes

variable {ε α β : Type} {E : ε → ε → Prop} {A : α → α → Prop} {B : β → β → Prop}
  {x x' : Except ε α}

theorem cases (h : Outcomes E A x x') :
    (∃ e e', x = .error e ∧ x' = .error e' ∧ E e e') ∨
      ∃ a a', x = .ok a ∧ x' = .ok a' ∧ A a a' := by
  cases h with
  | ok h => exact Or.inr ⟨_, _, rfl, rfl, h⟩
  | error h => exact Or.inl ⟨_, _, rfl, rfl, h⟩

theorem bind {f f' : α → Except ε β} (h : Outcomes E A x x')
    (hf : ∀ a a', A a a' → Outcomes E B (f a) (f' a')) :
    Outcomes E B (x >>= f) (x' >>= f') := by
  cases h with
  | ok h => exact hf _ _ h
  | error h => exact .error h

end Outcomes

/-! ## Statements and worksheets -/

variable {R : Respelling}

theorem isEmpty_of_forall₂ {α β : Type} {P : α → β → Prop} {l : List α} {l' : List β}
    (h : List.Forall₂ P l l') : l'.isEmpty = l.isEmpty := by
  cases h with
  | nil => rfl
  | cons _ _ => rfl

namespace Content

/-- Changes the text of a comment, and leaves everything else as it is. -/
def mapComment (f : Text → Text) : Content → Content
  | comment t => comment (f t)
  | c => c

variable {f : Text → Text}

@[simp] theorem step?_mapComment (c : Content) : (c.mapComment f).step? = c.step? := by
  cases c <;> rfl

@[simp] theorem derivation?_mapComment (c : Content) :
    (c.mapComment f).derivation? = c.derivation? := by
  cases c <;> rfl

@[simp] theorem lead?_mapComment (c : Content) : (c.mapComment f).lead? = c.lead? := by
  cases c <;> rfl

theorem mapDerivation_mapComment (g : Derivation → Derivation) (c : Content) :
    (c.mapComment f).mapDerivation g = (c.mapDerivation g).mapComment f := by
  cases c <;> rfl

theorem mapStep_mapComment (g : Step → Step) (c : Content) :
    (c.mapComment f).mapStep g = (c.mapStep g).mapComment f := by
  cases c <;> rfl

/-- Only comments become comments, so a step is told from everything else as before. -/
theorem mapComment_inj_of_step {c d : Content} {t : Text} (hc : c.lead? = some t) :
    c.mapComment f = d.mapComment f ↔ c = d := by
  refine ⟨fun h => ?_, congrArg _⟩
  cases c with
  | hypothesis s => cases d <;> first | exact h | cases h
  | derivation s => cases d <;> first | exact h | cases h
  | _ => cases hc

end Content

/-- The statements say the same and stand in the same line. -/
structure Statement.Like (R : Respelling) (s s' : Statement) : Prop where
  id : s'.id = s.id
  content : s'.content = s.content.mapComment R.text
  lead : s'.lead = s.lead
  tail : s'.tail = R.text s.tail
  start : R.offset s.start s'.start
  position : s'.position = s.position

def Span.Like (R : Respelling) (p p' : Span) : Prop :=
  R.offset p.start p'.start ∧ R.offset p.stop p'.stop

structure Message.Like (R : Respelling) (m m' : Message) : Prop where
  code : m'.code = m.code
  text : m'.text = m.text
  span : Option.Rel (Span.Like R) m.span m'.span

structure Fault.Like (R : Respelling) (f f' : Fault) : Prop where
  cause : f'.cause = f.cause
  theoremLabel : f'.theoremLabel = f.theoremLabel
  step : f'.step = f.step
  position : f'.position = f.position
  span : Option.Rel (Span.Like R) f.span f'.span

/-- The worksheets are alike in everything but their cursors. -/
structure Worksheet.Like (R : Respelling) (ws ws' : Worksheet) : Prop where
  theoremLabel : ws'.theoremLabel = ws.theoremLabel
  locAfter : ws'.locAfter = ws.locAfter
  isNew : ws'.isNew = ws.isNew
  statements : List.Forall₂ (Statement.Like R) ws.statements ws'.statements
  greatestStep : ws'.greatestStep = ws.greatestStep
  hypothesisCount : ws'.hypothesisCount = ws.hypothesisCount
  qed : ws'.qed = ws.qed
  distinctVars : ws'.distinctVars = ws.distinctVars
  broken : ws'.broken = ws.broken
  messages : List.Forall₂ (Message.Like R) ws.messages ws'.messages
  selected : ws'.selected = ws.selected
  nextId : ws'.nextId = ws.nextId
  generation : ws'.generation = ws.generation

structure Stop.Like (R : Respelling) (x x' : Stop) : Prop where
  sheet : x.sheet.Like R x'.sheet
  fault : x.fault.Like R x'.fault

/-- The readings are alike. -/
abbrev ReadingLike (R : Respelling) : Reading → Reading → Prop :=
  Outcomes (Stop.Like R) (Worksheet.Like R)

theorem Token.Like.span {t t' : Token} (h : t.Like R t') :
    Option.Rel (Span.Like R) (some ⟨t.start, t.stop⟩) (some ⟨t'.start, t'.stop⟩) :=
  .some ⟨h.place.offset, h.stop⟩

/-! ## The parts of a statement -/

section Parts

variable {opening opening' : Token} {fields fields' : List Token}

/-- The tokens at fault are alike, and the causes are the same. -/
def FaultLike (R : Respelling) (e e' : Token × Cause) : Prop := e.1.Like R e'.1 ∧ e'.2 = e.2

theorem takeField_like {α : Type} (ho : opening.Like R opening')
    (hf : List.Forall₂ (Token.Like R) fields fields') (expected : Text)
    (accept : Text → Option α) :
    Outcomes (FaultLike R) (fun x x' => x.1 = x'.1 ∧ List.Forall₂ (Token.Like R) x.2 x'.2)
      (takeField opening expected accept fields) (takeField opening' expected accept fields') := by
  cases hf with
  | nil => exact .error ⟨ho, rfl⟩
  | @cons t t' rest rest' ht hrest =>
      rw [takeField, takeField, ht.text]
      cases accept t.text with
      | some a => exact .ok ⟨rfl, hrest⟩
      | none => exact .error ⟨ht, rfl⟩

theorem readTheoremFields_like (ho : opening.Like R opening')
    (hf : List.Forall₂ (Token.Like R) fields fields') :
    Outcomes (FaultLike R) (fun x x' => x.1 = x'.1 ∧ List.Forall₂ (Token.Like R) x.2 x'.2)
      (readTheoremFields opening fields) (readTheoremFields opening' fields') := by
  refine (takeField_like ho hf _ _).bind fun x x' hx => ?_
  refine (takeField_like ho hx.2 _ _).bind fun y y' hy => ?_
  refine (takeField_like ho hy.2 _ _).bind fun z z' hz => ?_
  obtain ⟨label, rest⟩ := z
  obtain ⟨_, rest'⟩ := z'
  obtain ⟨rfl, hrest⟩ := hz
  dsimp only
  cases givenLabel label with
  | some l => exact .ok ⟨rfl, hrest⟩
  | none => exact .error ⟨ho, rfl⟩

theorem readLocAfterField_like (ho : opening.Like R opening')
    (hf : List.Forall₂ (Token.Like R) fields fields') :
    Outcomes (FaultLike R) (fun x x' => x.1.Like R x'.1 ∧ x.2 = x'.2)
      (readLocAfterField opening fields) (readLocAfterField opening' fields') := by
  refine (takeField_like ho hf _ _).bind fun x x' hx => ?_
  obtain ⟨label, extra⟩ := x
  obtain ⟨label', extra'⟩ := x'
  obtain ⟨rfl, hextra⟩ := hx
  cases hextra with
  | nil =>
      refine .ok ⟨?_, rfl⟩
      cases hf with
      | nil => exact ho
      | cons ht _ => exact ht
  | cons ht _ =>
      refine .error ⟨ht, ?_⟩
      dsimp only
      rw [ht.text]

theorem readProofBody_like (ho : opening.Like R opening')
    (hf : List.Forall₂ (Token.Like R) fields fields') :
    Outcomes (FaultLike R) Eq (readProofBody opening fields)
      (readProofBody opening' fields') := by
  have htexts := Token.Like.texts hf
  cases hf with
  | nil => exact .ok rfl
  | @cons t t' rest rest' ht hrest =>
      rw [readProofBody, readProofBody, htexts, ht.text]
      split
      · exact .ok rfl
      have hlabels := Token.Like.texts (Token.Like.takeWhile hrest (· ≠ Keyword.closeLabels))
      have hclosed := Token.Like.dropWhile hrest (· ≠ Keyword.closeLabels)
      generalize rest.dropWhile (·.text ≠ Keyword.closeLabels) = closed at hclosed ⊢
      generalize rest'.dropWhile (·.text ≠ Keyword.closeLabels) = closed' at hclosed ⊢
      cases hclosed with
      | nil => exact .error ⟨ht, rfl⟩
      | @cons _ _ codes codes' _ hcodes =>
          have hcodetexts : codes'.flatMap Token.text = codes.flatMap Token.text := by
            rw [List.flatMap_def, List.flatMap_def, Token.Like.texts hcodes]
          dsimp only
          rw [hcodetexts]
          cases Code.decode (codes.flatMap Token.text) with
          | ok decoded =>
              refine .ok ?_
              rw [hlabels]
          | error e => exact .error ⟨ho, rfl⟩

theorem readProof_like (ho : opening.Like R opening')
    (hf : List.Forall₂ (Token.Like R) fields fields') :
    Outcomes (FaultLike R) Eq (readProof opening fields)
      (readProof opening' fields') := by
  have hbody := Token.Like.takeWhile hf (· ≠ Keyword.proofEnd)
  have hended := Token.Like.dropWhile hf (· ≠ Keyword.proofEnd)
  unfold readProof
  generalize fields.dropWhile (·.text ≠ Keyword.proofEnd) = ended at hended ⊢
  generalize fields'.dropWhile (·.text ≠ Keyword.proofEnd) = ended' at hended ⊢
  cases hended with
  | nil => exact .error ⟨ho, rfl⟩
  | cons _ hmore =>
      cases hmore with
      | nil => exact readProofBody_like ho hbody
      | cons hextra _ =>
          refine .error ⟨hextra, ?_⟩
          dsimp only
          rw [hextra.text]

theorem firstRepeat?_like (hf : List.Forall₂ (Token.Like R) fields fields') (seen : List Text) :
    Option.Rel (Token.Like R) (firstRepeat? seen fields) (firstRepeat? seen fields') := by
  induction hf generalizing seen with
  | nil => exact .none
  | cons ht _ ih =>
      rw [firstRepeat?, firstRepeat?, ht.text]
      split
      · exact .some ht
      · exact ih _

theorem formulaOf_like (hf : List.Forall₂ (Token.Like R) fields fields') :
    formulaOf fields' = formulaOf fields := by
  have htexts := Token.Like.texts hf
  cases hf with
  | nil => rfl
  | cons ht hrest =>
      rw [formulaOf, formulaOf, htexts]
      rfl

end Parts

namespace Worksheet.Like

variable {ws ws' : Worksheet} {b b' : Block} {t t' : Token} {db : Database} {st st' : Settings}
  {last : Bool}

/-! ## What decides about the next statement -/

theorem any (h : ws.Like R ws') {f : Statement → Bool}
    (hf : ∀ s s', s.Like R s' → f s' = f s) :
    ws'.statements.any f = ws.statements.any f := by
  have hmap := map_eq_of_forall₂ h.statements hf
  have hany := congrArg (List.any · id) hmap
  simpa only [List.any_map, Function.id_comp] using hany

theorem stepIds (h : ws.Like R ws') : ws'.stepIds = ws.stepIds := by
  have hmap : ws'.statements.map Statement.stepId? = ws.statements.map Statement.stepId? := by
    refine map_eq_of_forall₂ h.statements fun s s' hs => ?_
    rw [Statement.stepId?, Statement.stepId?, Statement.step?, Statement.step?, hs.content,
      Content.step?_mapComment]
  have hfilter := congrArg (List.filterMap id) hmap
  rwa [List.filterMap_map, List.filterMap_map] at hfilter

theorem any_header (h : ws.Like R ws') :
    ws'.statements.any Statement.isHeader = ws.statements.any Statement.isHeader := by
  refine h.any fun s s' hs => ?_
  rw [Statement.isHeader_eq, Statement.isHeader_eq, hs.content]
  cases s.content <;> rfl

theorem any_proof (h : ws.Like R ws') :
    ws'.statements.any Statement.isProof = ws.statements.any Statement.isProof := by
  refine h.any fun s s' hs => ?_
  rw [Statement.isProof_eq, Statement.isProof_eq, hs.content]
  cases s.content <;> rfl

theorem any_derivation (h : ws.Like R ws') :
    ws'.statements.any (·.derivation?.isSome) = ws.statements.any (·.derivation?.isSome) := by
  refine h.any fun s s' hs => ?_
  rw [Statement.derivation?, Statement.derivation?, hs.content, Content.derivation?_mapComment]

/-! ## Stopping, noting and appending -/

theorem stopAt (h : ws.Like R ws') (ht : t.Like R t') (cause : Cause) :
    (ws.stopAt t cause).Like R (ws'.stopAt t' cause) :=
  ⟨h, rfl, rfl, rfl, congrArg some ht.place.position, ht.span⟩

theorem stopAtStep (h : ws.Like R ws') (ht : t.Like R t') (step : Text) (cause : Cause) :
    (ws.stopAtStep t step cause).Like R (ws'.stopAtStep t' step cause) :=
  ⟨h, rfl, rfl, rfl, congrArg some ht.place.position, ht.span⟩

theorem note (h : ws.Like R ws') (ht : t.Like R t') (n : Note) :
    (ws.note t n).Like R (ws'.note t' n) := by
  have message : Message.Like R (n.toMessage ws.theoremLabel t.place.position ⟨t.start, t.stop⟩)
      (n.toMessage ws'.theoremLabel t'.place.position ⟨t'.start, t'.stop⟩) := by
    rw [h.theoremLabel, ht.place.position]
    exact ⟨rfl, rfl, ht.span⟩
  exact { h with messages := List.rel_append h.messages (.cons message .nil) }

theorem append (h : ws.Like R ws') (hb : b.Like R b') (last : Bool) (content : Content) :
    (ws.append b last content).Like R (ws'.append b' last (content.mapComment R.text)) := by
  have statement : Statement.Like R (b.toStatement ws.nextId content)
      (b'.toStatement ws'.nextId (content.mapComment R.text)) :=
    ⟨h.nextId, rfl, hb.head.text, hb.tail, hb.head.place.offset, hb.head.place.position⟩
  exact
    { h with
      statements := List.rel_append h.statements (.cons statement .nil)
      nextId := congrArg (· + 1) h.nextId }

/-! ## Statements -/

theorem stopAt_part (h : ws.Like R ws') {e e' : Token × Cause} (he : FaultLike R e e') :
    ReadingLike R (.error (ws.stopAt e.1 e.2)) (.error (ws'.stopAt e'.1 e'.2)) := by
  rw [he.2]
  exact .error (h.stopAt he.1 _)

theorem readHeader (h : ws.Like R ws') (hb : b.Like R b') :
    ReadingLike R (ws.readHeader db b last) (ws'.readHeader db b' last) := by
  unfold Worksheet.readHeader
  rw [h.any_header]
  split
  · exact .error (h.stopAt hb.head _)
  rcases (readTheoremFields_like hb.head hb.body).cases with
    ⟨e, e', he₁, he₂, he⟩ | ⟨⟨label, rest⟩, ⟨_, rest'⟩, hok, hok', rfl, hrest⟩
  · rw [he₁, he₂]
    exact h.stopAt_part he
  rw [hok, hok']
  dsimp only
  replace h : Worksheet.Like R { ws with theoremLabel := some label }
      { ws' with theoremLabel := some label } := { h with theoremLabel := rfl }
  rcases (readLocAfterField_like hb.head hrest).cases with
    ⟨e, e', he₁, he₂, he⟩ | ⟨⟨field, locAfter⟩, ⟨field', _⟩, hok, hok', hfield, rfl⟩
  · rw [he₁, he₂]
    exact h.stopAt_part he
  rw [hok, hok']
  dsimp only at hfield ⊢
  generalize (db.find? label).isNone = isNew
  replace h : Worksheet.Like R { ws with theoremLabel := some label, isNew := isNew }
      { ws' with theoremLabel := some label, isNew := isNew } := { h with isNew := rfl }
  cases locAfter with
  | none => exact .ok (h.append hb last _)
  | some after =>
      have placed : Worksheet.Like R
          { ws with theoremLabel := some label, isNew := isNew, locAfter := some after }
          { ws' with theoremLabel := some label, isNew := isNew, locAfter := some after } :=
        { h with locAfter := rfl }
      dsimp only
      split
      · exact .ok ((placed.note hfield _).append hb last _)
      split
      · exact .ok (placed.append hb last _)
      · exact .error (h.stopAt hfield _)

theorem readFooter (h : ws.Like R ws') (hb : b.Like R b') :
    ReadingLike R (ws.readFooter b last) (ws'.readFooter b' last) := by
  unfold Worksheet.readFooter
  have hbody := hb.body
  rw [h.qed]
  split
  · exact .error (h.stopAt hb.head _)
  generalize b.body = body at hbody ⊢
  generalize b'.body = body' at hbody ⊢
  cases hbody with
  | nil => exact .ok (h.append hb last _)
  | cons hextra _ => exact .error (h.stopAt hextra _)

/-- The text of a comment is respelled after its `*`. -/
theorem readComment (h : ws.Like R ws') (hb : b.Like R b') (hstar : b.head.text.head? = some '*') :
    ReadingLike R (ws.readComment b last) (ws'.readComment b' last) := by
  obtain ⟨rest, hhead⟩ := List.head?_eq_some_iff.mp hstar
  have hrest : R.text rest = rest := by
    refine R.text_solid fun c hc => hb.head.solid c ?_
    rw [hhead]
    exact List.mem_cons_of_mem _ hc
  have htext : trimEnd ((b'.head.text ++ b'.tail).drop 1) =
      R.text (trimEnd ((b.head.text ++ b.tail).drop 1)) := by
    rw [hb.head.text, hb.tail, hhead, ← R.trimEnd_text]
    show trimEnd (rest ++ R.text b.tail) = trimEnd (R.text (rest ++ b.tail))
    rw [R.text_append, hrest]
  rw [Worksheet.readComment, Worksheet.readComment, htext]
  exact .ok (h.append hb last _)

theorem readDistinctVars (h : ws.Like R ws') (hb : b.Like R b') :
    ReadingLike R (ws.readDistinctVars b last) (ws'.readDistinctVars b' last) := by
  have hlength : b'.body.length = b.body.length := hb.body.length_eq.symm
  have hwords : b'.words = b.words := Token.Like.texts hb.body
  have repeats := firstRepeat?_like hb.body []
  unfold Worksheet.readDistinctVars
  rw [hlength, hwords]
  split
  · exact .error (h.stopAt hb.head _)
  generalize firstRepeat? [] b.body = found at repeats ⊢
  generalize firstRepeat? [] b'.body = found' at repeats ⊢
  cases repeats with
  | none => exact .ok (h.append hb last _)
  | some ht =>
      dsimp only
      rw [ht.text]
      exact .error (h.stopAt ht _)

theorem readGeneratedProof (h : ws.Like R ws') (hb : b.Like R b') :
    ReadingLike R (ws.readGeneratedProof b last) (ws'.readGeneratedProof b' last) := by
  unfold Worksheet.readGeneratedProof
  rw [h.qed, h.any_proof]
  split
  · exact .error (h.stopAt hb.head _)
  split
  · exact .error (h.stopAt hb.head _)
  rcases (readProof_like hb.head hb.body).cases with
    ⟨e, e', he₁, he₂, he⟩ | ⟨body, _, hok, hok', rfl⟩
  · rw [he₁, he₂]
    exact h.stopAt_part he
  rw [hok, hok']
  exact .ok (h.append hb last _)

theorem admitStep (h : ws.Like R ws') (ht : t.Like R t') (field : Text) :
    Outcomes (Stop.Like R) (fun x x' => x.1 = x'.1 ∧ x.2.Like R x'.2) (ws.admitStep t field)
      (ws'.admitStep t' field) := by
  unfold Worksheet.admitStep
  rw [h.qed, h.stepIds]
  cases StepId.read field with
  | error cause => exact .error (h.stopAtStep ht _ _)
  | ok id =>
      dsimp only
      split
      · exact .error (h.stopAtStep ht _ _)
      split
      · exact .error (h.stopAtStep ht _ _)
      cases id with
      | qed => exact .ok ⟨rfl, h⟩
      | number n =>
          exact .ok
            ⟨rfl, { h with qed := rfl, greatestStep := congrArg (max · n) h.greatestStep }⟩

section Settings

variable (hst : st'.provableType = st.provableType)

include hst

theorem noteFormulaType (h : ws.Like R ws') {body body' : List Token}
    (hbody : List.Forall₂ (Token.Like R) body body') (step : Text) :
    (ws.noteFormulaType st step body).Like R (ws'.noteFormulaType st' step body') := by
  cases hbody with
  | nil => exact h
  | cons ht _ =>
      rw [Worksheet.noteFormulaType, Worksheet.noteFormulaType, ht.text, hst]
      split
      · exact h
      · exact h.note ht _

theorem readHypothesis (h : ws.Like R ws') (hb : b.Like R b') :
    ReadingLike R (ws.readHypothesis st b last) (ws'.readHypothesis st' b' last) := by
  unfold Worksheet.readHypothesis
  rw [hb.head.text, formulaOf_like hb.body]
  split
  · exact .error (h.stopAt hb.head _)
  split
  · exact .error (h.stopAtStep hb.head _ _)
  next f _ _ =>
  rcases (h.admitStep hb.head f.step).cases with
    ⟨e, e', he₁, he₂, he⟩ | ⟨⟨id, ws₁⟩, ⟨_, ws₁'⟩, hok, hok', rfl, h₁⟩
  · rw [he₁, he₂]
    exact .error he
  rw [hok, hok']
  dsimp only at h₁ ⊢
  rw [h₁.any_derivation]
  split
  · exact .error (h₁.stopAtStep hb.head _ _)
  split
  · exact .error (h₁.stopAtStep hb.head _ _)
  split
  · exact .error (h₁.stopAtStep hb.head _ _)
  have noted : Worksheet.Like R (ws₁.noteFormulaType st f.step b.body)
      (ws₁'.noteFormulaType st' f.step b'.body) := h₁.noteFormulaType hst hb.body f.step
  have counted {ws ws' : Worksheet} (h : ws.Like R ws') :
      Worksheet.Like R { ws with hypothesisCount := ws.hypothesisCount + 1 }
        { ws' with hypothesisCount := ws'.hypothesisCount + 1 } :=
    { h with hypothesisCount := congrArg (· + 1) h.hypothesisCount }
  rw [isEmpty_of_forall₂ hb.body]
  split
  · exact .ok ((counted (noted.note hb.head _)).append hb last _)
  · exact .ok ((counted noted).append hb last _)

theorem readDerivation (h : ws.Like R ws') (hb : b.Like R b') :
    ReadingLike R (ws.readDerivation st b last) (ws'.readDerivation st' b' last) := by
  unfold Worksheet.readDerivation
  rw [hb.head.text, formulaOf_like hb.body]
  split
  · exact .error (h.stopAt hb.head _)
  next f _ =>
  rcases (h.admitStep hb.head f.step).cases with
    ⟨e, e', he₁, he₂, he⟩ | ⟨⟨id, ws₁⟩, ⟨_, ws₁'⟩, hok, hok', rfl, h₁⟩
  · rw [he₁, he₂]
    exact .error he
  rw [hok, hok']
  dsimp only at h₁ ⊢
  rw [h₁.stepIds]
  split
  · exact .error (h₁.stopAtStep hb.head _ _)
  split
  · exact .error (h₁.stopAtStep hb.head _ _)
  have noted : Worksheet.Like R (ws₁.noteFormulaType st f.step b.body)
      (ws₁'.noteFormulaType st' f.step b'.body) := h₁.noteFormulaType hst hb.body f.step
  have added := noted.append hb last
  rw [h₁.nextId, h₁.qed]
  exact .ok { added _ with qed := rfl }

/-- Blocks that are alike are read alike. -/
theorem readBlock (db : Database) (h : ws.Like R ws') (hb : b.Like R b') (last : Bool) :
    ReadingLike R (ws.readBlock db st b last) (ws'.readBlock db st' b' last) := by
  unfold Worksheet.readBlock
  rw [hb.head.text]
  dsimp only
  split
  · exact h.readHeader hb
  split
  · exact h.readFooter hb
  split
  · exact h.readGeneratedProof hb
  split
  · exact h.readDistinctVars hb
  split
  · next hstar => exact h.readComment hb hstar
  split
  · exact h.readHypothesis hst hb
  split
  · exact h.readDerivation hst hb
  · exact .error (h.stopAt hb.head _)

theorem readBlocks (db : Database) (h : ws.Like R ws') {bs bs' : List Block}
    (hbs : List.Forall₂ (Block.Like R) bs bs') :
    ReadingLike R (ws.readBlocks db st bs) (ws'.readBlocks db st' bs') := by
  induction hbs generalizing ws ws' with
  | nil =>
      rw [Worksheet.readBlocks, Worksheet.readBlocks, h.qed]
      exact .error ⟨h, rfl, rfl, rfl, rfl, .none⟩
  | @cons b b' rest rest' hb hrest ih =>
      rw [Worksheet.readBlocks, Worksheet.readBlocks, isEmpty_of_forall₂ hrest, hb.head.text]
      rcases (h.readBlock hst db hb rest.isEmpty).cases with
        ⟨e, e', he₁, he₂, he⟩ | ⟨ws₁, ws₁', hok, hok', h₁⟩
      · rw [he₁, he₂]
        exact .error he
      rw [hok, hok']
      dsimp only
      split
      · cases hrest with
        | nil => exact .ok h₁
        | cons hextra _ => exact .error (h₁.stopAt hextra.head _)
      · exact ih h₁

/-- Texts with tokens that are alike are read alike, if the same type code is provable. -/
theorem readText (db : Database) (h : ws.Like R ws') {text text' : Text}
    (htokens : List.Forall₂ (Token.Like R) (tokens text) (tokens text')) :
    ReadingLike R (ws.readText db st text) (ws'.readText db st' text') := by
  unfold Worksheet.readText
  generalize tokens text = ts at htokens ⊢
  generalize tokens text' = ts' at htokens ⊢
  cases htokens with
  | nil => exact .error ⟨h, rfl, rfl, rfl, rfl, .none⟩
  | @cons first first' rest rest' hfirst hrest =>
      dsimp only
      rw [hfirst.startsStatement, hfirst.text]
      split
      · exact .error (h.stopAt hfirst _)
      split
      · exact .error (h.stopAt hfirst _)
      · exact h.readBlocks hst db (Block.Like.group (.cons hfirst hrest)).2

end Settings

end Worksheet.Like

end ProofSheet
