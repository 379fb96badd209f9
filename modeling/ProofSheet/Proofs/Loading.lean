import ProofSheet.Proofs.Blocks
import ProofSheet.Proofs.LocalRefs
import ProofSheet.Proofs.Reading
import ProofSheet.Worksheet.Load

set_option autoImplicit false

/-! # What a clean load has done

A text that is read without a fault begins with a header and ends with its only footer, and what
holds after the header, is kept by every statement, and is closed by the footer, holds of the
worksheet that was read (`Worksheet.readText_ok`). A worksheet that loads cleanly is one that was
read so, with its local references resolved and its levels measured (`Worksheet.load_clean`).
-/

namespace ProofSheet

/-- A statement with the lead of a footer is a footer. -/
theorem Says.isFooter_iff {db : Database} {lead tail : Text} {words : List Text} {c : Content}
    (h : Says db lead words tail c) : c.isFooter = true ↔ lead = Keyword.footer := by
  cases h with
  | footer => simp [Content.isFooter]
  | hypothesis hletter =>
      rcases hletter with rfl | rfl
      · simp [Content.isFooter, Keyword.footer]
      · simp [Content.isFooter, Keyword.footer]
  | derivation hlead =>
      have unlike : lead ≠ Keyword.footer := by
        rintro rfl
        exact absurd hlead.1 (by decide)
      simp [Content.isFooter, unlike]
  | _ => simp [Content.isFooter, Keyword.header, Keyword.footer, Keyword.distinctVars,
      Keyword.proof]

/-- A statement with the lead of a header is a header. -/
theorem Says.exists_header {db : Database} {tail : Text} {words : List Text} {c : Content}
    (h : Says db Keyword.header words tail c) : ∃ header, c = .header header := by
  generalize hlead : Keyword.header = lead at h
  cases h with
  | header => exact ⟨_, rfl⟩
  | hypothesis hletter =>
      rcases hletter with rfl | rfl
      · cases hlead
      · cases hlead
  | derivation hlead' =>
      subst hlead
      exact absurd hlead'.1 (by decide)
  | _ => cases hlead

namespace Worksheet

variable {db : Database} {st : Settings} {ws ws' : Worksheet}

/-- Reading ends with a footer that is the last block, and goes on after any other statement. -/
theorem readBlocks_cons_ok {b : Block} {rest : List Block}
    (h : ws.readBlocks db st (b :: rest) = .ok ws') :
    ∃ ws₁ c, ws.readBlock db st b rest.isEmpty = .ok ws₁ ∧
      Says db b.head.text b.words b.tail c ∧ ws.Adds b c ws₁ ∧
      ((c = .footer ∧ rest = [] ∧ ws' = ws₁) ∨
        (c.isFooter = false ∧ rest ≠ [] ∧ ws₁.readBlocks db st rest = .ok ws')) := by
  rw [readBlocks] at h
  cases hb : ws.readBlock db st b rest.isEmpty with
  | error stop => simp [hb] at h
  | ok ws₁ =>
      simp only [hb] at h
      obtain ⟨c, hsaid, hadds⟩ := readBlock_ok hb
      refine ⟨ws₁, c, rfl, hsaid, hadds, ?_⟩
      by_cases hfooter : b.head.text = Keyword.footer
      · rw [if_pos hfooter] at h
        have hc : c.isFooter = true := hsaid.isFooter_iff.mpr hfooter
        cases rest with
        | cons extra rest => cases h
        | nil =>
            refine Or.inl ⟨?_, rfl, (Except.ok.inj h).symm⟩
            cases c <;> first | rfl | cases hc
      · rw [if_neg hfooter] at h
        refine Or.inr ⟨?_, ?_, h⟩
        · exact Bool.eq_false_iff.mpr fun hc => hfooter (hsaid.isFooter_iff.mp hc)
        · rintro rfl
          cases h

/-- What every statement keeps and the footer closes holds after the statements have been read. -/
theorem readBlocks_ok {P Q : Worksheet → Prop} {bs : List Block}
    (h : ws.readBlocks db st bs = .ok ws') (start : P ws)
    (step : ∀ b ∈ bs.dropLast, ∀ c ws₁ ws₂, Says db b.head.text b.words b.tail c →
      ws₁.Adds b c ws₂ → c.isFooter = false → P ws₁ → P ws₂)
    (final : ∀ b ∈ bs, ∀ ws₁ ws₂, Says db b.head.text b.words b.tail .footer →
      ws₁.Adds b .footer ws₂ → P ws₁ → Q ws₂) : Q ws' := by
  induction bs generalizing ws with
  | nil => cases h
  | cons b rest ih =>
      obtain ⟨ws₁, c, -, hsaid, hadds, ⟨rfl, -, rfl⟩ | ⟨hc, hne, h'⟩⟩ := readBlocks_cons_ok h
      · exact final b List.mem_cons_self ws _ hsaid hadds start
      obtain ⟨next, rest, rfl⟩ := List.exists_cons_of_ne_nil hne
      refine ih h' ?_ ?_ ?_
      · exact step b (by simp) c ws ws₁ hsaid hadds hc start
      · intro b' hb'
        exact step b' (by rw [List.dropLast_cons_cons]; exact List.mem_cons_of_mem _ hb')
      · intro b' hb'
        exact final b' (List.mem_cons_of_mem _ hb')

/-- A text that is read begins with the opening of a header, in the first column. -/
theorem starts_of_readText {text : Text} (h : ws.readText db st text = .ok ws') :
    ∃ t ts, tokens text = t :: ts ∧ t.startsStatement = true ∧ t.text = Keyword.header := by
  unfold readText at h
  cases htokens : tokens text with
  | nil => simp [htokens] at h
  | cons t ts =>
      simp only [htokens] at h
      by_cases hstarts : t.startsStatement = true
      · rw [if_neg (by simp [hstarts])] at h
        by_cases hhead : t.text = Keyword.header
        · exact ⟨t, ts, rfl, hstarts, hhead⟩
        · rw [if_pos hhead] at h
          cases h
      · rw [if_pos (by simpa using hstarts)] at h
        cases h

/-- A text that is read is read block by block. -/
theorem readBlocks_of_readText {text : Text} (h : ws.readText db st text = .ok ws') :
    ws.readBlocks db st (blocksOf text) = .ok ws' := by
  obtain ⟨t, ts, htokens, hstarts, hhead⟩ := starts_of_readText h
  rw [readText, htokens] at h
  dsimp only at h
  rw [if_neg (by simp [hstarts]), if_neg (not_not.mpr hhead), ← htokens] at h
  exact h

/-- What holds after the header, is kept by every statement, and is closed by the footer holds of
a worksheet that has been read. -/
theorem readText_ok {P Q : Worksheet → Prop} {text : Text}
    (h : ws.readText db st text = .ok ws')
    (first : ∀ b ∈ (blocksOf text).dropLast, ∀ header ws₁,
      Says db b.head.text b.words b.tail (.header header) → ws.Adds b (.header header) ws₁ → P ws₁)
    (step : ∀ b ∈ (blocksOf text).dropLast, ∀ c ws₁ ws₂, Says db b.head.text b.words b.tail c →
      ws₁.Adds b c ws₂ → c.isFooter = false → P ws₁ → P ws₂)
    (final : ∀ b ∈ blocksOf text, ∀ ws₁ ws₂, Says db b.head.text b.words b.tail .footer →
      ws₁.Adds b .footer ws₂ → P ws₁ → Q ws₂) : Q ws' := by
  obtain ⟨t, ts, htokens, hstarts, hhead⟩ := starts_of_readText h
  replace h := readBlocks_of_readText h
  rw [blocksOf, htokens, Block.group_cons_start hstarts] at h first step final
  generalize hb : Block.mk t (Block.group ts).1 = b at h first step final
  generalize (Block.group ts).2 = rest at h first step final
  have hbhead : b.head.text = Keyword.header := by rw [← hb, ← hhead]
  obtain ⟨ws₁, c, -, hsaid, hadds, hnext⟩ := readBlocks_cons_ok h
  have hsaid' := hsaid
  rw [hbhead] at hsaid'
  obtain ⟨header, rfl⟩ := hsaid'.exists_header
  obtain ⟨hc, -⟩ | ⟨-, hne, h'⟩ := hnext
  · cases hc
  obtain ⟨next, rest, rfl⟩ := List.exists_cons_of_ne_nil hne
  rw [List.dropLast_cons_cons] at first step
  have start : P ws₁ := first b List.mem_cons_self header ws₁ hsaid hadds
  refine readBlocks_ok h' start ?_ ?_
  · exact fun b' hb' => step b' (List.mem_cons_of_mem _ hb')
  · exact fun b' hb' => final b' (List.mem_cons_of_mem _ hb')

/-- What is kept by every statement that is read holds of what has been read. -/
theorem keeps_readText {I : Worksheet → Prop} {text : Text} (h : ws.readText db st text = .ok ws')
    (start : I ws)
    (extend : ∀ b ∈ blocksOf text, ∀ c ws₁ ws₂,
      (c.isFooter = false → b ∈ (blocksOf text).dropLast) →
        Says db b.head.text b.words b.tail c → ws₁.Adds b c ws₂ → I ws₁ → I ws₂) : I ws' := by
  refine readText_ok (P := I) (Q := I) h ?_ ?_ ?_
  · intro b hb header ws₁ hsaid hadds
    exact extend b (List.dropLast_subset _ hb) _ ws ws₁ (fun _ => hb) hsaid hadds start
  · intro b hb c ws₁ ws₂ hsaid hadds _ h₁
    exact extend b (List.dropLast_subset _ hb) c ws₁ ws₂ (fun _ => hb) hsaid hadds h₁
  · intro b hb ws₁ ws₂ hsaid hadds h₁
    exact extend b hb _ ws₁ ws₂ (fun hc => (by cases hc)) hsaid hadds h₁

/-- Every statement that is read is a block of the text and says what the block says. -/
theorem said_of_readText {text : Text} (hnil : ws.statements = [])
    (h : ws.readText db st text = .ok ws') {s : Statement} (hs : s ∈ ws'.statements) :
    ∃ b ∈ blocksOf text, s.lead = b.head.text ∧ s.tail = b.tail ∧
      Says db b.head.text b.words b.tail s.content := by
  refine keeps_readText (I := fun ws => ∀ s ∈ ws.statements,
    ∃ b ∈ blocksOf text, s.lead = b.head.text ∧ s.tail = b.tail ∧
      Says db b.head.text b.words b.tail s.content) h ?_ ?_ s hs
  · intro t ht
    rw [hnil] at ht
    cases ht
  · intro b hb c ws₁ ws₂ _ hsaid hadds said t ht
    rw [hadds.2.statements, List.mem_append, List.mem_singleton] at ht
    rcases ht with ht | rfl
    · exact said t ht
    · exact ⟨b, hb, rfl, rfl, hsaid⟩

/-- What holds of the outcomes of two stages of loading holds of both, one after the other. -/
theorem reading_bind {P : Reading → Prop} {r : Reading} {f : Worksheet → Reading} (hr : P r)
    (hf : ∀ ws, r = .ok ws → P (.ok ws) → P (f ws)) : P (r >>= f) := by
  cases r with
  | error stop => exact hr
  | ok ws => exact hf ws rfl hr

theorem settle_eq (selecting : Bool) :
    ws.settle db st selecting =
      (if selecting then ws.selectStep else .ok ws) >>= fun ws =>
        ws.resolveLocalRefs >>= fun ws =>
          ws.checkQed >>= fun ws =>
            ws.indexDistinctVars.checkHypothesisCount db >>= fun ws =>
              .ok (ws.measureLevels.placeCursor st.caretPlacement) := by
  cases selecting <;> rfl

theorem selectStep_ok (h : ws.selectStep = .ok ws') :
    ∃ selected, ws' = { ws with selected := selected } := by
  unfold selectStep at h
  cases hs : ws.cursor.statement?.bind ws.find? with
  | none => simp [hs] at h
  | some s =>
      simp only [hs] at h
      by_cases hder : s.derivation?.isSome = true
      · rw [if_pos hder] at h
        exact ⟨some s.id, (Except.ok.inj h).symm⟩
      · rw [if_neg hder] at h
        cases h

/-- A step search that is asked for or not changes nothing but the selected step. -/
theorem selecting_ok {selecting : Bool}
    (h : (if selecting then ws.selectStep else .ok ws) = .ok ws') :
    ∃ selected, ws' = { ws with selected := selected } := by
  cases selecting with
  | true => exact selectStep_ok h
  | false => exact ⟨ws.selected, (Except.ok.inj h).symm⟩

theorem checkQed_eq_ok :
    ws.checkQed = .ok ws' ↔
      (ws.qed.isSome = true ∧ ws.steps.getLast?.map Statement.id = ws.qed) ∧ ws' = ws := by
  unfold checkQed
  by_cases hqed : ws.qed.isSome = true ∧ ws.steps.getLast?.map Statement.id = ws.qed
  · rw [if_pos hqed]
    simp [hqed, eq_comm]
  · rw [if_neg hqed]
    simp [hqed]

theorem checkHypothesisCount_eq_ok :
    ws.checkHypothesisCount db = .ok ws' ↔
      (∀ info, ws.theoremLabel.bind db.find? = some info →
        info.hypotheses.length = ws.hypothesisCount) ∧ ws' = ws := by
  unfold checkHypothesisCount
  cases hinfo : ws.theoremLabel.bind db.find? with
  | none => simp [eq_comm]
  | some info =>
      by_cases hcount : info.hypotheses.length = ws.hypothesisCount
      · simp [hcount, eq_comm]
      · simp [hcount]

theorem placeCursor_eq (placement : CaretPlacement) (ws : Worksheet) :
    ∃ c, ws.placeCursor placement = { ws with cursor := c } := by
  unfold placeCursor
  cases ws.placement? placement with
  | none => exact ⟨ws.cursor, rfl⟩
  | some target => exact ⟨_, rfl⟩

/-- A worksheet that loads cleanly has been read, its local references have been resolved, it ends
with `qed`, it has as many hypotheses as the theorem, and then its `$d` statements have been
indexed, its levels measured, and its cursor placed. -/
theorem load_settled {request : Request} {text : Text}
    (clean : (load db st request text).broken = false) :
    ∃ read selected ws,
      readText db st { cursor := { caret := request.caret } } text = .ok read ∧
        resolveLocalRefs { read with selected := selected } = .ok ws ∧
        (ws.qed.isSome = true ∧ ws.steps.getLast?.map Statement.id = ws.qed) ∧
        (∀ info, ws.theoremLabel.bind db.find? = some info →
          info.hypotheses.length = ws.hypothesisCount) ∧
        load db st request text =
          ws.indexDistinctVars.measureLevels.placeCursor st.caretPlacement := by
  unfold load at clean ⊢
  dsimp only at clean ⊢
  generalize ({ cursor := { caret := request.caret } } : Worksheet) = start at clean ⊢
  cases houtcome : (readText db st start text >>= fun ws => ws.settle db st request.selectStep) with
  | error stop =>
      rw [houtcome] at clean
      cases clean
  | ok final =>
      obtain ⟨read, hread, hsettle⟩ := bind_eq_ok houtcome
      rw [settle_eq] at hsettle
      obtain ⟨chosen, hselect, k₁⟩ := bind_eq_ok hsettle
      obtain ⟨resolved, hresolve, k₂⟩ := bind_eq_ok k₁
      obtain ⟨checked, hqed, k₃⟩ := bind_eq_ok k₂
      obtain ⟨counted, hcount, k₄⟩ := bind_eq_ok k₃
      obtain ⟨hqed, rfl⟩ := checkQed_eq_ok.mp hqed
      obtain ⟨same, rfl⟩ := checkHypothesisCount_eq_ok.mp hcount
      obtain ⟨selected, rfl⟩ := selecting_ok hselect
      exact ⟨read, selected, checked, hread, hresolve, hqed, same, (Except.ok.inj k₄).symm⟩

/-- Apart from the `$d` index and the cursor, a worksheet that loads cleanly is what was left by
resolving local references, with its levels measured. -/
theorem load_clean {request : Request} {text : Text}
    (clean : (load db st request text).broken = false) :
    ∃ read selected ws c ids,
      readText db st { cursor := { caret := request.caret } } text = .ok read ∧
        resolveLocalRefs { read with selected := selected } = .ok ws ∧
        (ws.qed.isSome = true ∧ ws.steps.getLast?.map Statement.id = ws.qed) ∧
        (∀ info, ws.theoremLabel.bind db.find? = some info →
          info.hypotheses.length = ws.hypothesisCount) ∧
        load db st request text = { ws.measureLevels with cursor := c, distinctVars := ids } := by
  obtain ⟨read, selected, ws, hread, hresolve, hqed, hcount, hload⟩ := load_settled clean
  obtain ⟨c, hcursor⟩ := placeCursor_eq st.caretPlacement ws.indexDistinctVars.measureLevels
  refine ⟨read, selected, ws, c, ws.indexDistinctVars.distinctVars, hread, hresolve, hqed, hcount,
    ?_⟩
  rw [hload, hcursor]
  rfl

end Worksheet

/-! ## A short worksheet -/

/-- A database that knows nothing. -/
def Database.empty : Database := { find? := fun _ => none }

/-- A worksheet with a hypothesis, a local reference, and a `qed` step that cites it. -/
def shortText : Text :=
  "$( <MM> <PROOF_ASST> THEOREM=t LOC_AFTER=?\nh1::t.1 |- p\n2:1:a |- q\n3::#2 |- q\nqed:3: |- r\n$)\n".toList

theorem shortText_loads : (Worksheet.load .empty {} {} shortText).broken = false := by
  decide +kernel

theorem shortText_blanks : ∀ x ∈ shortText, isBlank x = true → isSeparator x = true := by
  have hall : (shortText.filter isBlank).all isSeparator = true := by decide +kernel
  intro x hx hblank
  exact List.all_eq_true.mp hall x (List.mem_filter.mpr ⟨hx, hblank⟩)

end ProofSheet
