import ProofSheet.Proofs.Contents
import ProofSheet.Worksheet.Reading

set_option autoImplicit false

/-! # The parts of a statement

The parts of a statement are read from tokens, but only the texts of the tokens count. The fields
of a header are read if they have the forms that they should have (`readTheoremFields_eq_ok`,
`readLocAfterField_eq_ok`), and a generated proof if its words make one (`readProof_eq_ok`). The
variables of a `$d` statement are searched for one that comes again (`firstRepeat?_eq_none`), and
a formula is that of its words (`formulaOf_eq`).
-/

namespace ProofSheet

/-! ## The parts of a header -/

theorem takeField_eq_ok {α : Type} {opening : Token} {expected : Text}
    {accept : Text → Option α} {fields rest : List Token} {a : α} :
    takeField opening expected accept fields = .ok (a, rest) ↔
      ∃ t, fields = t :: rest ∧ accept t.text = some a := by
  cases fields with
  | nil => simp [takeField]
  | cons t fields =>
      rw [takeField]
      cases h : accept t.text with
      | none => simp [h]
      | some a' =>
          simp only [Except.ok.injEq, Prod.mk.injEq, List.cons.injEq]
          constructor
          · rintro ⟨rfl, rfl⟩
            exact ⟨t, ⟨rfl, rfl⟩, h⟩
          · rintro ⟨t', ⟨rfl, rfl⟩, h'⟩
            rw [h] at h'
            exact ⟨Option.some.inj h', rfl⟩

theorem fixedField?_eq_some {word field : Text} {u : Unit} :
    fixedField? word field = some u ↔ field = word := by
  unfold fixedField?
  split <;> simp_all

/-- The fields of a header up to the theorem. -/
theorem readTheoremFields_eq_ok {opening : Token} {fields rest : List Token} {label : Text} :
    readTheoremFields opening fields = .ok (label, rest) ↔
      ∃ mm pa th x, fields = mm :: pa :: th :: rest ∧ mm.text = Keyword.metamath ∧
        pa.text = Keyword.proofAssistant ∧ labelAfter? Keyword.theoremKey th.text = some x ∧
        givenLabel x = some label := by
  constructor
  · intro h
    obtain ⟨⟨_, fields₁⟩, h₁, k₁⟩ := bind_eq_ok h
    obtain ⟨⟨_, fields₂⟩, h₂, k₂⟩ := bind_eq_ok k₁
    obtain ⟨⟨x, fields₃⟩, h₃, k₃⟩ := bind_eq_ok k₂
    obtain ⟨mm, rfl, hmm⟩ := takeField_eq_ok.mp h₁
    obtain ⟨pa, rfl, hpa⟩ := takeField_eq_ok.mp h₂
    obtain ⟨th, rfl, hth⟩ := takeField_eq_ok.mp h₃
    cases hx : givenLabel x with
    | none => simp [hx] at k₃
    | some label' =>
        simp only [hx, Except.ok.injEq, Prod.mk.injEq] at k₃
        obtain ⟨rfl, rfl⟩ := k₃
        exact ⟨mm, pa, th, x, rfl, fixedField?_eq_some.mp hmm, fixedField?_eq_some.mp hpa, hth, hx⟩
  · rintro ⟨mm, pa, th, x, rfl, hmm, hpa, hth, hx⟩
    simp [readTheoremFields, takeField, fixedField?, hmm, hpa, hth, hx, bind, Except.bind]

/-- The last field of a header. -/
theorem readLocAfterField_eq_ok {opening field : Token} {fields : List Token}
    {locAfter : Option Text} :
    readLocAfterField opening fields = .ok (field, locAfter) ↔
      ∃ y, fields = [field] ∧ labelAfter? Keyword.locAfterKey field.text = some y ∧
        givenLabel y = locAfter := by
  constructor
  · intro h
    obtain ⟨⟨y, extra⟩, h₁, k₁⟩ := bind_eq_ok h
    obtain ⟨la, rfl, hla⟩ := takeField_eq_ok.mp h₁
    cases extra with
    | cons t extra => simp at k₁
    | nil =>
        simp only [List.headD_cons, Except.ok.injEq, Prod.mk.injEq] at k₁
        obtain ⟨rfl, rfl⟩ := k₁
        exact ⟨y, rfl, hla, rfl⟩
  · rintro ⟨y, rfl, hla, rfl⟩
    simp [readLocAfterField, takeField, hla, bind, Except.bind]

/-! ## The parts of a generated proof -/

/-- The proof that the words between `$=` and `$.` make. -/
def proofBodyOf? (words : List Text) : Option ProofBody :=
  match words with
  | [] => some (.normal [])
  | first :: rest =>
    if first ≠ Keyword.openLabels then some (.normal words)
    else
      match rest.dropWhile (· ≠ Keyword.closeLabels) with
      | [] => none
      | _ :: codes =>
        match Code.decode codes.flatten with
        | .ok codes =>
          some (.compressed { labels := rest.takeWhile (· ≠ Keyword.closeLabels), codes := codes })
        | .error _ => none

/-- The proof that the words after `$=` make; the only `$.` has to be the last of them. -/
def proofOf? (words : List Text) : Option ProofBody :=
  match words.dropWhile (· ≠ Keyword.proofEnd) with
  | [_] => proofBodyOf? (words.takeWhile (· ≠ Keyword.proofEnd))
  | _ => none

theorem readProofBody_eq_ok {opening : Token} {tokens : List Token} {body : ProofBody} :
    readProofBody opening tokens = .ok body ↔
      proofBodyOf? (tokens.map Token.text) = some body := by
  cases tokens with
  | nil => simp [readProofBody, proofBodyOf?]
  | cons first rest =>
      rw [readProofBody, List.map_cons, proofBodyOf?]
      by_cases hopen : first.text = Keyword.openLabels
      · rw [if_neg (by simpa using hopen), if_neg (by simpa using hopen), List.dropWhile_map,
          List.takeWhile_map]
        simp only [Function.comp_def]
        cases rest.dropWhile (fun t => decide (t.text ≠ Keyword.closeLabels)) with
        | nil => simp
        | cons close codes =>
            simp only [List.map_cons, List.flatMap_def]
            cases Code.decode (codes.map Token.text).flatten with
            | error e => simp
            | ok cs => simp
      · rw [if_pos hopen, if_pos hopen]
        simp

theorem readProof_eq_ok {opening : Token} {tokens : List Token} {body : ProofBody} :
    readProof opening tokens = .ok body ↔ proofOf? (tokens.map Token.text) = some body := by
  rw [readProof, proofOf?, List.dropWhile_map, List.takeWhile_map]
  simp only [Function.comp_def]
  cases tokens.dropWhile (fun t => decide (t.text ≠ Keyword.proofEnd)) with
  | nil => simp
  | cons stop rest =>
      cases rest with
      | nil => exact readProofBody_eq_ok
      | cons extra rest => simp

/-! ## Variables and formulas -/

theorem firstRepeat?_eq_none {seen : List Text} {ts : List Token} :
    firstRepeat? seen ts = none ↔
      (∀ t ∈ ts, t.text ∉ seen) ∧ (ts.map Token.text).Nodup := by
  induction ts generalizing seen with
  | nil => simp [firstRepeat?]
  | cons t ts ih =>
      rw [firstRepeat?]
      by_cases ht : t.text ∈ seen
      · rw [if_pos (List.contains_iff_mem.mpr ht)]
        simp [ht]
      · rw [if_neg fun h => ht (List.contains_iff_mem.mp h), ih]
        simp only [List.mem_cons, not_or, List.map_cons, List.nodup_cons, List.mem_map, not_exists,
          not_and, forall_eq_or_imp]
        constructor
        · rintro ⟨hseen, hnodup⟩
          exact ⟨⟨ht, fun u hu => (hseen u hu).2⟩, fun u hu => (hseen u hu).1, hnodup⟩
        · rintro ⟨⟨-, hseen⟩, hne, hnodup⟩
          exact ⟨fun u hu => ⟨hne u hu, hseen u hu⟩, hnodup⟩

/-- The formula that the words after a lead make. -/
def formulaOfWords (words : List Text) : Option Formula :=
  if words.isEmpty then none else some ⟨words⟩

theorem formulaOf_eq (body : List Token) :
    formulaOf body = formulaOfWords (body.map Token.text) := by
  cases body <;> simp [formulaOf, formulaOfWords]

end ProofSheet
