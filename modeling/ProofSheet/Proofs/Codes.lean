import ProofSheet.Compressed.Proof
import Mathlib.Data.List.TakeWhile

set_option autoImplicit false

/-! # Codes have one spelling

The text of a code is a run of high digits and one final letter (`Code.text_eq`), and a run of high
digits tells the number that it counts (`Code.highDigits_injective`). So a text of codes is taken
apart in one way only (`Code.textOf_eq_iff`), and reading it is the inverse of writing it: a list of
codes is read from a text exactly if it can be written and the text, apart from its blanks, is what
is written for it (`CompressedProof.decode_eq_ok_iff`).
-/

namespace ProofSheet

namespace Code

/-! ## Lists of codes that can be written -/

/-- The code is a number. -/
def isIndex : Code → Bool
  | index _ => true
  | _ => false

/-- Every number is below the limit, and every save directly follows a number. -/
structure Valid (cs : List Code) : Prop where
  inRange : ∀ i, .index i ∈ cs → i < indexLimit
  saves : ∀ before after, cs = before ++ .save :: after → ∃ i, before.getLast? = some (.index i)

/-- The codes can be written after other ones, of which the last is a number iff `saveable`. -/
def ValidFrom (saveable : Bool) : List Code → Prop
  | [] => True
  | .index i :: rest => i < indexLimit ∧ ValidFrom true rest
  | .save :: rest => saveable = true ∧ ValidFrom false rest
  | .unknown :: rest => ValidFrom false rest

/-- Whether a save may come depends on the code in front of it alone. -/
theorem validFrom_iff {saveable : Bool} {cs : List Code} :
    ValidFrom saveable cs ↔
      (∀ i, .index i ∈ cs → i < indexLimit) ∧
        ∀ before after, cs = before ++ .save :: after →
          (before.getLast?.map isIndex).getD saveable = true := by
  induction cs generalizing saveable with
  | nil => simp [ValidFrom]
  | cons c cs ih =>
      -- a save further on has the code `c` in front of it, or what is in front of it after `c`
      have split : (∀ before after, c :: cs = before ++ .save :: after →
            (before.getLast?.map isIndex).getD saveable = true) ↔
          (c = .save → saveable = true) ∧
            ∀ before after, cs = before ++ .save :: after →
              (before.getLast?.map isIndex).getD c.isIndex = true := by
        constructor
        · intro h
          refine ⟨fun hc => h [] cs (by rw [hc]; rfl), fun before after hcs => ?_⟩
          have := h (c :: before) after (by rw [hcs]; rfl)
          rw [List.getLast?_cons] at this
          cases hlast : before.getLast? with
          | none => simpa [hlast] using this
          | some last => simpa [hlast] using this
        · rintro ⟨hfirst, hrest⟩ before after hcs
          cases before with
          | nil => exact hfirst (List.cons.inj hcs).1
          | cons b before =>
              obtain ⟨rfl, hcs'⟩ := List.cons.inj hcs
              have := hrest before after hcs'
              rw [List.getLast?_cons]
              cases hlast : before.getLast? with
              | none => simpa [hlast] using this
              | some last => simpa [hlast] using this
      cases c with
      | index i =>
          rw [ValidFrom, ih, split]
          simp only [List.mem_cons, index.injEq, reduceCtorEq, false_implies, true_and, isIndex]
          constructor
          · rintro ⟨hi, hrange, hsaves⟩
            refine ⟨?_, hsaves⟩
            rintro j (rfl | hj)
            · exact hi
            · exact hrange j hj
          · rintro ⟨hrange, hsaves⟩
            exact ⟨hrange i (Or.inl rfl), fun j hj => hrange j (Or.inr hj), hsaves⟩
      | save =>
          rw [ValidFrom, ih, split]
          simp only [List.mem_cons, reduceCtorEq, false_or, true_implies, isIndex]
          exact and_left_comm
      | unknown =>
          rw [ValidFrom, ih, split]
          simp only [List.mem_cons, reduceCtorEq, false_or, false_implies, true_and, isIndex]

/-- At the front of a code section no save may come. -/
theorem valid_iff {cs : List Code} : Valid cs ↔ ValidFrom false cs := by
  have number_of_isIndex : ∀ last : Option Code,
      (last.map isIndex).getD false = true ↔ ∃ i, last = some (.index i) := by
    intro last
    cases last with
    | none => simp
    | some c => cases c <;> simp [isIndex]
  rw [validFrom_iff]
  constructor
  · intro h
    exact ⟨h.inRange, fun before after hcs => (number_of_isIndex _).mpr (h.saves before after hcs)⟩
  · rintro ⟨hrange, hsaves⟩
    exact ⟨hrange, fun before after hcs => (number_of_isIndex _).mp (hsaves before after hcs)⟩

/-! ## Digits -/

/-- The character is a high digit. -/
def isHigh (c : Char) : Bool := (highValue? c).isSome

theorem lowValue?_lowDigit : ∀ d < lowBase, lowValue? (lowDigit d) = some d := by
  decide

theorem highValue?_highDigit : ∀ d < highBase, highValue? (highDigit d) = some (d + 1) := by
  decide

theorem isHigh_lowDigit : ∀ d < lowBase, isHigh (lowDigit d) = false := by
  decide

/-- A character that has the value of a low digit is that digit. -/
theorem eq_lowDigit {c : Char} {d : Nat} (h : lowValue? c = some d) :
    d < lowBase ∧ c = lowDigit d := by
  unfold lowValue? at h
  split at h
  · rename_i hc
    have hlow : 65 ≤ c.toNat := hc.1
    have hhigh : c.toNat ≤ 84 := hc.2
    have hd : d = c.toNat - 65 := (Option.some.inj h).symm
    refine ⟨?_, ?_⟩
    · show d < 20
      omega
    · have hnat : 65 + d = c.toNat := by omega
      show c = Char.ofNat (65 + d)
      rw [hnat, Char.ofNat_toNat]
  · cases h

/-- A character that counts as a high digit is that digit. -/
theorem eq_highDigit {c : Char} {k : Nat} (h : highValue? c = some k) :
    ∃ d < highBase, k = d + 1 ∧ c = highDigit d := by
  unfold highValue? at h
  split at h
  · rename_i hc
    have hlow : 85 ≤ c.toNat := hc.1
    have hhigh : c.toNat ≤ 89 := hc.2
    have hk : k = c.toNat - 85 + 1 := (Option.some.inj h).symm
    refine ⟨c.toNat - 85, ?_, hk, ?_⟩
    · show c.toNat - 85 < 5
      omega
    · have hnat : 85 + (c.toNat - 85) = c.toNat := by omega
      show c = Char.ofNat (85 + (c.toNat - 85))
      rw [hnat, Char.ofNat_toNat]
  · cases h

/-- A number is taken apart into its last digit and what is in front of it. -/
theorem div_mod_digit {base v d : Nat} (hd : d < base) :
    (v * base + d) / base = v ∧ (v * base + d) % base = d := by
  have hpos : 0 < base := Nat.zero_lt_of_lt hd
  rw [Nat.mul_comm]
  refine ⟨?_, ?_⟩
  · rw [Nat.mul_add_div hpos, Nat.div_eq_of_lt hd, Nat.add_zero]
  · rw [Nat.mul_add_mod, Nat.mod_eq_of_lt hd]

/-- A further high digit multiplies what the digits before it count. -/
theorem highDigits_step (v : Nat) {d : Nat} (hd : d < highBase) :
    highDigits (v * highBase + (d + 1)) = highDigits v ++ [highDigit d] := by
  obtain ⟨hdiv, hmod⟩ := div_mod_digit (v := v) hd
  rw [← Nat.add_assoc, highDigits, hdiv, hmod]

theorem highDigits_zero : highDigits 0 = [] := by rw [highDigits]

theorem isHigh_of_mem_highDigits {n : Nat} {c : Char} (hc : c ∈ highDigits n) :
    isHigh c = true := by
  induction n using highDigits.induct with
  | case1 =>
      rw [highDigits] at hc
      cases hc
  | case2 n ih =>
      rw [highDigits, List.mem_append, List.mem_singleton] at hc
      rcases hc with hc | rfl
      · exact ih hc
      · rw [isHigh, highValue?_highDigit _ (Nat.mod_lt n (by decide))]
        rfl

/-- High digits tell what they count. -/
theorem highDigits_injective {m n : Nat} (h : highDigits m = highDigits n) : m = n := by
  induction m using highDigits.induct generalizing n with
  | case1 =>
      cases n with
      | zero => rfl
      | succ n =>
          rw [highDigits, highDigits] at h
          exact absurd h.symm (by simp)
  | case2 m ih =>
      cases n with
      | zero =>
          rw [highDigits, highDigits] at h
          exact absurd h (by simp)
      | succ n =>
          rw [highDigits, highDigits] at h
          obtain ⟨hfront, hlast⟩ := List.append_inj' h rfl
          have hdiv : m / highBase = n / highBase := ih hfront
          have hmod : m % highBase = n % highBase := by
            have hvalue := congrArg highValue? (List.cons.inj hlast).1
            rw [highValue?_highDigit _ (Nat.mod_lt m (by decide)),
              highValue?_highDigit _ (Nat.mod_lt n (by decide))] at hvalue
            simpa using hvalue
          have hm := Nat.div_add_mod m highBase
          have hn := Nat.div_add_mod n highBase
          rw [hdiv, hmod] at hm
          omega

/-! ## The letters of a code -/

/-- What the high digits of a code count. -/
def high : Code → Nat
  | index i => i / lowBase
  | _ => 0

/-- The letter with which a code ends. -/
def final : Code → Char
  | index i => lowDigit (i % lowBase)
  | save => 'Z'
  | unknown => '?'

/-- A code is written as high digits and one final letter. -/
theorem text_eq (c : Code) : c.text = highDigits c.high ++ [c.final] := by
  cases c with
  | index i => rfl
  | save => simp [text, high, final, highDigits]
  | unknown => simp [text, high, final, highDigits]

theorem isHigh_final (c : Code) : isHigh c.final = false := by
  cases c with
  | index i => exact isHigh_lowDigit _ (Nat.mod_lt i (by decide))
  | save => decide
  | unknown => decide

theorem textOf_cons (c : Code) (cs : List Code) :
    textOf (c :: cs) = highDigits c.high ++ c.final :: textOf cs := by
  rw [textOf, List.flatMap_cons, text_eq, List.append_assoc]
  rfl

/-- High digits and the letter after them are found in a text in one way only. -/
theorem highDigits_append_inj {m n : Nat} {a b : Char} {s t : Text} (ha : isHigh a = false)
    (hb : isHigh b = false) (h : highDigits m ++ a :: s = highDigits n ++ b :: t) :
    m = n ∧ a = b ∧ s = t := by
  have span : ∀ (k : Nat) (c : Char) (u : Text), isHigh c = false →
      (highDigits k ++ c :: u).takeWhile isHigh = highDigits k ∧
        (highDigits k ++ c :: u).dropWhile isHigh = c :: u := by
    intro k c u hc
    have hc' : ¬ isHigh c = true := Bool.eq_false_iff.mp hc
    rw [List.takeWhile_append_of_pos fun x hx => isHigh_of_mem_highDigits hx,
      List.dropWhile_append_of_pos fun x hx => isHigh_of_mem_highDigits hx,
      List.takeWhile_cons_of_neg hc', List.dropWhile_cons_of_neg hc', List.append_nil]
    exact ⟨rfl, rfl⟩
  obtain ⟨htake, hdrop⟩ := span m a s ha
  rw [h] at htake hdrop
  obtain ⟨htake', hdrop'⟩ := span n b t hb
  have hdigits : highDigits m = highDigits n := htake.symm.trans htake'
  have hrest : a :: s = b :: t := hdrop.symm.trans hdrop'
  obtain ⟨hab, hst⟩ := List.cons.inj hrest
  exact ⟨highDigits_injective hdigits, hab, hst⟩

/-- A text that begins with high digits and another letter is that of codes in one way only. -/
theorem textOf_eq_iff {cs : List Code} {v : Nat} {x : Char} {t : Text} (hx : isHigh x = false) :
    textOf cs = highDigits v ++ x :: t ↔
      ∃ c cs', cs = c :: cs' ∧ c.high = v ∧ c.final = x ∧ textOf cs' = t := by
  cases cs with
  | nil => simp [textOf]
  | cons c cs =>
      rw [textOf_cons]
      constructor
      · intro h
        obtain ⟨hhigh, hfinal, hrest⟩ := highDigits_append_inj c.isHigh_final hx h
        exact ⟨c, cs, rfl, hhigh, hfinal, hrest⟩
      · rintro ⟨c', cs', hcons, rfl, rfl, rfl⟩
        obtain ⟨rfl, rfl⟩ := List.cons.inj hcons
        rfl

/-- Codes are never written as high digits alone. -/
theorem textOf_eq_highDigits_iff {cs : List Code} {v : Nat} :
    textOf cs = highDigits v ↔ cs = [] ∧ v = 0 := by
  cases cs with
  | nil =>
      constructor
      · intro h
        exact ⟨rfl, (highDigits_injective (highDigits_zero.trans h)).symm⟩
      · rintro ⟨-, rfl⟩
        exact highDigits_zero.symm
  | cons c cs =>
      rw [textOf_cons]
      simp only [reduceCtorEq, false_and, iff_false]
      intro h
      have hmem : c.final ∈ highDigits v := by
        rw [← h]
        simp
      have hhigh := isHigh_of_mem_highDigits hmem
      rw [c.isHigh_final] at hhigh
      cases hhigh

/-- The code that ends with a low digit. -/
theorem final_eq_lowDigit_iff {c : Code} {v d : Nat} (hd : d < lowBase) :
    c.high = v ∧ c.final = lowDigit d ↔ c = .index (v * lowBase + d) := by
  cases c with
  | index i =>
      rw [high, final, index.injEq]
      constructor
      · rintro ⟨rfl, hfinal⟩
        have hvalue := congrArg lowValue? hfinal
        rw [lowValue?_lowDigit _ (Nat.mod_lt i (by decide)), lowValue?_lowDigit d hd] at hvalue
        have hmod : i % lowBase = d := Option.some.inj hvalue
        rw [← hmod, Nat.mul_comm, Nat.div_add_mod]
      · rintro rfl
        obtain ⟨hdiv, hmod⟩ := div_mod_digit (v := v) hd
        exact ⟨hdiv, by rw [hmod]⟩
  | save =>
      simp only [reduceCtorEq, iff_false, not_and]
      intro _ hfinal
      have hvalue : lowValue? 'Z' = some d := by
        rw [show 'Z' = lowDigit d from hfinal, lowValue?_lowDigit d hd]
      exact absurd hvalue (by simp [lowValue?])
  | unknown =>
      simp only [reduceCtorEq, iff_false, not_and]
      intro _ hfinal
      have hvalue : lowValue? '?' = some d := by
        rw [show '?' = lowDigit d from hfinal, lowValue?_lowDigit d hd]
      exact absurd hvalue (by simp [lowValue?])

/-! ## Reading -/

theorem map_eq_ok {ε α β : Type} {x : Except ε α} {f : α → β} {b : β} :
    x.map f = .ok b ↔ ∃ a, x = .ok a ∧ f a = b := by
  cases x with
  | error e => simp [Except.map]
  | ok a => simp [Except.map]

/-- Every character is a low digit, a high digit, or neither. -/
theorem char_cases (x : Char) :
    (∃ d < lowBase, x = lowDigit d) ∨ (∃ d < highBase, x = highDigit d) ∨
      lowValue? x = none ∧ highValue? x = none := by
  cases hlow : lowValue? x with
  | some d => exact Or.inl ⟨d, eq_lowDigit hlow⟩
  | none =>
      cases hhigh : highValue? x with
      | some k =>
          obtain ⟨d, hd, -, hx⟩ := eq_highDigit hhigh
          exact Or.inr (Or.inl ⟨d, hd, hx⟩)
      | none => exact Or.inr (Or.inr ⟨rfl, rfl⟩)

section Steps

variable {v d : Nat} {saveable : Bool} {x : Char} {rest : Text} {cs : List Code}

/-- A low digit ends a number. -/
theorem decodeFrom_low (hd : d < lowBase) :
    decodeFrom v saveable (lowDigit d :: rest) = .ok cs ↔
      v * lowBase + d < indexLimit ∧
        ∃ cs', decodeFrom 0 true rest = .ok cs' ∧ .index (v * lowBase + d) :: cs' = cs := by
  rw [decodeFrom, lowValue?_lowDigit d hd]
  dsimp only
  by_cases hlt : v * lowBase + d < indexLimit
  · rw [if_pos hlt, map_eq_ok]
    simp only [hlt, true_and]
  · rw [if_neg hlt]
    simp [hlt]

/-- A high digit goes on with a number. -/
theorem decodeFrom_high (hd : d < highBase) :
    decodeFrom v saveable (highDigit d :: rest) = .ok cs ↔
      v * highBase + (d + 1) < indexLimit ∧
        decodeFrom (v * highBase + (d + 1)) false rest = .ok cs := by
  have hlow : lowValue? (highDigit d) = none := by
    have all : ∀ d < highBase, lowValue? (highDigit d) = none := by decide
    exact all d hd
  rw [decodeFrom, hlow, highValue?_highDigit d hd]
  dsimp only
  by_cases hlt : v * highBase + (d + 1) < indexLimit
  · rw [if_pos hlt]
    simp only [hlt, true_and]
  · rw [if_neg hlt]
    simp [hlt]

/-- A character that is no digit has to be a save or an unknown step. -/
theorem decodeFrom_other (hlow : lowValue? x = none) (hhigh : highValue? x = none) :
    decodeFrom v saveable (x :: rest) = .ok cs ↔
      ∃ cs', (x = 'Z' ∧ saveable = true ∧ decodeFrom v false rest = .ok cs' ∧ .save :: cs' = cs) ∨
        (x = '?' ∧ v = 0 ∧ decodeFrom 0 false rest = .ok cs' ∧ .unknown :: cs' = cs) := by
  rw [decodeFrom, hlow, hhigh]
  dsimp only
  by_cases hsave : x = 'Z'
  · rw [if_pos hsave]
    cases saveable with
    | true =>
        rw [if_pos rfl, map_eq_ok]
        simp [hsave]
    | false => simp [hsave]
  · rw [if_neg hsave]
    by_cases hunknown : x = '?'
    · rw [if_pos hunknown]
      by_cases hzero : v = 0
      · rw [if_pos hzero, map_eq_ok]
        simp [hunknown, hzero]
      · rw [if_neg hzero]
        simp [hunknown, hzero]
    · rw [if_neg hunknown]
      simp [hsave, hunknown]

end Steps

/-- A number of which high digits have been read is below the limit, if reading succeeds. -/
theorem lt_indexLimit_of_decodeFrom {v : Nat} {saveable : Bool} {t : Text} {cs : List Code}
    (h : decodeFrom v saveable t = .ok cs) : v < indexLimit := by
  induction t generalizing v saveable cs with
  | nil =>
      rw [decodeFrom] at h
      by_cases hzero : v = 0
      · rw [hzero]
        decide
      · rw [if_neg hzero] at h
        cases h
  | cons x rest ih =>
      rcases char_cases x with ⟨d, hd, rfl⟩ | ⟨d, hd, rfl⟩ | ⟨hlow, hhigh⟩
      · obtain ⟨hlt, -⟩ := (decodeFrom_low hd).mp h
        have : v ≤ v * lowBase := Nat.le_mul_of_pos_right v (by decide)
        omega
      · obtain ⟨hlt, -⟩ := (decodeFrom_high hd).mp h
        have : v ≤ v * highBase := Nat.le_mul_of_pos_right v (by decide)
        omega
      · obtain ⟨cs', ⟨-, -, hrest, -⟩ | ⟨-, hzero, -⟩⟩ := (decodeFrom_other hlow hhigh).mp h
        · exact ih hrest
        · rw [hzero]
          decide

/-- Codes that begin with a high digit can be written anywhere, if they can be written at all. -/
theorem validFrom_of_high {v : Nat} {t : Text} {cs : List Code} (hv : v ≠ 0)
    (h : textOf cs = highDigits v ++ t) (saveable saveable' : Bool) :
    ValidFrom saveable cs ↔ ValidFrom saveable' cs := by
  cases cs with
  | nil => exact Iff.rfl
  | cons c cs =>
      have hne : highDigits v ≠ [] := by
        intro hnil
        exact hv (highDigits_injective (hnil.trans highDigits_zero.symm))
      obtain ⟨x, xs, hdigits⟩ := List.exists_cons_of_ne_nil hne
      have hx : isHigh x = true := by
        refine isHigh_of_mem_highDigits (n := v) ?_
        rw [hdigits]
        exact List.mem_cons_self
      rw [textOf_cons, hdigits] at h
      cases c with
      | index i => exact Iff.rfl
      | save =>
          have hhigh : high save = 0 := rfl
          rw [hhigh, highDigits_zero] at h
          obtain ⟨rfl, -⟩ := List.cons.inj h
          rw [isHigh_final] at hx
          cases hx
      | unknown => exact Iff.rfl

/-- Codes are read from a text, after high digits that count `v`, exactly if they can be written
there and are written as these digits and the text. -/
theorem decodeFrom_eq_ok_iff {v : Nat} {saveable : Bool} (hv : v ≠ 0 → saveable = false) {t : Text}
    {cs : List Code} :
    decodeFrom v saveable t = .ok cs ↔
      ValidFrom saveable cs ∧ textOf cs = highDigits v ++ t := by
  induction t generalizing v saveable cs with
  | nil =>
      rw [decodeFrom, List.append_nil, textOf_eq_highDigits_iff]
      by_cases hzero : v = 0
      · rw [if_pos hzero]
        constructor
        · intro h
          rw [← Except.ok.inj h]
          exact ⟨trivial, rfl, hzero⟩
        · rintro ⟨-, rfl, -⟩
          rfl
      · rw [if_neg hzero]
        simp [hzero]
  | cons x rest ih =>
      -- after a whole code, reading begins anew with the rest
      have again : ∀ saveable cs', decodeFrom 0 saveable rest = .ok cs' ↔
          ValidFrom saveable cs' ∧ textOf cs' = rest := by
        intro saveable cs'
        rw [ih fun hne => absurd rfl hne, highDigits_zero, List.nil_append]
      rcases char_cases x with ⟨d, hd, rfl⟩ | ⟨d, hd, rfl⟩ | ⟨hlow, hhigh⟩
      · rw [decodeFrom_low hd, textOf_eq_iff (isHigh_lowDigit d hd)]
        constructor
        · rintro ⟨hlt, cs', hrest, rfl⟩
          obtain ⟨hvalid, htext⟩ := (again _ _).mp hrest
          obtain ⟨hhigh, hfinal⟩ := (final_eq_lowDigit_iff hd).mpr rfl
          exact ⟨⟨hlt, hvalid⟩, _, cs', rfl, hhigh, hfinal, htext⟩
        · rintro ⟨hvalid, c, cs', rfl, hhigh, hfinal, htext⟩
          obtain rfl := (final_eq_lowDigit_iff hd).mp ⟨hhigh, hfinal⟩
          exact ⟨hvalid.1, cs', (again _ _).mpr ⟨hvalid.2, htext⟩, rfl⟩
      · -- a high digit goes to the digits that were read, and the limit is kept anyway
        have hpos : v * highBase + (d + 1) ≠ 0 := by omega
        have hdigits : highDigits v ++ highDigit d :: rest =
            highDigits (v * highBase + (d + 1)) ++ rest := by
          rw [highDigits_step v hd, List.append_assoc]
          rfl
        calc decodeFrom v saveable (highDigit d :: rest) = .ok cs
            ↔ decodeFrom (v * highBase + (d + 1)) false rest = .ok cs := by
              rw [decodeFrom_high hd]
              exact ⟨fun h => h.2, fun h => ⟨lt_indexLimit_of_decodeFrom h, h⟩⟩
          _ ↔ ValidFrom false cs ∧ textOf cs = highDigits (v * highBase + (d + 1)) ++ rest :=
              ih fun _ => rfl
          _ ↔ ValidFrom saveable cs ∧ textOf cs = highDigits v ++ highDigit d :: rest := by
              rw [hdigits]
              exact and_congr_left fun htext => validFrom_of_high hpos htext false saveable
      · have hx : isHigh x = false := by rw [isHigh, hhigh]; rfl
        rw [decodeFrom_other hlow hhigh, textOf_eq_iff hx]
        constructor
        · rintro ⟨cs', ⟨rfl, rfl, hrest, rfl⟩ | ⟨rfl, rfl, hrest, rfl⟩⟩
          · obtain rfl : v = 0 := by
              by_contra hne
              cases hv hne
            obtain ⟨hvalid, htext⟩ := (again _ _).mp hrest
            exact ⟨⟨rfl, hvalid⟩, .save, cs', rfl, rfl, rfl, htext⟩
          · obtain ⟨hvalid, htext⟩ := (again _ _).mp hrest
            exact ⟨hvalid, .unknown, cs', rfl, rfl, rfl, htext⟩
        · rintro ⟨hvalid, c, cs', rfl, hhigh', hfinal, htext⟩
          cases c with
          | index i =>
              -- the final letter of a number is a low digit
              rw [← hfinal, final, lowValue?_lowDigit _ (Nat.mod_lt i (by decide))] at hlow
              cases hlow
          | save =>
              obtain rfl : 0 = v := hhigh'
              exact ⟨cs', Or.inl ⟨hfinal.symm, hvalid.1, (again _ _).mpr ⟨hvalid.2, htext⟩, rfl⟩⟩
          | unknown =>
              obtain rfl : 0 = v := hhigh'
              exact ⟨cs', Or.inr ⟨hfinal.symm, rfl, (again _ _).mpr ⟨hvalid, htext⟩, rfl⟩⟩

/-- Codes are written with letters and question marks. -/
theorem letter_of_mem_textOf {cs : List Code} {x : Char} (hx : x ∈ textOf cs) :
    ('A' ≤ x ∧ x ≤ 'Z') ∨ x = '?' := by
  have low : ∀ d < lowBase, 'A' ≤ lowDigit d ∧ lowDigit d ≤ 'Z' := by decide
  have high : ∀ d < highBase, 'A' ≤ highDigit d ∧ highDigit d ≤ 'Z' := by decide
  obtain ⟨c, -, hmem⟩ := List.mem_flatMap.mp hx
  rw [text_eq, List.mem_append, List.mem_singleton] at hmem
  rcases hmem with hmem | rfl
  · obtain ⟨k, hk⟩ := Option.isSome_iff_exists.mp (isHigh_of_mem_highDigits hmem)
    obtain ⟨d, hd, -, rfl⟩ := eq_highDigit hk
    exact Or.inl (high d hd)
  · cases c with
    | index i => exact Or.inl (low _ (Nat.mod_lt i (by decide)))
    | save => decide
    | unknown => decide

/-- No letter of a code is a blank. -/
theorem isBlank_of_mem_textOf {cs : List Code} {x : Char} (hx : x ∈ textOf cs) :
    isBlank x = false := by
  rcases letter_of_mem_textOf hx with ⟨hlow, hhigh⟩ | rfl
  · have hA : 65 ≤ x.toNat := hlow
    have hZ : x.toNat ≤ 90 := hhigh
    rw [Bool.eq_false_iff]
    intro hblank
    simp only [isBlank, blankRanges, List.any_cons, List.any_nil, Bool.or_false, Bool.or_eq_true,
      Bool.and_eq_true, decide_eq_true_eq] at hblank
    omega
  · decide

/-- Codes are read from a text exactly if they can be written and are what the text without its
blanks is written for. -/
theorem decode_ok {t : Text} {cs : List Code} :
    decode t = .ok cs ↔ Valid cs ∧ textOf cs = t.filter (!isBlank ·) := by
  rw [decode, decodeFrom_eq_ok_iff fun hne => absurd rfl hne, valid_iff, highDigits_zero,
    List.nil_append]

/-- The text of codes has no blanks to leave out. -/
theorem filter_textOf (cs : List Code) : (textOf cs).filter (!isBlank ·) = textOf cs := by
  refine List.filter_eq_self.mpr fun x hx => ?_
  rw [isBlank_of_mem_textOf hx]
  rfl

end Code

/-- Writing and reading codes are inverse to each other. The codes that are read back are those
that can be written, with numbers up to the limit, and every list of them has one spelling apart
from blanks; any other text is refused. -/
theorem CompressedProof.decode_eq_ok_iff (p : CompressedProof) :
    (Code.Valid p.codes ↔ Code.decode p.codeText = .ok p.codes) ∧
      ∀ t : Text, Code.decode t = .ok p.codes ↔
        Code.Valid p.codes ∧ p.codeText = t.filter (!isBlank ·) := by
  refine ⟨?_, fun t => Code.decode_ok⟩
  rw [CompressedProof.codeText, Code.decode_ok, Code.filter_textOf]
  simp

end ProofSheet
