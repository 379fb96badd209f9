import ProofSheet.Proofs.Changes
import ProofSheet.Proofs.Leads
import Mathlib.Data.List.Induction
import Mathlib.Data.List.TakeWhile

set_option autoImplicit false

/-! # Texts that are spelled otherwise

Two texts can differ in a way that no reader notices: the words are the same and stand in the same
lines and columns, and only the separators between them are spelled otherwise. A `Respelling` says
how each character is spelled and how offsets correspond. The tokens of a text and those of its
respelling are alike (`Respelling.tokens_like`), and so are the blocks into which they are grouped
(`Block.Like.group`).
-/

namespace ProofSheet

/-- A way to spell the separators of a text, and to tell which offsets are of the same place. -/
structure Respelling where
  spell : Char → Text
  /-- An offset in the one text and an offset in the other are of the same place. -/
  offset : Nat → Nat → Prop
  spell_ne_nil : ∀ c, spell c ≠ []
  spell_solid : ∀ c, isSeparator c = false → spell c = [c]
  isSeparator_spell : ∀ c, ∀ x ∈ spell c, isSeparator x = isSeparator c
  lineFeeds_spell : ∀ c, lineFeeds (spell c) = lineFeeds [c]
  position_spell : ∀ (p : Place) (c : Char), (p.after (spell c)).position = (p.next c).position
  offset_zero : offset 0 0
  offset_spell : ∀ m n c, offset m n → offset (m + 1) (n + (spell c).length)

/-! ## Texts -/

theorem trimEnd_append_blank {s t : Text} (ht : ∀ c ∈ t, isBlank c = true) :
    trimEnd (s ++ t) = trimEnd s := by
  rw [trimEnd, trimEnd, List.reverse_append, List.dropWhile_append_of_pos]
  intro c hc
  exact ht c (List.mem_reverse.mp hc)

theorem trimEnd_concat {c : Char} (hc : isBlank c = false) (s : Text) :
    trimEnd (s ++ [c]) = s ++ [c] := by
  rw [trimEnd, List.reverse_append, List.reverse_singleton, List.singleton_append,
    List.dropWhile_cons_of_neg (by simp [hc]), List.reverse_cons, List.reverse_reverse]

namespace Respelling

/-- Every character stays as it is. -/
def same : Respelling where
  spell c := [c]
  offset := Eq
  spell_ne_nil _ := List.cons_ne_nil _ _
  spell_solid _ _ := rfl
  isSeparator_spell _ _ hx := by rw [List.mem_singleton.mp hx]
  lineFeeds_spell _ := rfl
  position_spell _ _ := rfl
  offset_zero := rfl
  offset_spell _ _ _ h := h ▸ rfl

variable (R : Respelling)

/-- What a text becomes. -/
def text (t : Text) : Text := t.flatMap R.spell

@[simp] theorem text_nil : R.text [] = [] := rfl

theorem text_cons (c : Char) (t : Text) : R.text (c :: t) = R.spell c ++ R.text t := rfl

theorem text_append (s t : Text) : R.text (s ++ t) = R.text s ++ R.text t := List.flatMap_append

@[simp] theorem text_same (t : Text) : same.text t = t := List.flatMap_singleton' t

theorem text_flatMap {α : Type} (f : α → Text) (l : List α) :
    R.text (l.flatMap f) = l.flatMap fun a => R.text (f a) := List.flatMap_assoc

theorem text_solid {t : Text} (h : ∀ c ∈ t, isSeparator c = false) : R.text t = t := by
  induction t with
  | nil => rfl
  | cons c t ih =>
      obtain ⟨hc, ht⟩ := List.forall_mem_cons.mp h
      rw [text_cons, R.spell_solid c hc, ih ht]
      rfl

theorem text_ne_nil {t : Text} (h : t ≠ []) : R.text t ≠ [] := by
  obtain ⟨c, t, rfl⟩ := List.exists_cons_of_ne_nil h
  rw [text_cons]
  exact List.append_ne_nil_of_left_ne_nil (R.spell_ne_nil c) _

theorem lineFeeds_text (t : Text) : lineFeeds (R.text t) = lineFeeds t := by
  induction t with
  | nil => rfl
  | cons c t ih =>
      rw [text_cons, lineFeeds_append, R.lineFeeds_spell, ih, ← lineFeeds_append]
      rfl

theorem isBlank_spell {c x : Char} (hx : x ∈ R.spell c) (hc : isBlank c = true) :
    isBlank x = true := by
  cases hsep : isSeparator c with
  | true => exact isBlank_of_isSeparator ((R.isSeparator_spell c x hx).trans hsep)
  | false =>
      rw [R.spell_solid c hsep, List.mem_singleton] at hx
      rw [hx, hc]

theorem trimEnd_text (t : Text) : trimEnd (R.text t) = R.text (trimEnd t) := by
  induction t using List.reverseRecOn with
  | nil => rfl
  | append_singleton t c ih =>
      cases hc : isBlank c with
      | true =>
          have hspell : ∀ x ∈ R.text [c], isBlank x = true := fun x hx => by
            rw [text_cons, text_nil, List.append_nil] at hx
            exact R.isBlank_spell hx hc
          rw [text_append, trimEnd_append_blank hspell, ih,
            trimEnd_append_blank fun x hx => List.mem_singleton.mp hx ▸ hc]
      | false =>
          have hsolid : isSeparator c = false := by
            rw [Bool.eq_false_iff]
            intro hsep
            rw [isBlank_of_isSeparator hsep] at hc
            cases hc
          have hspell : R.text [c] = [c] := R.text_solid (by simp [hsolid])
          rw [trimEnd_concat hc, text_append, hspell, trimEnd_concat hc]

section Kind

variable {p : Char → Bool} (hp : ∀ c, ∀ x ∈ R.spell c, p x = p c)

include hp

theorem takeWhile_text (t : Text) : (R.text t).takeWhile p = R.text (t.takeWhile p) := by
  induction t with
  | nil => rfl
  | cons c t ih =>
      cases hc : p c with
      | true =>
          rw [List.takeWhile_cons_of_pos hc, text_cons, text_cons, ← ih,
            List.takeWhile_append_of_pos fun x hx => (hp c x hx).trans hc]
      | false =>
          obtain ⟨x, xs, hspell⟩ := List.exists_cons_of_ne_nil (R.spell_ne_nil c)
          have hx : p x = false := (hp c x (by simp [hspell])).trans hc
          rw [List.takeWhile_cons_of_neg (by simp [hc]), text_cons, hspell, List.cons_append,
            List.takeWhile_cons_of_neg (by simp [hx])]
          rfl

theorem dropWhile_text (t : Text) : (R.text t).dropWhile p = R.text (t.dropWhile p) := by
  have hsplit := congrArg R.text (List.takeWhile_append_dropWhile (p := p) (l := t))
  rw [text_append, ← R.takeWhile_text hp] at hsplit
  have hsplit' := List.takeWhile_append_dropWhile (p := p) (l := R.text t)
  exact List.append_cancel_left (hsplit'.trans hsplit.symm)

end Kind

theorem not_isSeparator_spell (c : Char) : ∀ x ∈ R.spell c, (!isSeparator x) = !isSeparator c :=
  fun x hx => congrArg (!·) (R.isSeparator_spell c x hx)

/-! ## Places -/

/-- The same place goes on to the same place after a text. -/
theorem offset_text {m n : Nat} (h : R.offset m n) (t : Text) :
    R.offset (m + t.length) (n + (R.text t).length) := by
  induction t generalizing m n with
  | nil => exact h
  | cons c t ih =>
      have hrest := ih (R.offset_spell m n c h)
      rw [Nat.add_assoc, Nat.add_assoc, Nat.add_comm 1] at hrest
      rw [List.length_cons, text_cons, List.length_append]
      exact hrest

/-- The same place goes on to the same place after as many characters that are not respelled. -/
theorem offset_add {m n : Nat} (h : R.offset m n) (k : Nat) : R.offset (m + k) (n + k) := by
  have hsolid : R.text (List.replicate k 'x') = List.replicate k 'x' :=
    R.text_solid fun c hc => by
      rw [List.eq_of_mem_replicate hc]
      rfl
  have hadd := R.offset_text h (List.replicate k 'x')
  rwa [hsolid, List.length_replicate] at hadd

/-- The places are in the same line and column, and their offsets correspond. -/
structure SamePlace (p p' : Place) : Prop where
  position : p'.position = p.position
  offset : R.offset p.offset p'.offset

variable {R}

theorem SamePlace.after {p p' : Place} (h : R.SamePlace p p') (t : Text) :
    R.SamePlace (p.after t) (p'.after (R.text t)) := by
  constructor
  · have hposition := h.position
    clear h
    induction t generalizing p p' with
    | nil => exact hposition
    | cons c t ih =>
        rw [text_cons, Place.after_append]
        refine ih (?_ : (p'.after (R.spell c)).position = (p.next c).position)
        rw [R.position_spell, Place.next, Place.next, hposition]
  · rw [Place.offset_after, Place.offset_after]
    exact R.offset_text h.offset t

end Respelling

/-! ## Tokens -/

variable {R : Respelling}

/-- The tokens are the same word in the same line and column. -/
structure Token.Like (R : Respelling) (t t' : Token) : Prop where
  text : t'.text = t.text
  solid : ∀ c ∈ t.text, isSeparator c = false
  gap : t'.gap = R.text t.gap
  place : R.SamePlace t.place t'.place

namespace Token.Like

variable {t t' : Token} {ts ts' : List Token}

theorem written (h : t.Like R t') : t'.written = R.text t.written := by
  rw [Token.written, Token.written, h.text, h.gap, R.text_append, R.text_solid h.solid]

theorem startsStatement (h : t.Like R t') : t'.startsStatement = t.startsStatement := by
  rw [Token.startsStatement, Token.startsStatement, h.place.position]

theorem stop (h : t.Like R t') : R.offset t.stop t'.stop := by
  rw [Token.stop, Token.stop, h.text]
  exact R.offset_add h.place.offset _

theorem texts (h : List.Forall₂ (Token.Like R) ts ts') : ts'.map Token.text = ts.map Token.text :=
  map_eq_of_forall₂ h fun _ _ ht => ht.text

/-- A token is told by its text in both lists. -/
theorem takeWhile (h : List.Forall₂ (Token.Like R) ts ts') (p : Text → Bool) :
    List.Forall₂ (Token.Like R) (ts.takeWhile (p ·.text)) (ts'.takeWhile (p ·.text)) := by
  induction h with
  | nil => exact .nil
  | cons ht hts ih =>
      rw [List.takeWhile_cons, List.takeWhile_cons, ht.text]
      split
      · exact .cons ht ih
      · exact .nil

theorem dropWhile (h : List.Forall₂ (Token.Like R) ts ts') (p : Text → Bool) :
    List.Forall₂ (Token.Like R) (ts.dropWhile (p ·.text)) (ts'.dropWhile (p ·.text)) := by
  induction h with
  | nil => exact .nil
  | cons ht hts ih =>
      rw [List.dropWhile_cons, List.dropWhile_cons, ht.text]
      split
      · exact ih
      · exact .cons ht hts

end Token.Like

theorem Respelling.tokensFrom_like (p : Place) (cs : Text) : ∀ p', R.SamePlace p p' →
    List.Forall₂ (Token.Like R) (tokensFrom p cs) (tokensFrom p' (R.text cs)) := by
  induction p, cs using tokensFrom.induct with
  | case1 p =>
      intro p' _
      rw [Respelling.text_nil, tokensFrom.eq_1 p, tokensFrom.eq_1 p', if_pos rfl, if_pos rfl]
      exact .nil
  | case2 p cs hne word gap ih =>
      intro p' h
      have hsolid : ∀ c ∈ word, isSeparator c = false := fun c hc => by
        simpa using List.mem_takeWhile_imp hc
      have hword : (R.text cs).takeWhile (!isSeparator ·) = word := by
        rw [R.takeWhile_text R.not_isSeparator_spell, R.text_solid hsolid]
      have hgap : ((R.text cs).dropWhile (!isSeparator ·)).takeWhile isSeparator = R.text gap := by
        rw [R.dropWhile_text R.not_isSeparator_spell, R.takeWhile_text R.isSeparator_spell]
      rw [tokensFrom.eq_1 p, tokensFrom.eq_1 p', if_neg hne, if_neg (R.text_ne_nil hne)]
      dsimp only
      rw [hword, hgap, R.dropWhile_text R.not_isSeparator_spell,
        R.dropWhile_text R.isSeparator_spell]
      have hafter := h.after word
      rw [R.text_solid hsolid] at hafter
      exact .cons ⟨rfl, hsolid, rfl, h⟩ (ih _ (hafter.after gap))

/-- The tokens of a text and of its respelling are alike. -/
theorem Respelling.tokens_like (R : Respelling) (text : Text) :
    List.Forall₂ (Token.Like R) (tokens text) (tokens (R.text text)) := by
  have start : R.SamePlace {} {} := ⟨rfl, R.offset_zero⟩
  rw [tokens, tokens, R.takeWhile_text R.isSeparator_spell, R.dropWhile_text R.isSeparator_spell]
  exact tokensFrom_like _ _ _ (start.after _)

/-! ## Blocks -/

/-- The blocks consist of tokens that are alike. -/
structure Block.Like (R : Respelling) (b b' : Block) : Prop where
  head : b.head.Like R b'.head
  body : List.Forall₂ (Token.Like R) b.body b'.body

theorem Block.Like.tail {b b' : Block} (h : b.Like R b') : b'.tail = R.text b.tail := by
  have hbody : b'.body.flatMap Token.written = b.body.flatMap fun t => R.text t.written := by
    rw [List.flatMap_def, List.flatMap_def, map_eq_of_forall₂ h.body fun _ _ ht => ht.written]
  rw [Block.tail, Block.tail, h.head.gap, hbody, R.text_append, R.text_flatMap]

/-- Tokens that are alike are grouped alike. -/
theorem Block.Like.group {ts ts' : List Token} (h : List.Forall₂ (Token.Like R) ts ts') :
    List.Forall₂ (Token.Like R) (Block.group ts).1 (Block.group ts').1 ∧
      List.Forall₂ (Block.Like R) (Block.group ts).2 (Block.group ts').2 := by
  induction h with
  | nil => exact ⟨.nil, .nil⟩
  | cons ht hts ih =>
      rw [Block.group, Block.group]
      dsimp only
      rw [ht.startsStatement]
      split
      · exact ⟨.nil, .cons ⟨ht, ih.1⟩ ih.2⟩
      · exact ⟨.cons ht ih.1, ih.2⟩

end ProofSheet
