import ProofSheet.Statement.Block
import Mathlib.Data.List.Chain
import Mathlib.Data.List.TakeWhile

set_option autoImplicit false

/-! # The blocks of a text

A text is cut into tokens, and these are grouped into blocks (`blocksOf`). The same cut can be
made in the text itself: apart from separators at the front, a text that begins in the first
column is a list of chunks, each with a lead and a tail (`exists_laidOut`), and its blocks are the
blocks of the chunks (`group_chunks`). So statements that are written one after the other are
found again as blocks, as long as no tail has a token in the first column and every tail but the
last ends a line (`LaidOut`).
-/

namespace ProofSheet

/-- The blocks of a text. -/
def blocksOf (text : Text) : List Block := (Block.group (tokens text)).2

/-- The words of a tail are the texts of its tokens. -/
def wordsOf (tail : Text) : List Text := (tokens tail).map Token.text

/-! ## Words and gaps -/

/-- A text that is empty or begins with a token. -/
def BeginsWord (t : Text) : Prop := ∀ c ∈ t.head?, isSeparator c = false

/-- A word and the gap after it. -/
structure IsWord (word gap : Text) : Prop where
  nonempty : word ≠ []
  solid : ∀ c ∈ word, isSeparator c = false
  gap : ∀ c ∈ gap, isSeparator c = true

/-- A text that consists of words and gaps. -/
inductive Cut : Text → Prop where
  | nil : Cut []
  | word {word gap rest : Text} (isWord : IsWord word gap) (apart : gap = [] → rest = [])
      (next : Cut rest) : Cut (word ++ (gap ++ rest))

theorem beginsWord_dropWhile (t : Text) : BeginsWord (t.dropWhile isSeparator) := by
  intro c hc
  have := List.head?_dropWhile_not isSeparator t
  rw [Option.mem_def.mp hc] at this
  simpa using this

theorem BeginsWord.append {s t : Text} (hs : BeginsWord s) (ht : BeginsWord t) :
    BeginsWord (s ++ t) := by
  cases s with
  | nil => exact ht
  | cons c s => exact hs

theorem takeWhile_of_beginsWord {t : Text} (h : BeginsWord t) : t.takeWhile isSeparator = [] := by
  cases t with
  | nil => rfl
  | cons c t => exact List.takeWhile_cons_of_neg (by rw [h c rfl]; decide)

theorem beginsWord_iff_takeWhile {t : Text} : BeginsWord t ↔ t.takeWhile isSeparator = [] := by
  refine ⟨takeWhile_of_beginsWord, fun hnil => ?_⟩
  have hsplit := List.takeWhile_append_dropWhile (p := isSeparator) (l := t)
  rw [hnil, List.nil_append] at hsplit
  rw [← hsplit]
  exact beginsWord_dropWhile t

theorem dropWhile_of_beginsWord {t : Text} (h : BeginsWord t) : t.dropWhile isSeparator = t := by
  cases t with
  | nil => rfl
  | cons c t => exact List.dropWhile_cons_of_neg (by rw [h c rfl]; decide)

/-- The word that a text begins with, in a text that goes on with a gap. -/
theorem span_word {word rest : Text} (solid : ∀ c ∈ word, isSeparator c = false)
    (hrest : ∀ c ∈ rest.head?, isSeparator c = true) :
    (word ++ rest).takeWhile (!isSeparator ·) = word ∧
      (word ++ rest).dropWhile (!isSeparator ·) = rest := by
  have hsolid : ∀ c ∈ word, (!isSeparator c) = true := fun c hc => by rw [solid c hc]; rfl
  rw [List.takeWhile_append_of_pos hsolid, List.dropWhile_append_of_pos hsolid]
  cases rest with
  | nil => exact ⟨List.append_nil word, rfl⟩
  | cons c rest =>
      have hc : ¬ (!isSeparator c) = true := by
        rw [hrest c rfl]
        decide
      rw [List.takeWhile_cons_of_neg (p := fun c => !isSeparator c) hc,
        List.dropWhile_cons_of_neg (p := fun c => !isSeparator c) hc]
      exact ⟨List.append_nil word, rfl⟩

theorem IsWord.head?_gap {word gap rest : Text} (h : IsWord word gap) (apart : gap = [] → rest = []) :
    ∀ c ∈ (gap ++ rest).head?, isSeparator c = true := by
  cases gap with
  | nil =>
      rw [apart rfl]
      exact fun c hc => (by cases hc)
  | cons x gap =>
      intro c hc
      cases hc
      exact h.gap x List.mem_cons_self

/-- A word and its gap are the first token of a text. -/
theorem tokensFrom_word (p : Place) {word gap rest : Text} (h : IsWord word gap)
    (apart : gap = [] → rest = []) (hrest : BeginsWord rest) :
    tokensFrom p (word ++ (gap ++ rest)) =
      { text := word, gap := gap, place := p } :: tokensFrom ((p.after word).after gap) rest := by
  obtain ⟨htake, hdrop⟩ := span_word h.solid (h.head?_gap apart)
  rw [tokensFrom, if_neg (by simp [h.nonempty])]
  simp only [htake, hdrop, List.takeWhile_append_of_pos h.gap, List.dropWhile_append_of_pos h.gap,
    takeWhile_of_beginsWord hrest, dropWhile_of_beginsWord hrest, List.append_nil]

theorem Cut.beginsWord {t : Text} (h : Cut t) : BeginsWord t := by
  cases h with
  | nil => exact fun c hc => (by cases hc)
  | word isWord _ _ =>
      obtain ⟨x, xs, rfl⟩ := List.exists_cons_of_ne_nil isWord.nonempty
      intro c hc
      cases hc
      exact isWord.solid x List.mem_cons_self

/-- Every text that is empty or begins with a token consists of words and gaps. -/
theorem cut_of_beginsWord {t : Text} (h : BeginsWord t) : Cut t := by
  induction hlen : t.length using Nat.strong_induction_on generalizing t with
  | _ n ih =>
      by_cases ht : t = []
      · rw [ht]
        exact .nil
      obtain ⟨c, cs, hcs⟩ := List.exists_cons_of_ne_nil ht
      have hc : (!isSeparator c) = true := by
        rw [h c (by rw [hcs]; rfl)]
        rfl
      let rest := t.dropWhile (!isSeparator ·)
      have hsplit : t = t.takeWhile (!isSeparator ·) ++
          (rest.takeWhile isSeparator ++ rest.dropWhile isSeparator) := by
        rw [List.takeWhile_append_dropWhile, List.takeWhile_append_dropWhile]
      have hshort : (rest.dropWhile isSeparator).length < n := hlen ▸ length_after_token_lt ht
      rw [hsplit]
      refine .word ⟨?_, ?_, ?_⟩ ?_ (ih _ hshort (beginsWord_dropWhile rest) rfl)
      · rw [hcs, List.takeWhile_cons_of_pos (p := fun c => !isSeparator c) hc]
        exact List.cons_ne_nil _ _
      · intro x hx
        simpa using List.mem_takeWhile_imp hx
      · exact fun x hx => List.mem_takeWhile_imp hx
      · intro hnil
        cases hrest : rest with
        | nil => rfl
        | cons x xs =>
            -- a word ends only before a separator
            have hx := List.head?_dropWhile_not (!isSeparator ·) t
            rw [show t.dropWhile (!isSeparator ·) = x :: xs from hrest] at hx
            have hsep : isSeparator x = true := by simpa using hx
            rw [hrest, List.takeWhile_cons_of_pos hsep] at hnil
            cases hnil

/-! ## Tokens of a text in parts -/

/-- The tokens of a text that ends with a separator do not depend on what follows. -/
theorem tokensFrom_append (p : Place) {xs ys : Text} (hxs : Cut xs)
    (hlast : ∀ c ∈ xs.getLast?, isSeparator c = true) (hys : BeginsWord ys) :
    tokensFrom p (xs ++ ys) = tokensFrom p xs ++ tokensFrom (p.after xs) ys := by
  induction hxs generalizing p with
  | nil =>
      rw [tokensFrom.eq_1 p [], if_pos rfl]
      rfl
  | @word word gap rest isWord apart next ih =>
      have hrest : ∀ c ∈ rest.getLast?, isSeparator c = true := by
        intro c hc
        refine hlast c ?_
        rw [List.getLast?_append, List.getLast?_append, Option.mem_def.mp hc]
        rfl
      have hgap : gap ≠ [] := by
        intro hnil
        obtain ⟨c, hc⟩ : ∃ c, word.getLast? = some c :=
          ⟨_, List.getLast?_eq_some_getLast isWord.nonempty⟩
        have hsep := hlast c (by rw [hnil, apart hnil, List.append_nil, List.append_nil]; exact hc)
        rw [isWord.solid c (List.mem_of_getLast? hc)] at hsep
        cases hsep
      have hbegins : BeginsWord (rest ++ ys) := next.beginsWord.append hys
      rw [List.append_assoc, List.append_assoc,
        tokensFrom_word p isWord (fun hnil => absurd hnil hgap) hbegins,
        tokensFrom_word p isWord apart next.beginsWord, ih _ hrest, Place.after_append,
        Place.after_append, List.cons_append]

/-- The texts of the tokens do not depend on the place where the text begins. -/
theorem texts_tokensFrom (p q : Place) {cs : Text} (hcs : Cut cs) :
    (tokensFrom p cs).map Token.text = (tokensFrom q cs).map Token.text := by
  induction hcs generalizing p q with
  | nil => rw [tokensFrom.eq_1 p [], tokensFrom.eq_1 q [], if_pos rfl, if_pos rfl]
  | word isWord apart next ih =>
      rw [tokensFrom_word p isWord apart next.beginsWord,
        tokensFrom_word q isWord apart next.beginsWord, List.map_cons, List.map_cons]
      exact congrArg _ (ih _ _)

theorem wordsOf_eq (p : Place) (tail : Text) :
    wordsOf tail = (tokensFrom p (tail.dropWhile isSeparator)).map Token.text :=
  texts_tokensFrom _ _ (cut_of_beginsWord (beginsWord_dropWhile tail))

/-! ## The first column -/

/-- No token of the text follows a line feed directly. -/
def Indented (t : Text) : Prop := t.IsChain fun a b => a = '\n' → isSeparator b = true

theorem Place.startsLine_after (p : Place) (t : Text) (c : Char) :
    (p.after (t ++ [c])).position.startsLine = (c == '\n') := by
  rw [Place.after_append]
  show ((p.after t).next c).position.startsLine = (c == '\n')
  unfold Place.next Position.startsLine
  by_cases hc : c = '\n'
  · simp [hc]
  · simp [hc]

/-- A place after a text is in the first column only if the text ends with a line feed. -/
theorem Place.startsLine_after_eq_false {p : Place} {t : Text} (ht : t ≠ [])
    (hlast : '\n' ∉ t.getLast?) : (p.after t).position.startsLine = false := by
  rcases List.eq_nil_or_concat t with hnil | ⟨front, last, rfl⟩
  · exact absurd hnil ht
  · rw [List.concat_eq_append] at hlast ⊢
    rw [Place.startsLine_after, beq_eq_false_iff_ne]
    rintro rfl
    exact hlast (by simp)

/-- No token of an indented text begins in the first column, unless the text itself does. -/
theorem startsStatement_of_indented {p : Place} {cs : Text} (hcut : Cut cs)
    (hp : cs ≠ [] → p.position.startsLine = false) (hcs : Indented cs) :
    ∀ t ∈ tokensFrom p cs, t.startsStatement = false := by
  induction hcut generalizing p with
  | nil =>
      rw [tokensFrom, if_pos rfl]
      exact fun t ht => (by cases ht)
  | @word word gap rest isWord apart next ih =>
      have hne : word ++ gap ≠ [] := by simp [isWord.nonempty]
      rw [tokensFrom_word p isWord apart next.beginsWord]
      rw [← List.append_assoc, Indented, List.isChain_append] at hcs
      obtain ⟨-, hrest, hborder⟩ := hcs
      refine List.forall_mem_cons.mpr ⟨hp (by simp [isWord.nonempty]), ih ?_ hrest⟩
      intro hrestne
      obtain ⟨c, rest, rfl⟩ := List.exists_cons_of_ne_nil hrestne
      rw [← Place.after_append]
      refine Place.startsLine_after_eq_false hne fun hlast => ?_
      -- a token after a line feed would not be indented
      have hsep := hborder '\n' hlast c rfl rfl
      rw [next.beginsWord c rfl] at hsep
      cases hsep

/-! ## Grouping -/

namespace Block

theorem group_cons_start {t : Token} (h : t.startsStatement = true) (ts : List Token) :
    group (t :: ts) = ([], { head := t, body := (group ts).1 } :: (group ts).2) := by
  rw [group]
  exact if_pos h

theorem group_append_body {ts : List Token} (h : ∀ t ∈ ts, t.startsStatement = false)
    (us : List Token) : group (ts ++ us) = (ts ++ (group us).1, (group us).2) := by
  induction ts with
  | nil => rfl
  | cons t ts ih =>
      obtain ⟨ht, hts⟩ := List.forall_mem_cons.mp h
      rw [List.cons_append, group, ih hts]
      exact if_neg (Bool.eq_false_iff.mp ht)

end Block

/-! ## Chunks -/

/-- The text of a statement, in its two parts. -/
structure Chunk where
  lead : Text
  tail : Text
deriving DecidableEq, Repr, Inhabited

namespace Chunk

def text (c : Chunk) : Text := c.lead ++ c.tail

/-- The lead is one token, and the tail is apart from it and has no token in the first column. -/
structure IsLaid (c : Chunk) : Prop where
  lead_ne : c.lead ≠ []
  solid : ∀ x ∈ c.lead, isSeparator x = false
  apart : ∀ x ∈ c.tail.head?, isSeparator x = true
  indented : Indented c.tail

/-- What follows the chunk begins in the first column. -/
def EndsLine (c : Chunk) : Prop := c.tail.getLast? = some '\n'

/-- The block of a chunk that begins at a place. -/
def block (p : Place) (c : Chunk) : Block :=
  { head := { text := c.lead, gap := c.tail.takeWhile isSeparator, place := p }
    body :=
      tokensFrom ((p.after c.lead).after (c.tail.takeWhile isSeparator))
        (c.tail.dropWhile isSeparator) }

@[simp] theorem block_lead (p : Place) (c : Chunk) : (c.block p).head.text = c.lead := rfl

@[simp] theorem block_tail (p : Place) (c : Chunk) : (c.block p).tail = c.tail := by
  rw [Block.tail, block, written_tokensFrom]
  exact List.takeWhile_append_dropWhile

@[simp] theorem block_words (p : Place) (c : Chunk) : (c.block p).words = wordsOf c.tail :=
  (wordsOf_eq _ _).symm

end Chunk

/-- The blocks of chunks that follow each other from a place on. -/
def blocksFrom (p : Place) : List Chunk → List Block
  | [] => []
  | c :: rest => c.block p :: blocksFrom (p.after c.text) rest

/-- Chunks that are laid, and of which every one but the last ends a line. -/
def LaidOut : List Chunk → Prop
  | [] => True
  | c :: rest => c.IsLaid ∧ (rest ≠ [] → c.EndsLine) ∧ LaidOut rest

theorem LaidOut.beginsWord {cs : List Chunk} (h : LaidOut cs) :
    BeginsWord (cs.flatMap Chunk.text) := by
  cases cs with
  | nil => exact fun x hx => (by cases hx)
  | cons c rest =>
      obtain ⟨x, xs, hlead⟩ := List.exists_cons_of_ne_nil h.1.lead_ne
      intro y hy
      rw [List.flatMap_cons, Chunk.text, hlead] at hy
      cases hy
      exact h.1.solid x (by rw [hlead]; exact List.mem_cons_self)

/-- The tokens of a chunk and of a text after it that begins in the first column. -/
theorem Chunk.IsLaid.tokensFrom {c : Chunk} (h : c.IsLaid) (p : Place) {rest : Text}
    (hrest : BeginsWord rest) (hends : rest ≠ [] → c.EndsLine) :
    ProofSheet.tokensFrom p (c.text ++ rest) =
      (c.block p).head :: ((c.block p).body ++ ProofSheet.tokensFrom (p.after c.text) rest) := by
  let gap := c.tail.takeWhile isSeparator
  let inner := c.tail.dropWhile isSeparator
  have htail : c.tail = gap ++ inner := List.takeWhile_append_dropWhile.symm
  have hinner : Cut inner := cut_of_beginsWord (beginsWord_dropWhile c.tail)
  have hword : IsWord c.lead gap :=
    ⟨h.lead_ne, h.solid, fun x hx => List.mem_takeWhile_imp hx⟩
  have hbegins : BeginsWord (inner ++ rest) := hinner.beginsWord.append hrest
  -- a tail that has no gap is empty, and then no line ends and nothing follows
  have apart : gap = [] → inner ++ rest = [] := by
    intro hnil
    have htail_nil : c.tail = [] := by
      cases ht : c.tail with
      | nil => rfl
      | cons x xs =>
          have hx := h.apart x (by rw [ht]; rfl)
          rw [show gap = c.tail.takeWhile isSeparator from rfl, ht,
            List.takeWhile_cons_of_pos hx] at hnil
          cases hnil
    have hrest_nil : rest = [] := by
      by_contra hne
      have hend := hends hne
      rw [Chunk.EndsLine, htail_nil] at hend
      cases hend
    rw [hrest_nil, show inner = c.tail.dropWhile isSeparator from rfl, htail_nil]
    rfl
  -- the last character of the tail is a line feed, so no token goes on after it
  have hbody : ∀ q, ProofSheet.tokensFrom q (inner ++ rest) =
      ProofSheet.tokensFrom q inner ++ ProofSheet.tokensFrom (q.after inner) rest := by
    intro q
    by_cases hne : rest = []
    · rw [hne, List.append_nil, tokensFrom.eq_1 _ [], if_pos rfl, List.append_nil]
    · refine tokensFrom_append q hinner (fun x hx => ?_) hrest
      have hend := hends hne
      rw [Chunk.EndsLine, htail, List.getLast?_append, Option.mem_def.mp hx] at hend
      rw [Option.some.inj hend]
      rfl
  have hplace : (((p.after c.lead).after gap).after inner) = p.after c.text := by
    rw [← Place.after_append, ← htail, ← Place.after_append, Chunk.text]
  rw [Chunk.text, htail, List.append_assoc, List.append_assoc, tokensFrom_word p hword apart hbegins,
    hbody, hplace, ← htail]
  rfl

/-- Only the head of a chunk begins in the first column. -/
theorem Chunk.IsLaid.below {c : Chunk} (h : c.IsLaid) (p : Place) :
    ∀ t ∈ (c.block p).body, t.startsStatement = false := by
  have htail : c.tail = c.tail.takeWhile isSeparator ++ c.tail.dropWhile isSeparator :=
    List.takeWhile_append_dropWhile.symm
  have hinner := beginsWord_dropWhile c.tail
  have hchain := h.indented
  rw [htail, Indented, List.isChain_append] at hchain
  obtain ⟨-, hindented, hborder⟩ := hchain
  refine startsStatement_of_indented (cut_of_beginsWord hinner) (fun hne => ?_) hindented
  obtain ⟨x, xs, hx⟩ := List.exists_cons_of_ne_nil hne
  rw [← Place.after_append]
  refine Place.startsLine_after_eq_false (by simp [h.lead_ne]) fun hlast => ?_
  have hsep : isSeparator x = true := by
    rw [List.getLast?_append, Option.mem_def, Option.or_eq_some_iff] at hlast
    rcases hlast with hgap | ⟨-, hlead⟩
    · exact hborder '\n' hgap x (by rw [hx]; rfl) rfl
    · have := h.solid '\n' (List.mem_of_getLast? hlead)
      cases this
  rw [hinner x (by rw [hx]; rfl)] at hsep
  cases hsep

/-- The blocks of chunks that are laid out are found in their text. -/
theorem group_chunks {p : Place} {cs : List Chunk} (h : LaidOut cs)
    (hp : cs ≠ [] → p.position.startsLine = true) :
    Block.group (tokensFrom p (cs.flatMap Chunk.text)) = ([], blocksFrom p cs) := by
  induction cs generalizing p with
  | nil =>
      rw [List.flatMap_nil, tokensFrom, if_pos rfl]
      rfl
  | cons c rest ih =>
      obtain ⟨laid, hends, hrest⟩ := h
      have hends' : rest.flatMap Chunk.text ≠ [] → c.EndsLine := by
        intro hne
        refine hends ?_
        rintro rfl
        exact hne rfl
      -- the next chunk begins in the first column, as this one ends a line
      have hstarts : rest ≠ [] → (p.after c.text).position.startsLine = true := by
        intro hne
        obtain ⟨front, hfront⟩ := List.getLast?_eq_some_iff.mp (hends hne)
        rw [Chunk.text, hfront, ← List.append_assoc, Place.startsLine_after]
        rfl
      have hhead : (c.block p).head.startsStatement = true := hp (List.cons_ne_nil _ _)
      rw [List.flatMap_cons, laid.tokensFrom p hrest.beginsWord hends',
        Block.group_cons_start hhead, Block.group_append_body (laid.below p), ih hrest hstarts,
        List.append_nil]
      rfl

/-- The blocks of a text that consists of chunks. -/
theorem group_tokens_chunks {cs : List Chunk} (h : LaidOut cs) :
    Block.group (tokens (cs.flatMap Chunk.text)) = ([], blocksFrom {} cs) := by
  have hbegins := h.beginsWord
  have htokens : tokens (cs.flatMap Chunk.text) = tokensFrom {} (cs.flatMap Chunk.text) := by
    rw [tokens, takeWhile_of_beginsWord hbegins, dropWhile_of_beginsWord hbegins]
    rfl
  rw [htokens]
  exact group_chunks h fun _ => rfl

/-- A text goes on up to where a token follows a line feed. -/
theorem exists_indented (t : Text) :
    ∃ tail rest, t = tail ++ rest ∧ Indented tail ∧ BeginsWord rest ∧
      (rest ≠ [] → tail.getLast? = some '\n') := by
  induction t with
  | nil => exact ⟨[], [], rfl, .nil, fun c hc => (by cases hc), fun hne => absurd rfl hne⟩
  | cons c t ih =>
      by_cases hcut : c = '\n' ∧ t ≠ [] ∧ BeginsWord t
      · -- a token follows the line feed: the tail ends here
        obtain ⟨rfl, -, hbegins⟩ := hcut
        exact ⟨['\n'], t, rfl, .singleton _, hbegins, fun _ => rfl⟩
      · obtain ⟨tail, rest, rfl, hindented, hbegins, hends⟩ := ih
        refine ⟨c :: tail, rest, rfl, ?_, hbegins, fun hne => ?_⟩
        · refine hindented.cons fun x hx hc => ?_
          by_contra hsep
          refine hcut ⟨hc, ?_, ?_⟩
          · rintro hnil
            rw [List.append_eq_nil_iff] at hnil
            rw [hnil.1] at hx
            cases hx
          · cases tail with
            | nil => cases hx
            | cons y tail =>
                intro z hz
                cases hz
                cases hx
                exact Bool.eq_false_iff.mpr hsep
        · rw [List.getLast?_cons, hends hne]
          rfl

/-- Every text that is empty or begins with a token consists of chunks that are laid out. -/
theorem exists_laidOut {t : Text} (h : BeginsWord t) :
    ∃ cs, LaidOut cs ∧ t = cs.flatMap Chunk.text := by
  induction hlen : t.length using Nat.strong_induction_on generalizing t with
  | _ n ih =>
      cases cut_of_beginsWord h with
      | nil => exact ⟨[], trivial, rfl⟩
      | @word word gap rest isWord apart next =>
          obtain ⟨tail, more, hsplit, hindented, hbegins, hends⟩ := exists_indented (gap ++ rest)
          have hapart : ∀ x ∈ tail.head?, isSeparator x = true := by
            intro x hx
            refine isWord.head?_gap apart x ?_
            rw [hsplit, List.head?_append, Option.mem_def.mp hx]
            rfl
          have hshort : more.length < n := by
            have hword := List.length_pos_of_ne_nil isWord.nonempty
            rw [← hlen, hsplit, List.length_append, List.length_append]
            omega
          obtain ⟨cs, hlaid, rfl⟩ := ih _ hshort hbegins rfl
          refine ⟨⟨word, tail⟩ :: cs,
            ⟨⟨isWord.nonempty, isWord.solid, hapart, hindented⟩, ?_, hlaid⟩, ?_⟩
          · intro hne
            refine hends ?_
            obtain ⟨c, cs, rfl⟩ := List.exists_cons_of_ne_nil hne
            rw [List.flatMap_cons, Chunk.text]
            simp [hlaid.1.lead_ne]
          · rw [hsplit, List.flatMap_cons, Chunk.text, List.append_assoc]

theorem LaidOut.isLaid {cs : List Chunk} (h : LaidOut cs) : ∀ c ∈ cs, c.IsLaid := by
  induction cs with
  | nil => exact fun c hc => (by cases hc)
  | cons c rest ih => exact List.forall_mem_cons.mpr ⟨h.1, ih h.2.2⟩

theorem mem_blocksFrom {p : Place} {cs : List Chunk} {b : Block} (hb : b ∈ blocksFrom p cs) :
    ∃ c ∈ cs, ∃ q, b = c.block q := by
  induction cs generalizing p with
  | nil => cases hb
  | cons c rest ih =>
      rcases List.mem_cons.mp hb with rfl | hmem
      · exact ⟨c, List.mem_cons_self, p, rfl⟩
      · obtain ⟨c', hc', q, hq⟩ := ih hmem
        exact ⟨c', List.mem_cons_of_mem _ hc', q, hq⟩

/-- The block of every chunk but the last is that of a chunk that ends a line. -/
theorem mem_dropLast_blocksFrom {p : Place} {cs : List Chunk} {b : Block} (h : LaidOut cs)
    (hb : b ∈ (blocksFrom p cs).dropLast) : ∃ c ∈ cs, c.EndsLine ∧ ∃ q, b = c.block q := by
  induction cs generalizing p with
  | nil => cases hb
  | cons c rest ih =>
      cases rest with
      | nil => cases hb
      | cons next rest =>
          rw [blocksFrom, blocksFrom, List.dropLast_cons_cons] at hb
          rcases List.mem_cons.mp hb with rfl | hmem
          · exact ⟨c, List.mem_cons_self, h.2.1 (List.cons_ne_nil _ _), p, rfl⟩
          · obtain ⟨c', hc', hends, q, hq⟩ := ih h.2.2 hmem
            exact ⟨c', List.mem_cons_of_mem _ hc', hends, q, hq⟩

/-- A text whose first token is in the first column has the blocks of its chunks, from the place of
that token on. -/
theorem exists_chunks {text : Text} {t : Token} {ts : List Token} (htokens : tokens text = t :: ts)
    (hstarts : t.startsStatement = true) :
    ∃ cs, LaidOut cs ∧ text.dropWhile isSeparator = cs.flatMap Chunk.text ∧
      blocksOf text = blocksFrom (Place.after {} (text.takeWhile isSeparator)) cs := by
  obtain ⟨cs, hlaid, htext⟩ := exists_laidOut (beginsWord_dropWhile text)
  let p := Place.after {} (text.takeWhile isSeparator)
  have hfrom : tokens text = tokensFrom p (cs.flatMap Chunk.text) := by
    rw [tokens, htext]
  have hp : cs ≠ [] → p.position.startsLine = true := by
    intro hne
    obtain ⟨c, rest, rfl⟩ := List.exists_cons_of_ne_nil hne
    obtain ⟨laid, hends, hrest⟩ := hlaid
    have hends' : rest.flatMap Chunk.text ≠ [] → c.EndsLine := by
      intro hne
      refine hends ?_
      rintro rfl
      exact hne rfl
    rw [List.flatMap_cons, laid.tokensFrom p hrest.beginsWord hends', htokens] at hfrom
    rw [(List.cons.inj hfrom).1] at hstarts
    exact hstarts
  refine ⟨cs, hlaid, htext, ?_⟩
  rw [blocksOf, hfrom, group_chunks hlaid hp]

end ProofSheet
