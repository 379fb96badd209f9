import ProofSheet.Proofs.Insertion
import ProofSheet.Proofs.Reload

set_option autoImplicit false

/-! # A `$d` statement that is inserted is read back

A `$d` statement is put in front of the generated proof or the footer, where it changes nothing for
the other statements (`Arranged.distinctVars_iff`). But the edit grants any two variables or more,
and a `$d` statement that repeats a variable cannot be read. So a worksheet with an inserted `$d`
statement is loaded again exactly if it could be loaded again before and no variable is repeated
(`Worksheet.insertDistinctVars_reloads_iff`).

What is loaded then is what would be loaded without the `$d` statement, and the `$d` statement in
front of the same statements (`Worksheet.load_distinctVars`). This is so because resolving local
references is a matter of what the statements say (`Resolution.Passes.alike`), and a statement that
is no step takes no part in it.
-/

namespace ProofSheet

/-! ## Resolving what says the same -/

/-- Two statements have the same text and say the same, wherever they stand. -/
structure Statement.Alike (s t : Statement) : Prop where
  chunk : s.chunk = t.chunk
  content : s.content = t.content

theorem Statement.Alike.citing {s t : Statement} (h : s.Alike t) (d : Derivation)
    (hyps : List Citation) : (s.citing d hyps).Alike (t.citing d hyps) := by
  unfold Statement.citing
  by_cases hsame : hyps = d.hyps
  · rw [if_pos hsame, if_pos hsame]
    exact h
  · rw [if_neg hsame, if_neg hsame]
    have htail : s.tail = t.tail := congrArg Chunk.tail h.chunk
    refine ⟨?_, rfl⟩
    show (⟨(d.citing hyps).lead, s.tail⟩ : Chunk) = ⟨(d.citing hyps).lead, t.tail⟩
    rw [htail]

theorem forall₂_alike {ss ts : List Statement}
    (hchunks : ss.map Statement.chunk = ts.map Statement.chunk)
    (hcontents : ss.map Statement.content = ts.map Statement.content) :
    List.Forall₂ Statement.Alike ss ts := by
  induction ss generalizing ts with
  | nil =>
      cases ts with
      | nil => exact .nil
      | cons t ts => cases hchunks
  | cons s ss ih =>
      cases ts with
      | nil => cases hchunks
      | cons t ts =>
          rw [List.map_cons, List.map_cons, List.cons.injEq] at hchunks hcontents
          exact .cons ⟨hchunks.1, hcontents.1⟩ (ih hchunks.2 hcontents.2)

namespace Resolution

/-- Citations are resolved in the same way. -/
structure Knows (r q : Resolution) : Prop where
  earlier : r.earlier = q.earlier
  redirects : r.redirects = q.redirects

variable {r r' q q' : Resolution} {ss ts kept kept' : List Statement}

theorem Knows.remember (h : r.Knows q) (s : Step) (isLocalRef : Bool) :
    (r.remember s isLocalRef).Knows (q.remember s isLocalRef) :=
  ⟨congrArg (· ++ _) h.earlier, h.redirects⟩

theorem Knows.redirect (h : r.Knows q) (s t : Statement) (d : Derivation) (found : StepId)
    (ms ns : List Message) : (r.redirect s d found ms).Knows (q.redirect t d found ns) :=
  ⟨congrArg (· ++ _) h.earlier, congrArg (· ++ _) h.redirects⟩

theorem Knows.resolveCitations (h : r.Knows q) (hyps : List Citation) :
    r.resolveCitations hyps = q.resolveCitations hyps := by
  have resolve : ∀ entry, r.resolveCitation entry = q.resolveCitation entry := by
    intro entry
    cases entry with
    | step id => rw [resolveCitation, resolveCitation, h.redirects]
    | localRef target => rw [resolveCitation, resolveCitation, h.earlier]
    | unknown => rfl
  induction hyps with
  | nil => rfl
  | cons entry rest ih => rw [Resolution.resolveCitations, Resolution.resolveCitations, resolve, ih]

/-- What a pass keeps is a matter of what the statements say. -/
theorem Passes.alike (h : Passes r ss kept r') (h' : Passes q ts kept' q')
    (alike : List.Forall₂ Statement.Alike ss ts) (knows : r.Knows q) :
    List.Forall₂ Statement.Alike kept kept' := by
  -- what a statement says decides which way a pass takes, so the second takes the way of the first
  induction h generalizing q ts kept' with
  | done =>
      cases alike
      cases h'
      exact .nil
  | other hs next ih =>
      obtain _ | ⟨first, rest⟩ := alike
      rw [first.content] at hs
      cases h' with
      | other ht next' => exact .cons first (ih next' rest knows)
      | hypothesis ht _ | derivation ht _ _ _ | localRef ht _ _ _ =>
          rw [ht] at hs
          cases hs
  | hypothesis hs next ih =>
      obtain _ | ⟨first, rest⟩ := alike
      rw [first.content] at hs
      cases h' with
      | hypothesis ht next' =>
          obtain rfl := Content.hypothesis.inj (hs.symm.trans ht)
          exact .cons first (ih next' rest (knows.remember _ _))
      | other ht _ | derivation ht _ _ _ | localRef ht _ _ _ =>
          rw [hs] at ht
          cases ht
  | derivation hs hlocal resolved next ih =>
      obtain _ | ⟨first, rest⟩ := alike
      rw [first.content] at hs
      cases h' with
      | derivation ht hlocal' resolved' next' =>
          obtain rfl := Content.derivation.inj (hs.symm.trans ht)
          rw [knows.resolveCitations] at resolved
          obtain ⟨rfl, -⟩ := Prod.mk.inj (resolved.symm.trans resolved')
          exact .cons (first.citing _ _) (ih next' rest (knows.remember _ _))
      | localRef ht hlocal' found next' =>
          obtain rfl := Content.derivation.inj (hs.symm.trans ht)
          rw [hlocal] at hlocal'
          cases hlocal'
      | other ht _ | hypothesis ht _ =>
          rw [hs] at ht
          cases ht
  | localRef hs hlocal found next ih =>
      obtain _ | ⟨first, rest⟩ := alike
      rw [first.content] at hs
      cases h' with
      | localRef ht hlocal' found' next' =>
          obtain rfl := Content.derivation.inj (hs.symm.trans ht)
          obtain rfl := Option.some.inj (hlocal.symm.trans hlocal')
          rw [knows.earlier] at found
          obtain rfl := Except.ok.inj (found.symm.trans found')
          exact ih next' rest (knows.redirect _ _ _ _ _ _)
      | derivation ht hlocal' resolved next' =>
          obtain rfl := Content.derivation.inj (hs.symm.trans ht)
          rw [hlocal] at hlocal'
          cases hlocal'
      | other ht _ | hypothesis ht _ =>
          rw [hs] at ht
          cases ht

/-- Statements that are no steps are kept as they are. -/
theorem Passes.aside (h : Passes r ss kept r') (hss : ∀ s ∈ ss, s.content.step? = none) :
    kept = ss := by
  induction h with
  | done => rfl
  | other hs next ih => rw [ih (List.forall_mem_cons.mp hss).2]
  | hypothesis hs _ _ | derivation hs _ _ _ _ | localRef hs _ _ _ _ =>
      have hnone := (List.forall_mem_cons.mp hss).1
      rw [hs] at hnone
      cases hnone

/-- A pass goes over some statements and then over the rest. -/
theorem Passes.append_left (h : Passes r (ss ++ ts) kept r') :
    ∃ front back r₁, kept = front ++ back ∧ Passes r ss front r₁ ∧ Passes r₁ ts back r' := by
  induction ss generalizing r kept with
  | nil => exact ⟨[], kept, r, rfl, .done r, h⟩
  | cons s rest ih =>
      cases h with
      | other hs next =>
          obtain ⟨front, back, r₁, rfl, hfront, hback⟩ := ih next
          exact ⟨_ :: front, back, r₁, rfl, .other hs hfront, hback⟩
      | hypothesis hs next =>
          obtain ⟨front, back, r₁, rfl, hfront, hback⟩ := ih next
          exact ⟨_ :: front, back, r₁, rfl, .hypothesis hs hfront, hback⟩
      | derivation hs hlocal resolved next =>
          obtain ⟨front, back, r₁, rfl, hfront, hback⟩ := ih next
          exact ⟨_ :: front, back, r₁, rfl, .derivation hs hlocal resolved hfront, hback⟩
      | localRef hs hlocal found next =>
          obtain ⟨front, back, r₁, rfl, hfront, hback⟩ := ih next
          exact ⟨front, back, r₁, rfl, .localRef hs hlocal found hfront, hback⟩

end Resolution

/-! ## After `qed` -/

namespace Phase

variable {p q : Phase} {c : Content} {cs : List Content}

/-- After `qed` there are no steps and no header. -/
theorem aside_of_concluded {proved : Bool} (h : (concluded proved).after cs = some q) :
    ∀ c ∈ cs, c.IsAside := by
  induction cs generalizing proved with
  | nil => exact fun c hc => (by cases hc)
  | cons c rest ih =>
      rw [after, Option.bind_eq_some_iff] at h
      obtain ⟨p, hp, hrest⟩ := h
      have aside : ∀ x ∈ rest, x.IsAside := by
        cases c with
        | footer =>
            cases hp
            -- nothing comes after the footer
            cases rest with
            | nil => exact fun x hx => (by cases hx)
            | cons x rest =>
                rw [after] at hrest
                cases x <;> cases hrest
        | proof body =>
            cases proved with
            | true => cases hp
            | false =>
                cases hp
                exact ih hrest
        | comment text | distinctVars vars =>
            cases hp
            exact ih hrest
        | header header | hypothesis s | derivation d => cases hp
      refine List.forall_mem_cons.mpr ⟨?_, aside⟩
      cases c with
      | header header | hypothesis s | derivation d => cases hp
      | _ => exact ⟨rfl, rfl⟩

/-- A generated proof and the footer stand after `qed`. -/
theorem aside_of_slot (hc : c.isProof = true ∨ c.isFooter = true)
    (h : p.after (c :: cs) = some q) : ∀ x ∈ c :: cs, x.IsAside := by
  obtain ⟨p₁, hnext, -⟩ := Option.bind_eq_some_iff.mp h
  obtain ⟨-, hclosed, hfooter, hproof, -⟩ := next_requires hnext
  have concluded : p.isConcluded = true := hc.elim (fun hc => (hproof hc).1) hfooter
  cases p with
  | concluded proved => exact aside_of_concluded h
  | closed proved => cases hclosed
  | _ => cases concluded

/-- A `$d` statement makes no difference to a generated proof or the footer after it. -/
theorem after_distinctVars (hc : c.isProof = true ∨ c.isFooter = true) (vars : List Text) :
    p.after (.distinctVars vars :: c :: cs) = p.after (c :: cs) := by
  cases c with
  | proof body | footer => cases p <;> rfl
  | _ => rcases hc with hc | hc <;> cases hc

end Phase

/-- A `$d` statement may be put in front of a generated proof or the footer, and it may go. -/
theorem Arranged.distinctVars_iff {db : Database} {before after : List Content} {c : Content}
    (not_qed : ∀ x ∈ before ++ c :: after, x.isHypothesis = true → x.isQed = false)
    (hc : c.isProof = true ∨ c.isFooter = true) (vars : List Text) :
    Arranged db (before ++ .distinctVars vars :: c :: after) ↔
      Arranged db (before ++ c :: after) := by
  have hphase : Phase.opening.after (before ++ .distinctVars vars :: c :: after) =
      Phase.opening.after (before ++ c :: after) := by
    rw [Phase.after_append, Phase.after_append]
    simp only [Phase.after_distinctVars hc]
  have before_not_qed : ∀ x ∈ before, x.isHypothesis = true → x.isQed = false :=
    fun x hx => not_qed x (List.mem_append_left _ hx)
  have aside : ∀ {proved}, Phase.opening.after (before ++ c :: after) = some (.closed proved) →
      (∀ x ∈ c :: after, x.IsAside) ∧ ∀ x ∈ .distinctVars vars :: c :: after, x.IsAside := by
    intro proved h
    rw [Phase.after_append, Option.bind_eq_some_iff] at h
    obtain ⟨p, -, hp⟩ := h
    have haside := Phase.aside_of_slot hc hp
    exact ⟨haside, List.forall_mem_cons.mpr ⟨⟨rfl, rfl⟩, haside⟩⟩
  constructor
  · intro h
    obtain ⟨proved, hclosed⟩ := h.exists_phase fun x hx hhyp => by
      rcases List.mem_append.mp hx with hx | hx
      · exact before_not_qed x hx hhyp
      · rcases List.mem_cons.mp hx with rfl | hx
        · cases hhyp
        · exact not_qed x (List.mem_append_right _ hx) hhyp
    rw [hphase] at hclosed
    obtain ⟨haside, haside'⟩ := aside hclosed
    refine h.exchange before_not_qed haside' haside fun p proved _ hp => ⟨proved, ?_⟩
    rwa [← Phase.after_distinctVars hc vars]
  · intro h
    obtain ⟨proved, hclosed⟩ := h.exists_phase not_qed
    obtain ⟨haside, haside'⟩ := aside hclosed
    refine h.exchange before_not_qed haside haside' fun p proved _ hp => ⟨proved, ?_⟩
    rwa [Phase.after_distinctVars hc vars]

/-! ## Chunks with a `$d` statement -/

/-- A `$d` statement of the variables, as it is written and read. -/
def distinctVarsStatement (vars : List Text) : Statement :=
  { id := 0
    content := .distinctVars vars
    lead := Keyword.distinctVars
    tail := ' ' :: joinWith ' ' vars ++ ['\n'] }

section Chunks

variable {db : Database} {vars : List Text} {cs ds : List Chunk} {f : Chunk}

/-- The text of variables without blanks is laid as the text of a statement should be, and has the
variables as words. -/
theorem distinctVars_laid (symbols : ∀ x ∈ vars, x ≠ [] ∧ IsSolid x) :
    (distinctVarsStatement vars).chunk.IsLaid ∧ (distinctVarsStatement vars).chunk.EndsLine ∧
      wordsOf (distinctVarsStatement vars).tail = vars := by
  have hending : ∀ c ∈ ['\n'], isSeparator c = true := List.forall_mem_singleton.mpr rfl
  obtain ⟨apart, indented, ends, -, hwords⟩ :=
    Formula.tail_of_solid (f := ⟨vars⟩) symbols hending rfl
  have solid : ∀ x ∈ Keyword.distinctVars, isSeparator x = false :=
    List.forall_mem_cons.mpr ⟨rfl, List.forall_mem_singleton.mpr rfl⟩
  exact ⟨⟨List.cons_ne_nil _ _, solid, apart, indented⟩, ends, hwords⟩

theorem LaidOut.distinctVars (h : LaidOut (cs ++ f :: ds))
    (symbols : ∀ x ∈ vars, x ≠ [] ∧ IsSolid x) :
    LaidOut (cs ++ (distinctVarsStatement vars).chunk :: f :: ds) := by
  obtain ⟨laid, ends, -⟩ := distinctVars_laid symbols
  obtain ⟨hcs, hds⟩ := (laidOut_append (List.cons_ne_nil _ _)).mp h
  exact (laidOut_append (List.cons_ne_nil _ _)).mpr ⟨hcs, laid, fun _ => ends, hds⟩

/-- What the lead of a `$d` statement begins. -/
theorem Says.exists_distinctVars {tail : Text} {words : List Text} {x : Content}
    (h : Says db Keyword.distinctVars words tail x) :
    x = .distinctVars words ∧ 2 ≤ words.length ∧ words.Nodup := by
  generalize hlead : Keyword.distinctVars = lead at h
  cases h with
  | distinctVars two distinct => exact ⟨rfl, two, distinct⟩
  | hypothesis hletter => rcases hletter with rfl | rfl <;> cases hlead
  | derivation begins =>
      rw [← hlead] at begins
      exact absurd begins.1 (by decide)
  | _ => cases hlead

/-- The text of a `$d` statement spells it if no variable is repeated, and else nothing. -/
theorem spells_distinctVars_iff (two : 2 ≤ vars.length)
    (symbols : ∀ x ∈ vars, x ≠ [] ∧ IsSolid x) (x : Content) :
    (distinctVarsStatement vars).chunk.Spells db x ↔ x = .distinctVars vars ∧ vars.Nodup := by
  obtain ⟨-, -, hwords⟩ := distinctVars_laid symbols
  have hspells : (distinctVarsStatement vars).chunk.Spells db x ↔
      Spells db Keyword.distinctVars vars (distinctVarsStatement vars).tail x := by
    show Spells db Keyword.distinctVars (wordsOf (distinctVarsStatement vars).tail)
      (distinctVarsStatement vars).tail x ↔ _
    rw [hwords]
  rw [hspells]
  constructor
  · intro h
    have said := spells_iff_says.mp h
    obtain ⟨rfl, -, distinct⟩ := said.exists_distinctVars
    exact ⟨rfl, distinct⟩
  · rintro ⟨rfl, distinct⟩
    exact .distinctVars two distinct

/-- A `$d` statement in front of the generated proof or the footer is in its place exactly if it
repeats no variable. -/
theorem spellWorksheet_distinctVars_iff (two : 2 ≤ vars.length)
    (symbols : ∀ x ∈ vars, x ≠ [] ∧ IsSolid x)
    (hf : f.lead = Keyword.proof ∨ f.lead = Keyword.footer) :
    SpellWorksheet db (cs ++ (distinctVarsStatement vars).chunk :: f :: ds) ↔
      SpellWorksheet db (cs ++ f :: ds) ∧ vars.Nodup := by
  have slot : ∀ {x}, f.Spells db x → x.isProof = true ∨ x.isFooter = true := fun hx =>
    hf.imp hx.said.isProof_iff.mpr hx.said.isFooter_iff.mpr
  constructor
  · rintro ⟨xs, hxs, arranged⟩
    obtain ⟨before, x, rest, rfl, hbefore, hx, hrest⟩ := forall₂_split hxs
    obtain ⟨rfl, distinct⟩ := (spells_distinctVars_iff two symbols x).mp hx
    obtain ⟨y, after, hy, hafter, rfl⟩ := List.forall₂_cons_left_iff.mp hrest
    have hys := List.rel_append hbefore (.cons hy hafter)
    exact ⟨⟨_, hys, (Arranged.distinctVars_iff (not_qed_of_spells hys) (slot hy) vars).mp arranged⟩,
      distinct⟩
  · rintro ⟨⟨xs, hxs, arranged⟩, distinct⟩
    obtain ⟨before, y, after, rfl, hbefore, hy, hafter⟩ := forall₂_split hxs
    have hd : (distinctVarsStatement vars).chunk.Spells db (.distinctVars vars) :=
      (spells_distinctVars_iff two symbols _).mpr ⟨rfl, distinct⟩
    exact ⟨_, List.rel_append hbefore (.cons hd (.cons hy hafter)),
      (Arranged.distinctVars_iff (not_qed_of_spells hxs) (slot hy) vars).mpr arranged⟩

/-- A lead with words after it that says no step and no header says one thing only. -/
theorem Spells.unique {lead tail : Text} {words : List Text} {x y : Content}
    (hx : Spells db lead words tail x) (hy : Spells db lead words tail y) (aside : x.IsAside)
    (aside' : y.IsAside) : x = y := by
  generalize hlead : lead = lead' at hy
  cases hx with
  | header => cases aside.header
  | hypothesis | derivation => cases aside.step
  | footer =>
      cases hy with
      | footer => rfl
      | hypothesis | derivation => cases aside'.step
      | _ => cases hlead
  | comment =>
      cases hy with
      | comment =>
          cases hlead
          rfl
      | header => cases aside'.header
      | hypothesis | derivation => cases aside'.step
      | _ => cases hlead
  | distinctVars two distinct =>
      cases hy with
      | distinctVars two' distinct' => rfl
      | header => cases aside'.header
      | hypothesis | derivation => cases aside'.step
      | _ => cases hlead
  | proof h =>
      cases hy with
      | proof h' => rw [h.unique h']
      | header => cases aside'.header
      | hypothesis | derivation => cases aside'.step
      | _ => cases hlead

end Chunks

/-! ## Loading -/

/-- A chunk as it is read, with what it says. -/
def Chunk.read (c : Chunk) (x : Content) : Statement :=
  { id := 0, content := x.bare, lead := c.lead, tail := c.tail }

theorem map_asRead (ss : List Statement) :
    ss.map Statement.asRead =
      List.zipWith Chunk.read (ss.map Statement.chunk) (ss.map Statement.content) := by
  rw [List.zipWith_map, List.zipWith_self]
  rfl

theorem Statement.Alike.asRead {s t : Statement} (h : s.Alike t) : t.asRead = s.asRead := by
  show t.chunk.read t.content = s.chunk.read s.content
  rw [h.chunk, h.content]

/-- A level makes no difference to how a statement is read. -/
theorem Statement.Relaid.asRead {s t : Statement} (h : s.Relaid t) : t.asRead = s.asRead := by
  obtain ⟨level, hcontent⟩ := h.content
  have hbare : t.content.bare = s.content.bare := by
    rw [hcontent]
    cases s.content <;> rfl
  rw [Statement.asRead, Statement.asRead, hbare, h.lead, h.tail]

namespace Worksheet

variable {db : Database} {st st₀ : Settings} {ws ws' : Worksheet} {vars : List Text}

/-- What chunks of which the last ones are no steps are loaded as. The last ones are loaded as they
are. -/
theorem load_aside {cs ds : List Chunk} {xs ys : List Content} (hlaid : LaidOut (cs ++ ds))
    (hxs : List.Forall₂ (Chunk.Spells db) cs xs) (hys : List.Forall₂ (Chunk.Spells db) ds ys)
    (arranged : Arranged db (xs ++ ys)) (aside : ∀ y ∈ ys, y.IsAside) (st : Settings) :
    ∃ ss kept r, ss.map Statement.chunk = cs ∧ ss.map Statement.content = xs ∧
      Resolution.Passes {} ss kept r ∧
      (load db st {} ((cs ++ ds).flatMap Chunk.text)).statements.map Statement.asRead =
        kept.map Statement.asRead ++ List.zipWith Chunk.read ds ys := by
  obtain ⟨all, kept, r, hchunks, hcontents, passes, relaid⟩ :=
    load_chunks hlaid (List.rel_append hxs hys) arranged st
  obtain ⟨ss, ts, rfl, hcs, hds⟩ := List.map_eq_append_iff.mp hchunks
  have hlength : (ss.map Statement.content).length = xs.length := by
    rw [List.length_map, ← List.length_map (f := Statement.chunk), hcs, hxs.length_eq]
  rw [List.map_append] at hcontents
  obtain ⟨hss, hts⟩ := List.append_inj hcontents hlength
  obtain ⟨front, back, r₁, rfl, hfront, hback⟩ := passes.append_left
  obtain rfl : back = ts := hback.aside fun t ht => by
    rw [← hts] at aside
    exact (aside _ (List.mem_map_of_mem ht)).step
  refine ⟨ss, front, r₁, hcs, hss, hfront, ?_⟩
  rw [map_eq_of_forall₂ relaid fun s t h => h.asRead, List.map_append, map_asRead back, hds, hts]

/-- What chunks with a `$d` statement in front of the generated proof or the footer are loaded as,
if they are loaded: what they are loaded as without it, and the `$d` statement in its place. -/
theorem load_distinctVars {cs ds : List Chunk} {f : Chunk} (two : 2 ≤ vars.length)
    (symbols : ∀ x ∈ vars, x ≠ [] ∧ IsSolid x)
    (hf : f.lead = Keyword.proof ∨ f.lead = Keyword.footer) (hlaid : LaidOut (cs ++ f :: ds))
    (spelled : SpellWorksheet db (cs ++ f :: ds)) (distinct : vars.Nodup) (st : Settings) :
    ∃ front ys, List.Forall₂ (Chunk.Spells db) (f :: ds) ys ∧ (∀ y ∈ ys, y.IsAside) ∧
      (load db st {} ((cs ++ f :: ds).flatMap Chunk.text)).statements.map Statement.asRead =
        front ++ List.zipWith Chunk.read (f :: ds) ys ∧
      (load db st {} ((cs ++ (distinctVarsStatement vars).chunk :: f :: ds).flatMap
          Chunk.text)).statements.map Statement.asRead =
        front ++ distinctVarsStatement vars :: List.zipWith Chunk.read (f :: ds) ys := by
  obtain ⟨xs, hxs, arranged⟩ := spelled
  have not_qed := not_qed_of_spells hxs
  obtain ⟨before, y, after, rfl, hbefore, hy, hafter⟩ := forall₂_split hxs
  have slot : y.isProof = true ∨ y.isFooter = true :=
    hf.imp hy.said.isProof_iff.mpr hy.said.isFooter_iff.mpr
  have aside : ∀ x ∈ y :: after, x.IsAside := by
    obtain ⟨proved, hclosed⟩ := arranged.exists_phase not_qed
    rw [Phase.after_append, Option.bind_eq_some_iff] at hclosed
    obtain ⟨p, -, hp⟩ := hclosed
    exact Phase.aside_of_slot slot hp
  -- what stands in front is read and resolved alike with and without the `$d` statement
  obtain ⟨ss, kept, r, hcs, hss, passes, hplain⟩ :=
    load_aside hlaid hbefore (.cons hy hafter) arranged aside st
  have hd : (distinctVarsStatement vars).chunk.Spells db (.distinctVars vars) :=
    (spells_distinctVars_iff two symbols _).mpr ⟨rfl, distinct⟩
  obtain ⟨ss', kept', r', hcs', hss', passes', hmarked⟩ :=
    load_aside (hlaid.distinctVars symbols) hbefore (.cons hd (.cons hy hafter))
      ((Arranged.distinctVars_iff not_qed slot vars).mpr arranged)
      (List.forall_mem_cons.mpr ⟨⟨rfl, rfl⟩, aside⟩) st
  have alike := forall₂_alike (hcs.trans hcs'.symm) (hss.trans hss'.symm)
  have kept_alike := passes.alike passes' alike ⟨rfl, rfl⟩
  have hkept : kept'.map Statement.asRead = kept.map Statement.asRead :=
    map_eq_of_forall₂ kept_alike fun s t h => h.asRead
  refine ⟨kept.map Statement.asRead, y :: after, .cons hy hafter, aside, hplain, ?_⟩
  rw [← hkept]
  exact hmarked

/-- The second worksheet is the first one with a statement added in front of the ones that are
given, up to places, levels and what unification has found out. -/
def Gains (s : Statement) (after : List Statement) (ws ws' : Worksheet) : Prop :=
  ∃ before, ws.statements.map Statement.asRead = before ++ after ∧
    ws'.statements.map Statement.asRead = before ++ s :: after

/-- A `$d` statement is added to a worksheet that loads cleanly if it has two variables or more, in
front of the generated proof or the footer. -/
theorem applyEdits_distinctVars {request : Request} {text : Text}
    (clean : (load db st₀ request text).broken = false) (two : 2 ≤ vars.length) (st : Settings) :
    let ws := load db st₀ request text
    let edited := ws.applyEdits st [.insertDistinctVars vars]
    edited.2 = none ∧ ∃ before t rest, ws.statements = before ++ t :: rest ∧
      (t.isProof = true ∨ t.isFooter = true) ∧ (∀ s ∈ t :: rest, s.content.IsAside) ∧
      List.Forall₂ Statement.Relaid
        (before ++ newStatement ws.nextId (.distinctVars vars) (distinctVarsText vars) :: t :: rest)
        edited.1.statements := by
  intro ws edited
  obtain ⟨proved, hshaped⟩ := shaped_load clean
  obtain ⟨ws', granted⟩ : ∃ ws', ws.insertDistinctVars vars = .ok ws' := by
    rw [insertDistinctVars, if_neg (Nat.not_lt.mpr two)]
    exact ⟨_, rfl⟩
  have hedited : edited = (ws'.measureLevels, none) := by
    show ws.applyEdits st _ = _
    rw [applyEdits, if_neg (by rw [clean]; exact Bool.false_ne_true), applyInOrder, applyEdit,
      granted]
    rfl
  obtain ⟨-, before, after, hss, begins, rfl⟩ := insertDistinctVars_ok granted
  obtain ⟨t, rest, p₁, p₂, rfl, slot, -, hnext, hrest⟩ := hshaped.slot hss begins
  have aside : ∀ c ∈ (t :: rest).map Statement.content, c.IsAside := by
    have hafter : p₁.after ((t :: rest).map Statement.content) = some (.closed proved) := by
      rw [List.map_cons, Phase.after, hnext]
      exact hrest
    rw [Statement.isProof_eq, Statement.isFooter_eq] at slot
    exact Phase.aside_of_slot slot hafter
  rw [hedited]
  exact ⟨rfl, before, t, rest, hss, slot, fun s hs => aside _ (List.mem_map_of_mem hs),
    relaid_respanFrom _ 0 0 _⟩

theorem distinctVars_granted_iff {request : Request} {text : Text}
    (clean : (load db st₀ request text).broken = false) (st : Settings) :
    ((load db st₀ request text).applyEdits st [.insertDistinctVars vars]).2 = none ↔
      2 ≤ vars.length := by
  refine ⟨fun granted => ?_, fun two => (applyEdits_distinctVars clean two st).1⟩
  by_contra few
  rw [applyEdits, if_neg (by rw [clean]; exact Bool.false_ne_true), applyInOrder, applyEdit,
    insertDistinctVars, if_pos (Nat.not_le.mp few)] at granted
  cases granted

/-- What stands from the generated proof or the footer on says in a worksheet that loads cleanly
what it says when it is loaded again. -/
theorem asRead_of_told {after : List Statement} {ys : List Content}
    (told : ∀ s ∈ after, s.Told db) (aside : ∀ s ∈ after, s.content.IsAside)
    (spelled : List.Forall₂ (Chunk.Spells db) (after.map Statement.chunk) ys)
    (aside' : ∀ y ∈ ys, y.IsAside) :
    after.map Statement.asRead = List.zipWith Chunk.read (after.map Statement.chunk) ys := by
  have hys : ys = after.map Statement.content := by
    induction after generalizing ys with
    | nil =>
        cases spelled
        rfl
    | cons s rest ih =>
        obtain ⟨told_s, told⟩ := List.forall_mem_cons.mp told
        obtain ⟨aside_s, aside⟩ := List.forall_mem_cons.mp aside
        obtain _ | ⟨hfirst, hrest⟩ := spelled
        obtain ⟨aside_y, aside'⟩ := List.forall_mem_cons.mp aside'
        have not_step : s.isStep = false := by
          rw [Statement.isStep_eq, Content.isStep, aside_s.step]
          rfl
        have spelled_s := spells_iff_says.mpr (told_s.said not_step)
        rw [List.map_cons, ih told aside hrest aside', hfirst.unique spelled_s aside_y aside_s]
  rw [map_asRead, hys]

/-- A `$d` statement that is inserted into a worksheet that loads cleanly is read back in its place
exactly if the worksheet could be loaded again before and no variable is repeated. -/
theorem insertDistinctVars_reloads_iff {request : Request} {text : Text}
    (clean : (load db st₀ request text).broken = false) {vars : List Text}
    (symbols : ∀ x ∈ vars, x ≠ [] ∧ IsSolid x) (st : Settings) :
    let ws := load db st₀ request text
    let edited := ws.applyEdits st [.insertDistinctVars vars]
    let again := load db st {} ws.output
    let reloaded := load db st {} edited.1.output
    (edited.2 = none ↔ 2 ≤ vars.length) ∧
      (edited.2 = none →
        (reloaded.broken = false ↔ again.broken = false ∧ vars.Nodup) ∧
        (reloaded.broken = false → ∃ after,
          Gains (distinctVarsStatement vars) after ws edited.1 ∧
          Gains (distinctVarsStatement vars) after again reloaded)) := by
  intro ws edited again reloaded
  refine ⟨distinctVars_granted_iff clean st, fun granted => ?_⟩
  have two := (distinctVars_granted_iff clean st).mp granted
  obtain ⟨-, before, t, rest, hss, slot, aside, relaid⟩ := applyEdits_distinctVars clean two st
  obtain ⟨hlaid, told⟩ := laidOut_load clean
  rw [hss] at hlaid told
  have told_after : ∀ s ∈ t :: rest, s.Told db := fun s hs => told s (List.mem_append_right _ hs)
  have told_t := told_after t List.mem_cons_self
  have hlead : t.chunk.lead = Keyword.proof ∨ t.chunk.lead = Keyword.footer :=
    slot.imp told_t.proof.mp told_t.footer.mp
  rw [List.map_append, List.map_cons] at hlaid
  have hagain : again = load db st {}
      ((before.map Statement.chunk ++ t.chunk :: rest.map Statement.chunk).flatMap Chunk.text) := by
    show load db st {} ws.output = _
    rw [output_eq, hss, List.map_append, List.map_cons]
  have hreloaded : reloaded = load db st {} ((before.map Statement.chunk ++
      (distinctVarsStatement vars).chunk :: t.chunk :: rest.map Statement.chunk).flatMap
        Chunk.text) := by
    have hchunks := map_eq_of_forall₂ relaid fun s s' h => h.chunk
    show load db st {} edited.1.output = _
    rw [output_eq, hchunks, List.map_append, List.map_cons, List.map_cons]
    rfl
  have clean_iff : reloaded.broken = false ↔ again.broken = false ∧ vars.Nodup := by
    rw [hreloaded, hagain, clean_chunks_iff (hlaid.distinctVars symbols) st,
      clean_chunks_iff hlaid st, spellWorksheet_distinctVars_iff two symbols hlead]
  refine ⟨clean_iff, fun hclean => ?_⟩
  obtain ⟨hspelled, distinct⟩ := clean_iff.mp hclean
  rw [hagain, clean_chunks_iff hlaid st] at hspelled
  obtain ⟨front, ys, spelled, aside', hplain, hmarked⟩ :=
    load_distinctVars two symbols hlead hlaid hspelled distinct st
  have hafter := asRead_of_told told_after aside spelled aside'
  refine ⟨(t :: rest).map Statement.asRead, ⟨before.map Statement.asRead, ?_, ?_⟩, front, ?_, ?_⟩
  · rw [hss, List.map_append]
  · rw [map_eq_of_forall₂ relaid fun s s' h => h.asRead, List.map_append, List.map_cons]
    rfl
  · rw [hagain, hplain, hafter]
    rfl
  · rw [hreloaded, hmarked, hafter]
    rfl

theorem insertDistinctVars_reloads_iff_shortText :
    (load .empty {} {} shortText).broken = false ∧ (∀ x ∈ [['x'], ['y']], x ≠ [] ∧ IsSolid x) ∧
      (let ws := load .empty {} {} shortText
      let edited := ws.applyEdits {} [.insertDistinctVars [['x'], ['y']]]
      let again := load .empty {} {} ws.output
      let reloaded := load .empty {} {} edited.1.output
      (edited.2 = none ↔ 2 ≤ [['x'], ['y']].length) ∧
        (edited.2 = none →
          (reloaded.broken = false ↔ again.broken = false ∧ [['x'], ['y']].Nodup) ∧
          (reloaded.broken = false → ∃ after,
            Gains (distinctVarsStatement [['x'], ['y']]) after ws edited.1 ∧
            Gains (distinctVarsStatement [['x'], ['y']]) after again reloaded))) := by
  have symbols : ∀ x ∈ [['x'], ['y']], x ≠ [] ∧ IsSolid x := by decide
  exact ⟨shortText_loads, symbols, insertDistinctVars_reloads_iff shortText_loads symbols {}⟩

/-- The `$d` statement is granted with a variable that is repeated, and cannot be read back. -/
theorem insertDistinctVars_repeated :
    (load .empty {} {} shortText).broken = false ∧
      (load .empty {} {} (load .empty {} {} shortText).output).broken = false ∧
      (∀ x ∈ [['x'], ['x']], x ≠ [] ∧ IsSolid x) ∧
      ((load .empty {} {} shortText).applyEdits {}
        [.insertDistinctVars [['x'], ['x']]]).2 = none ∧
      (load .empty {} {} ((load .empty {} {} shortText).applyEdits {}
        [.insertDistinctVars [['x'], ['x']]]).1.output).broken = true := by
  decide +kernel

end Worksheet

end ProofSheet
