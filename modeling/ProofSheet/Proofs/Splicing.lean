import ProofSheet.Proofs.Acceptance

set_option autoImplicit false

/-! # Local references are spliced out

Loading leaves the statements of a text as they are, except that the steps which are local
references go, and the hypothesis lists of the others say directly what they said through local
references (`Spliced`). This is the main result (`Worksheet.statements_spliced`).

The pass over the statements knows at each of them what the local references before it stand for
(`Resolution.Follows`). As the names of steps are different, a redirected entry never comes out as
it was, so the leads that are written anew are exactly those of steps with such an entry.
-/

namespace ProofSheet

/-- The entry says something through a local reference: it is one or names a step that is one. -/
def Citation.refers (before : List Content) : Citation → Bool
  | .localRef _ => true
  | .step id => before.any fun c => c.isLocalRef && c.stepId? == some id
  | .unknown => false

/-- What the name of a local reference among the contents stands for, found among the contents
before that step. -/
def Redirected (before : List Content) (id id' : StepId) : Prop :=
  ∃ earlier d later target, before = earlier ++ .derivation d :: later ∧ d.id = id ∧
    d.localRef = some target ∧ StandsFor earlier target id'

/-- What takes the place of an entry in the hypothesis list of a step. -/
inductive Citation.Replaced (before : List Content) : Citation → Citation → Prop where
  /-- The first step before that has the target as printed id or as label. -/
  | named {target : Text} {id : StepId} (h : StandsFor before target id) :
      Replaced before (.localRef target) (.step id)
  /-- What the local reference that the entry names stands for. -/
  | redirected {id id' : StepId} (h : Redirected before id id') :
      Replaced before (.step id) (.step id')
  | unchanged {entry : Citation} (h : entry.refers before = false) : Replaced before entry entry

/-- A statement that stays, and what becomes of it. The level of a step is not in the text. -/
inductive Statement.Becomes (before : List Content) (s s' : Statement) : Prop where
  | other (hs : s.content.step? = none) (content : s'.content = s.content)
      (text : s'.text = s.text)
  | hypothesis {step : Step} {level : Nat} (hs : s.content = .hypothesis step)
      (content : s'.content = .hypothesis { step with level := level }) (text : s'.text = s.text)
  /-- If an entry said something through a local reference, the lead is written anew from the fields
  of the step, and the text after it stays. -/
  | derivation {d d' : Derivation} (hs : s.content = .derivation d)
      (content : s'.content = .derivation d')
      (same : ∃ level, d' = { d with hyps := d'.hyps, level := level })
      (hyps : List.Forall₂ (Citation.Replaced before) d.hyps d'.hyps)
      (unchanged : d.hyps.any (·.refers before) = false → s'.text = s.text)
      (rendered : d.hyps.any (·.refers before) = true → s'.text = d'.lead ++ s.tail)

/-- Of some statements the local references are dropped, and the others become what takes their
place. -/
inductive Spliced : List Content → List Statement → List Statement → Prop where
  | done {before : List Content} : Spliced before [] []
  | drop {before : List Content} {s : Statement} {rest rest' : List Statement}
      (hs : s.content.isLocalRef = true) (next : Spliced (before ++ [s.content]) rest rest') :
      Spliced before (s :: rest) rest'
  | keep {before : List Content} {s s' : Statement} {rest rest' : List Statement}
      (hs : s.content.isLocalRef = false) (becomes : s.Becomes before s')
      (next : Spliced (before ++ [s.content]) rest rest') :
      Spliced before (s :: rest) (s' :: rest')

/-! ## Entries -/

section Entries

variable {before : List Content} {entry entry' : Citation} {hyps hyps' : List Citation}

theorem refers_of_mem {d : Derivation} {target : Text} (hd : .derivation d ∈ before)
    (hlocal : d.localRef = some target) : (Citation.step d.id).refers before = true := by
  rw [Citation.refers, List.any_eq_true]
  refine ⟨.derivation d, hd, ?_⟩
  simp [Content.isLocalRef, Content.derivation?, hlocal]

theorem Redirected.append {id id' : StepId} (h : Redirected before id id') (after : List Content) :
    Redirected (before ++ after) id id' := by
  obtain ⟨earlier, d, later, target, rfl, hd, hlocal, hid⟩ := h
  exact ⟨earlier, d, later ++ after, target, by simp, hd, hlocal, hid⟩

/-- What a local reference stands for has another name, as names are different. -/
theorem Redirected.ne {id id' : StepId} (h : Redirected before id id')
    (nodup : (before.filterMap Content.stepId?).Nodup) : id' ≠ id := by
  -- the name is found before the local reference, which has its own name
  obtain ⟨earlier, d, later, target, rfl, rfl, -, c, hfind, -, hid⟩ := h
  have hmem : id' ∈ earlier.filterMap Content.stepId? :=
    List.mem_filterMap.mpr ⟨c, List.mem_of_find?_eq_some hfind, hid⟩
  have hd : (Content.derivation d).stepId? = some d.id := rfl
  rw [List.filterMap_append, List.filterMap_cons_some hd] at nodup
  exact (List.nodup_append.mp nodup).2.2 id' hmem d.id List.mem_cons_self

/-- An entry comes out as it was exactly if it says nothing through a local reference. -/
theorem Citation.Replaced.eq_iff (h : entry.Replaced before entry')
    (nodup : (before.filterMap Content.stepId?).Nodup) :
    entry' = entry ↔ entry.refers before = false := by
  cases h with
  | named h => simp [Citation.refers]
  | redirected h =>
      have hne := h.ne nodup
      obtain ⟨earlier, d, later, target, hsplit, rfl, hlocal, -⟩ := h
      have hmem : .derivation d ∈ before := by
        rw [hsplit]
        exact List.mem_append_right _ List.mem_cons_self
      simp [hne, refers_of_mem hmem hlocal]
  | unchanged h => simp [h]

theorem eq_iff_of_replaced (h : List.Forall₂ (Citation.Replaced before) hyps hyps')
    (nodup : (before.filterMap Content.stepId?).Nodup) :
    hyps' = hyps ↔ hyps.any (·.refers before) = false := by
  induction h with
  | nil => simp
  | cons hentry _ ih =>
      rw [List.cons.injEq, List.any_cons, Bool.or_eq_false_iff, hentry.eq_iff nodup, ih]

end Entries

/-- The names of the steps are different, also with the next statement among those before. -/
theorem nodup_stepIds_after {before : List Content} {s : Statement} {rest : List Statement}
    (nodup : (before.filterMap Content.stepId? ++
      (s :: rest).filterMap Statement.stepId?).Nodup) :
    ((before ++ [s.content]).filterMap Content.stepId? ++
      rest.filterMap Statement.stepId?).Nodup := by
  rw [List.filterMap_cons, Statement.stepId?_eq] at nodup
  rw [List.filterMap_append, List.filterMap_cons, List.append_assoc]
  cases hid : s.content.stepId? <;> simpa [hid] using nodup

/-! ## The pass -/

namespace Resolution

/-- What the pass knows of the contents before. -/
structure Follows (r : Resolution) (before : List Content) : Prop where
  remembers : r.Remembers before
  leads : ∀ p ∈ r.redirects, Redirected before p.1 p.2
  /-- Every local reference before leads somewhere. -/
  complete : ∀ d target, .derivation d ∈ before → d.localRef = some target →
    ∃ p ∈ r.redirects, p.1 = d.id

variable {r r' : Resolution} {before : List Content} {c : Content}

/-- Going over a statement that stays. -/
theorem Follows.keep (h : r.Follows before) (hc : c.isLocalRef = false)
    (remembers : r'.Remembers (before ++ [c])) (hredirects : r'.redirects = r.redirects) :
    r'.Follows (before ++ [c]) := by
  refine ⟨remembers, fun p hp => ?_, fun d target hd hlocal => ?_⟩
  · rw [hredirects] at hp
    exact (h.leads p hp).append [c]
  · rw [List.mem_append, List.mem_singleton] at hd
    rcases hd with hd | rfl
    · rw [hredirects]
      exact h.complete d target hd hlocal
    · rw [Content.isLocalRef, Content.derivation?] at hc
      simp [hlocal] at hc

/-- Going over a local reference. -/
theorem Follows.redirect (h : r.Follows before) {s : Statement} {d : Derivation} {target : Text}
    {found : Citable} (hlocal : d.localRef = some target)
    (hfound : Citable.find r.earlier target = .ok found) (messages : List Message) :
    (r.redirect s d found.id messages).Follows (before ++ [.derivation d]) := by
  have stands : StandsFor before target found.id := by
    rw [h.remembers] at hfound
    exact standsFor_iff.mpr ⟨found, hfound, rfl⟩
  refine ⟨h.remembers.redirect hlocal found.id messages, fun p hp => ?_,
    fun d' target' hd' hlocal' => ?_⟩
  · rcases List.mem_append.mp hp with hp | hp
    · exact (h.leads p hp).append _
    · rw [List.mem_singleton.mp hp]
      exact ⟨before, d, [], target, rfl, rfl, hlocal, stands⟩
  · rw [List.mem_append, List.mem_singleton] at hd'
    rcases hd' with hd' | heq
    · obtain ⟨p, hp, hid⟩ := h.complete d' target' hd' hlocal'
      exact ⟨p, List.mem_append_left _ hp, hid⟩
    · cases heq
      exact ⟨(d.id, found.id), List.mem_append_right _ List.mem_cons_self, rfl⟩

/-- A resolved entry is what takes the place of the entry. -/
theorem Follows.resolveCitation (h : r.Follows before) {entry entry' : Citation}
    (resolved : r.resolveCitation entry = .ok entry') : entry.Replaced before entry' := by
  cases entry with
  | unknown =>
      cases resolved
      exact .unchanged rfl
  | localRef target =>
      rw [Resolution.resolveCitation] at resolved
      cases hfound : Citable.find r.earlier target with
      | error cause => simp [hfound, Except.map] at resolved
      | ok found =>
          rw [hfound] at resolved
          cases resolved
          rw [h.remembers] at hfound
          exact .named (standsFor_iff.mpr ⟨found, hfound, rfl⟩)
  | step id =>
      cases resolved
      cases hlookup : r.redirects.lookup id with
      -- what has been redirected leads where the local reference leads
      | some id' =>
          obtain ⟨l₁, l₂, hl, -⟩ := List.lookup_eq_some_iff.mp hlookup
          exact .redirected (h.leads (id, id') (by rw [hl]; simp))
      | none =>
          refine .unchanged ?_
          rw [Citation.refers, List.any_eq_false]
          intro c hc
          -- a local reference with this name would have been redirected
          cases c with
          | derivation d =>
              cases hlocal : d.localRef with
              | none => simp [Content.isLocalRef, Content.derivation?, hlocal]
              | some target =>
                  obtain ⟨p, hp, hid⟩ := h.complete d target hc hlocal
                  have hne := List.lookup_eq_none_iff.mp hlookup p hp
                  rw [hid] at hne
                  have hne' : id ≠ d.id := by simpa using hne
                  simp [hne'.symm]
          | _ => simp [Content.isLocalRef, Content.derivation?]

theorem Follows.resolveCitations (h : r.Follows before) {hyps hyps' : List Citation}
    (resolved : r.resolveCitations hyps = (hyps', none)) :
    List.Forall₂ (Citation.Replaced before) hyps hyps' := by
  induction hyps generalizing hyps' with
  | nil =>
      cases resolved
      exact .nil
  | cons entry rest ih =>
      rw [Resolution.resolveCitations] at resolved
      cases hentry : r.resolveCitation entry with
      | error cause => simp [hentry] at resolved
      | ok entry' =>
          cases hrest : r.resolveCitations rest with
          | mk rest' failure =>
              simp only [hentry, hrest, Prod.mk.injEq] at resolved
              obtain ⟨rfl, rfl⟩ := resolved
              exact .cons (h.resolveCitation hentry) (ih hrest)

/-- A statement of which the hypothesis list has been resolved. -/
theorem Follows.citing (h : r.Follows before) {s : Statement} {d : Derivation}
    {hyps : List Citation} (hs : s.content = .derivation d)
    (resolved : r.resolveCitations d.hyps = (hyps, none))
    (nodup : (before.filterMap Content.stepId?).Nodup) : s.Becomes before (s.citing d hyps) := by
  -- the lead is written anew if the list differs, that is if an entry says something through a
  -- local reference
  have replaced := h.resolveCitations resolved
  have hsame := eq_iff_of_replaced replaced nodup
  refine .derivation hs (Statement.citing_content hs hyps) ⟨d.level, rfl⟩ replaced
    (fun hnone => ?_) fun hsome => ?_
  · rw [Statement.citing, if_pos (hsame.mpr hnone)]
  · have hne : hyps ≠ d.hyps := by
      intro heq
      rw [hsame.mp heq] at hsome
      cases hsome
    rw [Statement.citing, if_neg hne]
    rfl

/-- The pass splices the local references out. -/
theorem Passes.spliced {ss kept : List Statement} (h : Passes r ss kept r')
    (follows : r.Follows before)
    (nodup : (before.filterMap Content.stepId? ++ ss.filterMap Statement.stepId?).Nodup) :
    Spliced before ss kept := by
  induction h generalizing before with
  | done => exact .done
  | @other r r' s rest kept hs next ih =>
      have hlocal : s.content.isLocalRef = false := by
        rw [Content.isLocalRef, Content.derivation?_of_not_step hs]
        rfl
      have hfollows := follows.keep hlocal (follows.remembers.other hs) rfl
      exact .keep hlocal (.other hs rfl rfl) (ih hfollows (nodup_stepIds_after nodup))
  | @hypothesis r r' s rest kept step hs next ih =>
      have hlocal : s.content.isLocalRef = false := by
        rw [hs]
        rfl
      have hremembers := follows.remembers.step (c := s.content) (by rw [hs]; rfl)
      rw [hlocal] at hremembers
      have hfollows := follows.keep hlocal hremembers rfl
      exact .keep hlocal (.hypothesis hs (by rw [hs]) rfl) (ih hfollows (nodup_stepIds_after nodup))
  | @derivation r r' s rest kept d hyps hs hlocal resolved next ih =>
      have hlocal' : s.content.isLocalRef = false := by
        rw [hs, Content.isLocalRef]
        simp [Content.derivation?, hlocal]
      have hremembers := follows.remembers.step (c := s.content) (by rw [hs]; rfl)
      rw [hlocal'] at hremembers
      have hfollows := follows.keep hlocal' hremembers rfl
      have hbefore := (List.nodup_append.mp nodup).1
      exact .keep hlocal' (follows.citing hs resolved hbefore)
        (ih hfollows (nodup_stepIds_after nodup))
  | @localRef r r' s rest kept d target found messages hs hlocal hfound next ih =>
      have hlocal' : s.content.isLocalRef = true := by
        rw [hs, Content.isLocalRef]
        simp [Content.derivation?, hlocal]
      have hfollows : (r.redirect s d found.id messages).Follows (before ++ [.derivation d]) :=
        follows.redirect hlocal hfound messages
      rw [← hs] at hfollows
      exact .drop hlocal' (ih hfollows (nodup_stepIds_after nodup))

end Resolution

/-! ## Loading -/

/-- The statement is laid out anew or gets a level. -/
structure Statement.Relaid (s s' : Statement) : Prop where
  lead : s'.lead = s.lead
  tail : s'.tail = s.tail
  content : ∃ level, s'.content = s.content.mapStep ({ · with level := level })

theorem Statement.Relaid.text {s s' : Statement} (h : s.Relaid s') : s'.text = s.text := by
  rw [Statement.text, Statement.text, h.lead, h.tail]

theorem Statement.Becomes.relaid {before : List Content} {s s' s'' : Statement}
    (h : s.Becomes before s') (hrelaid : s'.Relaid s'') : s.Becomes before s'' := by
  have htext := hrelaid.text
  obtain ⟨level, hcontent⟩ := hrelaid.content
  cases h with
  | other hs content text =>
      refine .other hs ?_ (htext.trans text)
      rw [hcontent, content]
      cases hc : s.content <;> first | rfl | (rw [hc] at hs; cases hs)
  | @hypothesis step _ hs content text =>
      have hcontent' : s''.content = .hypothesis { step with level := level } := by
        rw [hcontent, content]
        rfl
      exact .hypothesis hs hcontent' (htext.trans text)
  | @derivation d d' hs content same hyps unchanged rendered =>
      obtain ⟨level', hsame⟩ := same
      have hcontent' : s''.content = .derivation { d' with level := level } := by
        rw [hcontent, content]
        rfl
      refine .derivation hs hcontent' ⟨level, ?_⟩ hyps (fun h => htext.trans (unchanged h))
        fun h => htext.trans (rendered h)
      rw [hsame]

theorem Spliced.relaid {before : List Content} {ss out out' : List Statement}
    (h : Spliced before ss out) (hrelaid : List.Forall₂ Statement.Relaid out out') :
    Spliced before ss out' := by
  induction h generalizing out' with
  | done =>
      cases hrelaid
      exact .done
  | drop hs _ ih => exact .drop hs (ih hrelaid)
  | keep hs becomes _ ih =>
      cases hrelaid with
      | cons hfirst hrest => exact .keep hs (becomes.relaid hfirst) (ih hrest)

/-- Recording levels gives each step some level. -/
theorem exists_level (levels : Levels) (c : Content) :
    ∃ level, c.mapStep levels.record = c.mapStep ({ · with level := level }) := by
  cases c with
  | hypothesis step => exact ⟨_, rfl⟩
  | derivation d => exact ⟨_, rfl⟩
  | _ => exact ⟨0, rfl⟩

theorem relaid_respanFrom (levels : Levels) (offset line : Nat) (ss : List Statement) :
    List.Forall₂ Statement.Relaid ss
      ((respanFrom offset line ss).map (·.mapStep levels.record)) := by
  induction ss generalizing offset line with
  | nil => exact .nil
  | cons s rest ih => exact .cons ⟨rfl, rfl, exists_level levels s.content⟩ (ih _ _)

/-- The statements as the text has them: they have the texts of the blocks, and say what the blocks
spell. -/
def IsSource (db : Database) (text : Text) (ss : List Statement) : Prop :=
  List.Forall₂ (fun b (s : Statement) => s.lead = b.head.text ∧ s.tail = b.tail ∧
    Spells db b.head.text b.words b.tail s.content) (blocksOf text) ss

namespace Worksheet

variable {db : Database} {st : Settings}

/-- The statements of a worksheet that loads cleanly have been read, the pass has gone over them,
and what it kept has been laid out and got levels. -/
theorem passes_load {request : Request} {text : Text}
    (clean : (load db st request text).broken = false) :
    ∃ read kept r,
      readText db st { cursor := { caret := request.caret } } text = .ok read ∧
        Resolution.Passes {} read.statements kept r ∧
        List.Forall₂ Statement.Relaid kept (load db st request text).statements := by
  obtain ⟨read, selected, ws, c, ids, hread, hresolve, -, -, hload⟩ := load_clean clean
  obtain ⟨proved, hshaped⟩ := shaped_readText hread
  obtain ⟨kept, r, passes, keeps⟩ := resolveLocalRefs_ok hresolve hshaped.nodup
  refine ⟨read, kept, r, hread, passes, ?_⟩
  have hstatements : (load db st request text).statements =
      (respanFrom 0 0 kept).map (·.mapStep (Levels.of ws.statements).record) := by
    rw [hload, ← keeps.statements]
    rfl
  rw [hstatements]
  exact relaid_respanFrom _ 0 0 kept

/-- The statements of a worksheet that loads cleanly are those of its text, with local references
spliced out: the steps that are local references are dropped, entries that said something through
a local reference say it directly, and everything else is as it was. -/
theorem statements_spliced {request : Request} {text : Text}
    (clean : (load db st request text).broken = false) :
    ∃ source, IsSource db text source ∧ (source.filterMap Statement.stepId?).Nodup ∧
      Spliced [] source (load db st request text).statements := by
  obtain ⟨read, kept, r, hread, passes, relaid⟩ := passes_load clean
  obtain ⟨-, source, hsource, hall⟩ := readText_reads hread
  obtain ⟨nodup, -⟩ := numbered_readText rfl rfl hread
  replace hsource : read.statements = source := hsource
  rw [stepIds, hsource] at nodup
  rw [hsource] at passes
  -- before the first statement there is nothing to know
  have follows : Resolution.Follows {} [] :=
    ⟨rfl, fun p hp => (by cases hp), fun d target hd => (by cases hd)⟩
  have spliced : Spliced [] source kept := passes.spliced follows nodup
  refine ⟨source, hall.imp fun b s hs => ?_, nodup, spliced.relaid relaid⟩
  exact ⟨hs.lead, hs.tail, spells_iff_says.mpr hs.said⟩

theorem statements_spliced_shortText :
    (load .empty {} {} shortText).broken = false ∧
      ∃ source, IsSource .empty shortText source ∧
        (source.filterMap Statement.stepId?).Nodup ∧
        Spliced [] source (load .empty {} {} shortText).statements :=
  ⟨shortText_loads, statements_spliced shortText_loads⟩

end Worksheet

end ProofSheet
