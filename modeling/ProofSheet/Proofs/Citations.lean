import ProofSheet.Proofs.Calls
import ProofSheet.Proofs.Changes
import ProofSheet.Proofs.Renumbering
import ProofSheet.Proofs.LoadedShape

set_option autoImplicit false

/-! # Citations go backwards

In a worksheet that loads cleanly, every entry of a hypothesis list is unknown or names a step
that stands earlier, and there are no local references; and this stays so whatever calls follow
(`Worksheet.cites_backwards`).

While a worksheet is read, an entry may also be a local reference, or name a step that is one. The
pass that resolves them keeps this invariant (`Resolution.Sound`): every step that was there leads
to one that is kept, either itself or by a redirection.
-/

namespace ProofSheet

/-- Every content meets a condition on the names of the steps before it. -/
def Along (P : List StepId → Content → Prop) : List StepId → List Content → Prop
  | _, [] => True
  | earlier, c :: rest => P earlier c ∧ Along P (earlier ++ c.stepId?.toList) rest

/-- What a step cites stands earlier; it may have local references. -/
def CitesEarlier (earlier : List StepId) (c : Content) : Prop :=
  ∀ d, c = .derivation d → ∀ id ∈ d.cited, id ∈ earlier

/-- What a step cites stands earlier or is unknown, and it has no local references. -/
def CitesOnly (earlier : List StepId) (c : Content) : Prop :=
  ∀ d, c = .derivation d → d.localRef = none ∧
    ∀ entry ∈ d.hyps, entry = .unknown ∨ ∃ id ∈ earlier, entry = .step id

section Along

variable {P : List StepId → Content → Prop} {earlier earlier' : List StepId}
  {cs ds : List Content} {c : Content}

theorem along_append :
    Along P earlier (cs ++ ds) ↔
      Along P earlier cs ∧ Along P (earlier ++ cs.filterMap Content.stepId?) ds := by
  induction cs generalizing earlier with
  | nil => simp [Along]
  | cons c rest ih =>
      have hids : earlier ++ (c :: rest).filterMap Content.stepId? =
          (earlier ++ c.stepId?.toList) ++ rest.filterMap Content.stepId? := by
        rw [List.append_assoc]
        congr 1
        cases hc : c.stepId? <;> simp [hc]
      rw [List.cons_append, Along, Along, ih, hids, and_assoc]

theorem along_cons : Along P earlier (c :: cs) ↔
    P earlier c ∧ Along P (earlier ++ c.stepId?.toList) cs := Iff.rfl

/-- More steps before do no harm. -/
theorem Along.mono (hP : ∀ e e' : List StepId, e ⊆ e' → ∀ c, P e c → P e' c)
    (hsub : earlier ⊆ earlier') (h : Along P earlier cs) : Along P earlier' cs := by
  induction cs generalizing earlier earlier' with
  | nil => trivial
  | cons c rest ih =>
      refine ⟨hP _ _ hsub c h.1, ih ?_ h.2⟩
      exact List.append_subset.mpr
        ⟨List.subset_append_of_subset_left _ hsub, List.subset_append_right _ _⟩

/-- Contents that are changed one by one, with the names of the steps. -/
theorem Along.forall₂ {Q : List StepId → Content → Prop} {R : Content → Content → Prop}
    {f : StepId → StepId} (hR : ∀ c c', R c c' → c'.stepId? = c.stepId?.map f)
    (hPQ : ∀ e c c', R c c' → P e c → Q (e.map f) c') (hcs : List.Forall₂ R cs ds)
    (h : Along P earlier cs) : Along Q (earlier.map f) ds := by
  induction hcs generalizing earlier with
  | nil => trivial
  | cons hc _ ih =>
      refine ⟨hPQ _ _ _ hc h.1, ?_⟩
      have hrest := ih h.2
      rw [List.map_append] at hrest
      rw [hR _ _ hc]
      cases hid : Content.stepId? _ <;> simpa [hid] using hrest

end Along

theorem CitesOnly.mono {e e' : List StepId} (hsub : e ⊆ e') (c : Content) (h : CitesOnly e c) :
    CitesOnly e' c := by
  intro d hd
  refine ⟨(h d hd).1, fun entry hentry => ?_⟩
  rcases (h d hd).2 entry hentry with hunknown | ⟨id, hid, hstep⟩
  · exact Or.inl hunknown
  · exact Or.inr ⟨id, hsub hid, hstep⟩

/-- What is known of all entries is known of the names among them. -/
theorem CitesOnly.citesEarlier {e : List StepId} {c : Content} (h : CitesOnly e c) :
    CitesEarlier e c := by
  intro d hd id hid
  rcases (h d hd).2 _ (mem_cited.mp hid) with hunknown | ⟨id', hid', hstep⟩
  · cases hunknown
  · cases hstep
    exact hid'

theorem citesOnly_of_not_derivation {e : List StepId} {c : Content} (hc : c.derivation? = none) :
    CitesOnly e c := by
  intro d hd
  rw [hd] at hc
  cases hc

/-! ## Resolving local references -/

namespace Resolution

/-- Every step that was there leads to one that is kept. -/
structure Sound (r : Resolution) (earlier kept : List StepId) : Prop where
  citable : ∀ c ∈ r.earlier, c.isLocalRef = false → c.id ∈ kept
  redirects : ∀ p ∈ r.redirects, p.2 ∈ kept
  leads : ∀ id ∈ earlier, id ∈ kept ∨ ∃ p ∈ r.redirects, p.1 = id

variable {r r' : Resolution} {earlier kept : List StepId}

theorem sound_start : Sound {} [] [] :=
  ⟨fun _ hc => (by cases hc), fun _ hp => (by cases hp), fun _ hid => (by cases hid)⟩

/-- A step that is remembered is kept. -/
theorem Sound.remember (h : r.Sound earlier kept) (s : Step) :
    (r.remember s false).Sound (earlier ++ [s.id]) (kept ++ [s.id]) := by
  refine ⟨?_, ?_, ?_⟩
  · intro c hc hlocal
    rcases List.mem_append.mp hc with hc | hc
    · exact List.mem_append_left _ (h.citable c hc hlocal)
    · rw [List.mem_singleton.mp hc]
      exact List.mem_append_right _ List.mem_cons_self
  · intro p hp
    exact List.mem_append_left _ (h.redirects p hp)
  · intro id hid
    rcases List.mem_append.mp hid with hid | hid
    · exact (h.leads id hid).imp_left (List.mem_append_left _)
    · exact Or.inl (List.mem_append_right _ hid)

theorem find_ok {citables : List Citable} {target : Text} {found : Citable}
    (h : Citable.find citables target = .ok found) :
    found ∈ citables ∧ found.isLocalRef = false := by
  unfold Citable.find at h
  cases hfind : citables.find? (·.isNamed target) with
  | none => simp [hfind] at h
  | some c =>
      simp only [hfind] at h
      by_cases hlocal : c.isLocalRef = true
      · rw [if_pos hlocal] at h
        cases h
      · rw [if_neg hlocal] at h
        rw [← Except.ok.inj h]
        exact ⟨List.mem_of_find?_eq_some hfind, Bool.eq_false_iff.mpr hlocal⟩

/-- A local reference leads to the step that it stands for. -/
theorem Sound.redirect (h : r.Sound earlier kept) {s : Statement} {d : Derivation} {target : Text}
    {found : Citable} (hfound : Citable.find r.earlier target = .ok found)
    (messages : List Message) :
    (r.redirect s d found.id messages).Sound (earlier ++ [d.id]) kept := by
  obtain ⟨hmem, hlocal⟩ := find_ok hfound
  refine ⟨?_, ?_, ?_⟩
  · intro c hc hnot
    rcases List.mem_append.mp hc with hc | hc
    · exact h.citable c hc hnot
    · rw [List.mem_singleton.mp hc] at hnot
      cases hnot
  · intro p hp
    rcases List.mem_append.mp hp with hp | hp
    · exact h.redirects p hp
    · rw [List.mem_singleton.mp hp]
      exact h.citable found hmem hlocal
  · intro id hid
    rcases List.mem_append.mp hid with hid | hid
    · refine (h.leads id hid).imp_right ?_
      rintro ⟨p, hp, hpid⟩
      exact ⟨p, List.mem_append_left _ hp, hpid⟩
    · rw [List.mem_singleton.mp hid]
      exact Or.inr ⟨(d.id, found.id), List.mem_append_right _ List.mem_cons_self, rfl⟩

/-- A resolved entry names a step that is kept. -/
theorem Sound.resolveCitation (h : r.Sound earlier kept) {entry entry' : Citation}
    (resolved : r.resolveCitation entry = .ok entry')
    (cited : ∀ id, entry = .step id → id ∈ earlier) :
    entry' = .unknown ∨ ∃ id ∈ kept, entry' = .step id := by
  cases entry with
  | unknown => exact Or.inl (Except.ok.inj resolved).symm
  | step id =>
      refine Or.inr ⟨(r.redirects.lookup id).getD id, ?_, (Except.ok.inj resolved).symm⟩
      cases hlookup : r.redirects.lookup id with
      | some id' =>
          obtain ⟨l₁, l₂, hl, -⟩ := List.lookup_eq_some_iff.mp hlookup
          exact h.redirects (id, id') (by rw [hl]; simp)
      | none =>
          -- a step that is not redirected leads to itself
          rcases h.leads id (cited id rfl) with hid | ⟨p, hp, hpid⟩
          · exact hid
          · have := List.lookup_eq_none_iff.mp hlookup p hp
            simp [hpid] at this
  | localRef target =>
      rw [Resolution.resolveCitation] at resolved
      cases hfound : Citable.find r.earlier target with
      | error cause => simp [hfound, Except.map] at resolved
      | ok found =>
          rw [hfound] at resolved
          obtain ⟨hmem, hlocal⟩ := find_ok hfound
          exact Or.inr ⟨found.id, h.citable found hmem hlocal, (Except.ok.inj resolved).symm⟩

/-- A resolved hypothesis list names steps that are kept. -/
theorem Sound.resolveCitations (h : r.Sound earlier kept) {entries entries' : List Citation}
    (resolved : r.resolveCitations entries = (entries', none))
    (cited : ∀ id, .step id ∈ entries → id ∈ earlier) :
    ∀ entry ∈ entries', entry = .unknown ∨ ∃ id ∈ kept, entry = .step id := by
  induction entries generalizing entries' with
  | nil =>
      cases resolved
      intro entry hentry
      cases hentry
  | cons entry rest ih =>
      rw [Resolution.resolveCitations] at resolved
      cases hentry : r.resolveCitation entry with
      | error cause => simp [hentry] at resolved
      | ok entry' =>
          cases hrest : r.resolveCitations rest with
          | mk rest' failure =>
              simp only [hentry, hrest, Prod.mk.injEq] at resolved
              obtain ⟨rfl, rfl⟩ := resolved
              intro e he
              rcases List.mem_cons.mp he with rfl | he
              · exact h.resolveCitation hentry fun id hid => cited id (hid ▸ List.mem_cons_self)
              · exact ih hrest (fun id hid => cited id (List.mem_cons_of_mem _ hid)) e he

/-- After the pass all citations go backwards. -/
theorem Sound.passes {ss keptStatements : List Statement} (h : r.Sound earlier kept)
    (hpass : Passes r ss keptStatements r')
    (hcites : Along CitesEarlier earlier (ss.map Statement.content)) :
    Along CitesOnly kept (keptStatements.map Statement.content) := by
  induction hpass generalizing earlier kept with
  | done => trivial
  | other hs _ ih =>
      rw [List.map_cons, along_cons, Content.stepId?_of_not_step hs, Option.toList_none,
        List.append_nil] at hcites ⊢
      exact ⟨citesOnly_of_not_derivation (Content.derivation?_of_not_step hs), ih h hcites.2⟩
  | hypothesis hs _ ih =>
      rw [List.map_cons, along_cons, hs] at hcites ⊢
      exact ⟨citesOnly_of_not_derivation rfl, ih (h.remember _) hcites.2⟩
  | derivation hs hlocal resolved _ ih =>
      rw [List.map_cons, along_cons, hs] at hcites
      rw [List.map_cons, along_cons, Statement.citing_content hs]
      refine ⟨?_, ih (h.remember _) hcites.2⟩
      intro d hd
      cases hd
      refine ⟨hlocal, h.resolveCitations resolved fun id hid => ?_⟩
      exact hcites.1 _ rfl id (mem_cited.mpr hid)
  | localRef hs hlocal hfound _ ih =>
      -- the step is dropped, and nothing is kept in its place
      rw [List.map_cons, along_cons, hs] at hcites
      exact ih (h.redirect hfound _) hcites.2

end Resolution

namespace Worksheet

variable {ws ws' : Worksheet} {db : Database} {st : Settings}

/-- All citations of the worksheet go backwards. -/
def CitesBackwards (ws : Worksheet) : Prop := Along CitesOnly [] ws.contents

/-! ## Loading -/

theorem citesEarlier_readText {text : Text} (hnil : ws.statements = [])
    (h : ws.readText db st text = .ok ws') : Along CitesEarlier [] ws'.contents := by
  refine keeps_readText (I := fun ws => Along CitesEarlier [] ws.contents) h ?_ ?_
  · rw [contents, hnil]
    trivial
  · rintro b - c ws₁ ws₂ - - ⟨hadm, hextends⟩ hcites
    have hcontents : ws₂.contents = ws₁.contents ++ [c] := hextends.contents
    rw [hcontents, along_append, List.nil_append, ← stepIds_eq]
    refine ⟨hcites, ?_, trivial⟩
    rintro d rfl id hid
    exact hadm.2.2 id hid

/-- Resolving local references leaves citations that go backwards. -/
theorem citesBackwards_resolve (nodup : ws.ids.Nodup) (hcites : Along CitesEarlier [] ws.contents)
    (h : ws.resolveLocalRefs = .ok ws') : ws'.CitesBackwards := by
  obtain ⟨kept, r, passes, keeps⟩ := resolveLocalRefs_ok h nodup
  rw [CitesBackwards, keeps.contents]
  exact Resolution.sound_start.passes passes hcites

/-! ## Edits and renumbering -/

/-- A step that is revised cites what it cited. -/
theorem CitesOnly.revisedTo {e : List StepId} {c c' : Content} (h : c.RevisedTo c')
    (hcites : CitesOnly e c) : CitesOnly e c' := by
  cases h with
  | refl => exact hcites
  | hypothesis => exact citesOnly_of_not_derivation rfl
  | derivation hid hhyps hlocal _ =>
      intro d hd
      cases hd
      obtain ⟨hnone, hcited⟩ := hcites _ rfl
      refine ⟨?_, ?_⟩
      · rcases hlocal with hsame | hgone
        · rw [hsame, hnone]
        · exact hgone
      · rw [hhyps]
        exact hcited

theorem CitesBackwards.revise (h : ws.CitesBackwards) (revises : ws.Revises ws') :
    ws'.CitesBackwards := by
  have hcontents : List.Forall₂ Content.RevisedTo ws.contents ws'.contents := by
    rw [contents_eq, contents_eq, List.forall₂_map_left_iff, List.forall₂_map_right_iff]
    exact revises.imp fun _ _ hR => hR.2
  have hids : ∀ c c' : Content, c.RevisedTo c' → c'.stepId? = c.stepId?.map id := by
    intro c c' hc
    rw [Option.map_id, hc.stepId?, id]
  refine Along.forall₂ hids ?_ hcontents h
  intro e c c' hc hcites
  rw [List.map_id]
  exact CitesOnly.revisedTo hc hcites

theorem CitesBackwards.renumber {interval changed : Nat} (h : ws.CitesBackwards)
    (hrenumber : ws.renumber interval = .ok (ws', changed)) : ws'.CitesBackwards := by
  obtain ⟨-, -, rfl⟩ := renumber_ok hrenumber
  let names := ws.newNames interval
  have hcontents : List.Forall₂ (fun c c' => c' = names.applyContent c) ws.contents
      (ws.statements.map names.applyStatement |>.map Statement.content) := by
    rw [contents, List.map_map, List.forall₂_map_left_iff, List.forall₂_map_right_iff]
    exact List.forall₂_same.mpr fun s _ => names.applyStatement_content s
  rw [CitesBackwards, contents_respan]
  refine Along.forall₂ (f := names.apply) ?_ ?_ hcontents h
  · rintro c c' rfl
    exact names.stepId?_applyContent c
  · rintro e c c' rfl hcites d hd
    cases c with
    | derivation d₀ =>
        cases hd
        obtain ⟨hnone, hcited⟩ := hcites d₀ rfl
        refine ⟨hnone, fun entry hentry => ?_⟩
        obtain ⟨entry₀, hmem, rfl⟩ := List.mem_map.mp hentry
        rcases hcited entry₀ hmem with rfl | ⟨id, hid, rfl⟩
        · exact Or.inl rfl
        · exact Or.inr ⟨names.apply id, List.mem_map_of_mem hid, rfl⟩
    | _ => cases hd

/-- A statement that cites only what stands before it may be put in, perhaps in the place of
others that are not steps. -/
theorem CitesBackwards.insert {before after : List Statement} {id : StatementId} {c : Content}
    (h : ws.CitesBackwards) (dropped : List Statement)
    (hss : ws.statements = before ++ (dropped ++ after))
    (hdropped : ∀ t ∈ dropped, t.stepId? = none)
    (hentries : ws'.entries =
      before.map Statement.entry ++ (id, c) :: after.map Statement.entry)
    (hc : CitesOnly (before.filterMap Statement.stepId?) c) : ws'.CitesBackwards := by
  have hids : ∀ ss : List Statement,
      (ss.map Statement.content).filterMap Content.stepId? = ss.filterMap Statement.stepId? := by
    intro ss
    rw [List.filterMap_map]
    rfl
  have hnone : dropped.filterMap Statement.stepId? = [] := by
    rw [List.filterMap_eq_nil_iff]
    exact hdropped
  rw [CitesBackwards, contents, hss, List.map_append, List.map_append, along_append, along_append,
    hids, hids, hnone, List.append_nil, List.nil_append] at h
  rw [CitesBackwards, contents_of_entries hentries, along_append, along_cons, hids,
    List.nil_append]
  refine ⟨h.1, hc, h.2.2.mono (fun _ _ hsub c => CitesOnly.mono hsub c) ?_⟩
  exact List.subset_append_left _ _

theorem CitesBackwards.edit {e : Edit} (h : ws.CitesBackwards) (hchange : ws.Changes e ws') :
    ws'.CitesBackwards := by
  have none_dropped : ∀ t ∈ ([] : List Statement), t.stepId? = none := fun t ht => (by cases ht)
  cases hchange with
  | revise _ revises _ => exact h.revise revises
  | insertStep split _ cited hentries _ =>
      refine h.insert [] split.statements none_dropped hentries ?_
      intro d hd
      cases hd
      refine ⟨rfl, fun entry hentry => Or.inr ?_⟩
      obtain ⟨id, hid, rfl⟩ := List.mem_map.mp hentry
      exact ⟨id, cited id hid, rfl⟩
  | insertDistinctVars split _ hentries _ =>
      exact h.insert [] split none_dropped hentries (citesOnly_of_not_derivation rfl)
  | insertProof split _ _ hentries _ =>
      exact h.insert [] split none_dropped hentries (citesOnly_of_not_derivation rfl)
  | replaceProof split hold hentries _ =>
      refine h.insert [_] split ?_ hentries (citesOnly_of_not_derivation rfl)
      intro t ht
      rw [List.mem_singleton.mp ht, Statement.stepId?_eq]
      exact Content.stepId?_of_not_step (Content.step?_of_isProof hold)

theorem citesBackwards_load {request : Request} {text : Text}
    (clean : (load db st request text).broken = false) :
    (load db st request text).CitesBackwards := by
  obtain ⟨read, selected, ws, c, ids, hread, hresolve, -, -, hload⟩ := load_clean clean
  obtain ⟨proved, hshaped⟩ := shaped_readText hread
  have hnodup : ({ read with selected := selected } : Worksheet).ids.Nodup := hshaped.nodup
  have hread' : Along CitesEarlier [] read.contents := citesEarlier_readText rfl hread
  have hcites : Along CitesEarlier [] ({ read with selected := selected } : Worksheet).contents :=
    hread'
  have hresolved : ws.CitesBackwards := citesBackwards_resolve hnodup hcites hresolve
  have hlevels := hresolved.revise (revises_measureLevels ws)
  rw [hload]
  exact hlevels

theorem citesBackwards_afterCalls {request : Request} {text : Text}
    (clean : (load db st request text).broken = false) (calls : List Call) :
    ((load db st request text).afterCalls calls).CitesBackwards := by
  obtain ⟨proved, hshaped⟩ := shaped_load clean
  refine hshaped.induct (moves_afterCalls _ calls) ?_ ?_ ?_ (citesBackwards_load clean)
  · intro st ws e ws' proved _ hshaped granted h
    exact h.edit (changes_of_applyEdit hshaped.nodup granted)
  · intro ws h
    exact h.revise (revises_measureLevels ws)
  · intro ws interval ws' changed granted h
    exact h.renumber granted

/-- In a worksheet that loads cleanly, whatever calls follow, there are no local references, and
every entry of a hypothesis list is unknown or names a step that stands earlier. -/
theorem cites_backwards {request : Request} {text : Text}
    (clean : (load db st request text).broken = false) (calls : List Call)
    {before after : List Statement} {s : Statement} {d : Derivation}
    (split : ((load db st request text).afterCalls calls).statements = before ++ s :: after)
    (hd : s.derivation? = some d) :
    d.localRef = none ∧ ∀ entry ∈ d.hyps,
      entry = .unknown ∨ ∃ t ∈ before, ∃ id, t.stepId? = some id ∧ entry = .step id := by
  have h := citesBackwards_afterCalls clean calls
  rw [CitesBackwards, contents, split, List.map_append, along_append, List.map_cons,
    along_cons] at h
  obtain ⟨hnone, hcited⟩ := h.2.1 d (Content.derivation?_eq_some.mp hd)
  refine ⟨hnone, fun entry hentry => ?_⟩
  rcases hcited entry hentry with hunknown | ⟨id, hid, hstep⟩
  · exact Or.inl hunknown
  · rw [List.nil_append, List.filterMap_map] at hid
    obtain ⟨t, ht, htid⟩ := List.mem_filterMap.mp hid
    exact Or.inr ⟨t, ht, id, htid, hstep⟩

/-- The short worksheet, renumbered. -/
def shortRenumbered : Worksheet := (load .empty {} {} shortText).afterCalls [.renumber 10]

theorem cites_backwards_shortText :
    (load .empty {} {} shortText).broken = false ∧
      ∃ before s after d,
        ((load .empty {} {} shortText).afterCalls [.renumber 10]).statements =
            before ++ s :: after ∧
          s.derivation? = some d ∧ d.localRef = none ∧ ∀ entry ∈ d.hyps,
            entry = .unknown ∨ ∃ t ∈ before, ∃ id, t.stepId? = some id ∧ entry = .step id := by
  have split : shortRenumbered.statements =
      shortRenumbered.statements.take 3 ++
        shortRenumbered.statements[3]?.getD default :: shortRenumbered.statements.drop 4 := by
    decide +kernel
  have hd : (shortRenumbered.statements[3]?.getD default).derivation? =
      some ((shortRenumbered.statements[3]?.getD default).derivation?.getD default) := by
    decide +kernel
  exact ⟨shortText_loads, _, _, _, _, split, hd,
    cites_backwards shortText_loads [.renumber 10] split hd⟩

end Worksheet

end ProofSheet
