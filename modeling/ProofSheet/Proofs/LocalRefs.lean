import ProofSheet.Proofs.Contents
import ProofSheet.Worksheet.LocalRef

set_option autoImplicit false

/-! # What resolving local references does

The pass over the statements keeps some of them, with resolved hypothesis lists, and drops the
ones that are local references (`Resolution.Passes`). A pass that succeeds is all there is to
resolving the local references of a worksheet (`Worksheet.resolveLocalRefs_ok`). A worksheet
without local references only has its statements laid out
(`Worksheet.resolveLocalRefs_of_settled`).
-/

namespace ProofSheet

/-- The derivation step with another hypothesis list. -/
def Derivation.citing (d : Derivation) (hyps : List Citation) : Derivation := { d with hyps := hyps }

/-- The statement of a derivation step with another hypothesis list. Its lead is written anew,
unless the list is the one that was there. -/
def Statement.citing (s : Statement) (d : Derivation) (hyps : List Citation) : Statement :=
  if hyps = d.hyps then s else { s with content := .derivation (d.citing hyps) }.refreshLead

theorem Statement.citing_content {s : Statement} {d : Derivation} (h : s.content = .derivation d)
    (hyps : List Citation) : (s.citing d hyps).content = .derivation (d.citing hyps) := by
  unfold Statement.citing
  by_cases hsame : hyps = d.hyps
  · rw [if_pos hsame, h, hsame, Derivation.citing]
  · rw [if_neg hsame]
    rfl

theorem Statement.citing_stepId? {s : Statement} {d : Derivation}
    (h : s.content = .derivation d) (hyps : List Citation) :
    (s.citing d hyps).stepId? = some d.id := by
  rw [Statement.stepId?_eq, Statement.citing_content h]
  rfl

theorem Statement.citing_id (s : Statement) (d : Derivation) (hyps : List Citation) :
    (s.citing d hyps).id = s.id := by
  unfold Statement.citing
  split <;> rfl

/-- The derivation step refers to nothing by a local reference. -/
def Derivation.IsSettled (d : Derivation) : Prop :=
  d.localRef = none ∧ ∀ target, .localRef target ∉ d.hyps

theorem Content.eq_hypothesis {c : Content} {step : Step} (hder : c.derivation? = none)
    (hstep : c.step? = some step) : c = .hypothesis step := by
  cases c with
  | hypothesis s => rw [Option.some.inj hstep]
  | derivation d => cases hder
  | _ => cases hstep

namespace Resolution

/-- What is known after a local reference, apart from the messages. -/
def redirect (r : Resolution) (s : Statement) (d : Derivation) (found : StepId)
    (messages : List Message) : Resolution :=
  remember
    { r with
      redirects := r.redirects ++ [(d.id, found)]
      removed := r.removed ++ [s.id]
      messages := messages } d.toStep true

/-- The pass goes over some statements and keeps some of them. -/
inductive Passes : Resolution → List Statement → List Statement → Resolution → Prop where
  | done (r : Resolution) : Passes r [] [] r
  | other {r r' : Resolution} {s : Statement} {rest kept : List Statement}
      (hs : s.content.step? = none) (next : Passes r rest kept r') :
      Passes r (s :: rest) (s :: kept) r'
  | hypothesis {r r' : Resolution} {s : Statement} {rest kept : List Statement} {step : Step}
      (hs : s.content = .hypothesis step) (next : Passes (r.remember step false) rest kept r') :
      Passes r (s :: rest) (s :: kept) r'
  | derivation {r r' : Resolution} {s : Statement} {rest kept : List Statement} {d : Derivation}
      {hyps : List Citation} (hs : s.content = .derivation d) (hlocal : d.localRef = none)
      (resolved : r.resolveCitations d.hyps = (hyps, none))
      (next : Passes (r.remember d.toStep false) rest kept r') :
      Passes r (s :: rest) (s.citing d hyps :: kept) r'
  | localRef {r r' : Resolution} {s : Statement} {rest kept : List Statement} {d : Derivation}
      {target : Text} {found : Citable} {messages : List Message} (hs : s.content = .derivation d)
      (hlocal : d.localRef = some target) (hfound : Citable.find r.earlier target = .ok found)
      (next : Passes (r.redirect s d found.id messages) rest kept r') :
      Passes r (s :: rest) kept r'

/-- Writes the lead of a resolved statement anew, if what it says has changed. -/
def refresh (old new : Statement) : Statement :=
  if new.content = old.content then new else new.refreshLead

theorem refresh_citing {s : Statement} {d : Derivation} (h : s.content = .derivation d)
    (hyps : List Citation) :
    refresh s (s.mapDerivation ({ · with hyps := hyps })) = s.citing d hyps := by
  have hmap : s.mapDerivation ({ · with hyps := hyps }) =
      { s with content := .derivation (d.citing hyps) } := by
    rw [Statement.mapDerivation, h]
    rfl
  rw [hmap, refresh, Statement.citing]
  by_cases hsame : hyps = d.hyps
  · subst hsame
    rw [if_pos (by rw [h]; rfl), if_pos rfl]
    cases s
    cases h
    rfl
  · rw [if_neg hsame, if_neg]
    rw [h]
    intro heq
    exact hsame (congrArg Derivation.hyps (Content.derivation.inj heq))

theorem refresh_id (old new : Statement) : (refresh old new).id = new.id := by
  unfold refresh
  split <;> rfl

@[simp] theorem refresh_self (s : Statement) : refresh s s = s := if_pos rfl

/-- What the pass does to one statement: it keeps the statement or drops it. -/
theorem resolveStatement_ok {label : Option Text} {r r₁ : Resolution} {s s' : Statement}
    (h : r.resolveStatement label s = (s', .ok r₁)) :
    s'.id = s.id ∧
      ((r₁.removed = r.removed ∧ ∀ rest kept r', Passes r₁ rest kept r' →
          Passes r (s :: rest) (refresh s s' :: kept) r') ∨
        (r₁.removed = r.removed ++ [s.id] ∧ ∀ rest kept r', Passes r₁ rest kept r' →
          Passes r (s :: rest) kept r')) := by
  unfold resolveStatement at h
  cases hder : s.derivation? with
  | none =>
      cases hstep : s.step? with
      | none =>
          simp only [hder, hstep, Prod.mk.injEq, Except.ok.injEq] at h
          obtain ⟨rfl, rfl⟩ := h
          refine ⟨rfl, Or.inl ⟨rfl, fun rest kept r' next => ?_⟩⟩
          rw [refresh_self]
          exact .other hstep next
      | some step =>
          simp only [hder, hstep, Prod.mk.injEq, Except.ok.injEq] at h
          obtain ⟨rfl, rfl⟩ := h
          refine ⟨rfl, Or.inl ⟨rfl, fun rest kept r' next => ?_⟩⟩
          rw [refresh_self]
          exact .hypothesis (Content.eq_hypothesis hder hstep) next
  | some d =>
      have hs : s.content = .derivation d := Content.derivation?_eq_some.mp hder
      simp only [hder] at h
      cases hres : r.resolveCitations d.hyps with
      | mk hyps failure =>
          cases failure with
          | some cause => simp [hres] at h
          | none =>
              simp only [hres, Prod.mk.injEq] at h
              obtain ⟨rfl, h⟩ := h
              refine ⟨rfl, ?_⟩
              rw [refresh_citing hs]
              unfold resolveStep at h
              cases hlocal : d.localRef with
              | none =>
                  simp only [hlocal, mapError_ok, Except.ok.injEq] at h
                  subst h
                  exact Or.inl ⟨rfl, fun rest kept r' next => .derivation hs hlocal hres next⟩
              | some target =>
                  simp only [hlocal] at h
                  cases hfound : Citable.find r.earlier target with
                  | error cause => simp [hfound, mapError_error] at h
                  | ok found =>
                      simp only [hfound, mapError_ok, Except.ok.injEq] at h
                      subst h
                      exact Or.inr ⟨rfl, fun rest kept r' next =>
                        .localRef hs hlocal hfound next⟩

/-- What the pass keeps are the statements whose ids are not removed. -/
theorem passes_resolveAll {label : Option Text} {r r' : Resolution} {ss resolved : List Statement}
    (h : r.resolveAll label ss = (resolved, .ok r')) (nodup : (ss.map Statement.id).Nodup)
    (fresh : ∀ s ∈ ss, s.id ∉ r.removed) :
    Passes r ss ((List.zipWith refresh ss resolved).filter (!r'.removed.contains ·.id)) r' ∧
      ∀ id, (∀ s ∈ ss, s.id ≠ id) → (id ∈ r'.removed ↔ id ∈ r.removed) := by
  induction ss generalizing r resolved with
  | nil =>
      cases h
      exact ⟨.done _, fun _ _ => Iff.rfl⟩
  | cons s rest ih =>
      rw [resolveAll] at h
      cases hstatement : r.resolveStatement label s with
      | mk s' outcome =>
          cases outcome with
          | error f => simp [hstatement] at h
          | ok r₁ =>
              simp only [hstatement] at h
              cases hrest : r₁.resolveAll label rest with
              | mk rest' outcome' =>
                  simp only [hrest, Prod.mk.injEq] at h
                  obtain ⟨rfl, rfl⟩ := h
                  rw [List.map_cons, List.nodup_cons] at nodup
                  obtain ⟨hnew, hnodup⟩ := nodup
                  have apart : ∀ t ∈ rest, t.id ≠ s.id := fun t ht heq =>
                    hnew (heq ▸ List.mem_map_of_mem ht)
                  obtain ⟨hid, ⟨hremoved, keep⟩ | ⟨hremoved, drop⟩⟩ := resolveStatement_ok hstatement
                  · -- the statement is kept, and its id is not removed later either
                    have fresh₁ : ∀ t ∈ rest, t.id ∉ r₁.removed := by
                      intro t ht
                      rw [hremoved]
                      exact fresh t (List.mem_cons_of_mem _ ht)
                    obtain ⟨next, same⟩ := ih hrest hnodup fresh₁
                    have stays : s'.id ∉ r'.removed := by
                      rw [hid, same s.id apart, hremoved]
                      exact fresh s List.mem_cons_self
                    constructor
                    · rw [List.zipWith_cons_cons, List.filter_cons_of_pos]
                      · exact keep _ _ _ next
                      · simpa [refresh_id] using stays
                    · intro id hne
                      rw [same id fun t ht => hne t (List.mem_cons_of_mem _ ht), hremoved]
                  · -- the statement is dropped, and its id stays removed
                    have fresh₁ : ∀ t ∈ rest, t.id ∉ r₁.removed := by
                      intro t ht
                      rw [hremoved, List.mem_append, List.mem_singleton]
                      rintro (hold | heq)
                      · exact fresh t (List.mem_cons_of_mem _ ht) hold
                      · exact apart t ht heq
                    obtain ⟨next, same⟩ := ih hrest hnodup fresh₁
                    have goes : s'.id ∈ r'.removed := by
                      rw [hid, same s.id apart, hremoved]
                      simp
                    constructor
                    · rw [List.zipWith_cons_cons, List.filter_cons_of_neg]
                      · exact drop _ _ _ next
                      · simpa [refresh_id] using goes
                    · intro id hne
                      have hs : id ≠ s.id := (hne s List.mem_cons_self).symm
                      rw [same id fun t ht => hne t (List.mem_cons_of_mem _ ht), hremoved]
                      simp [hs]

theorem resolveCitations_of_settled {r : Resolution} (hr : r.redirects = [])
    {hyps : List Citation} (h : ∀ target, .localRef target ∉ hyps) :
    r.resolveCitations hyps = (hyps, none) := by
  induction hyps with
  | nil => rfl
  | cons entry rest ih =>
      have hentry : r.resolveCitation entry = .ok entry := by
        cases entry with
        | step id =>
            rw [resolveCitation, hr]
            rfl
        | unknown => rfl
        | localRef target => exact absurd List.mem_cons_self (h target)
      rw [resolveCitations, hentry, ih fun target ht => h target (List.mem_cons_of_mem _ ht)]

/-- Statements that refer to nothing by a local reference are passed over. -/
theorem resolveAll_of_settled (label : Option Text) (r : Resolution) {ss : List Statement}
    (hr : r.redirects = [])
    (settled : ∀ s ∈ ss, ∀ d, s.content = .derivation d → d.IsSettled) :
    ∃ r', r.resolveAll label ss = (ss, .ok r') ∧ r'.removed = r.removed := by
  induction ss generalizing r with
  | nil => exact ⟨r, rfl, rfl⟩
  | cons s rest ih =>
      have hrest : ∀ t ∈ rest, ∀ d, t.content = .derivation d → d.IsSettled :=
        fun t ht => settled t (List.mem_cons_of_mem _ ht)
      obtain ⟨r₁, hs, hr₁, hremoved⟩ : ∃ r₁, r.resolveStatement label s = (s, .ok r₁) ∧
          r₁.redirects = [] ∧ r₁.removed = r.removed := by
        unfold resolveStatement
        cases hder : s.derivation? with
        | none =>
            cases s.step? with
            | none => exact ⟨r, rfl, hr, rfl⟩
            | some step => exact ⟨_, rfl, hr, rfl⟩
        | some d =>
            have hcontent : s.content = .derivation d := Content.derivation?_eq_some.mp hder
            obtain ⟨hlocal, hhyps⟩ := settled s List.mem_cons_self d hcontent
            refine ⟨r.remember d.toStep false, ?_, hr, rfl⟩
            have hsame : s.mapDerivation ({ · with hyps := d.hyps }) = s := by
              rw [Statement.mapDerivation, hcontent]
              cases s
              cases hcontent
              rfl
            simp only [resolveCitations_of_settled hr hhyps, hsame]
            rw [resolveStep, hlocal]
            rfl
      obtain ⟨r', hall, hremoved'⟩ := ih r₁ hr₁ hrest
      refine ⟨r', ?_, hremoved'.trans hremoved⟩
      rw [resolveAll, hs]
      simp only [hall]

/-! ## What is kept -/

theorem Passes.ids_sublist {r r' : Resolution} {ss kept : List Statement}
    (h : Passes r ss kept r') : (kept.map Statement.id).Sublist (ss.map Statement.id) := by
  induction h with
  | done => exact .slnil
  | other hs _ ih => exact ih.cons_cons _
  | hypothesis hs _ ih => exact ih.cons_cons _
  | derivation hs hlocal resolved _ ih =>
      rw [List.map_cons, List.map_cons, Statement.citing_id]
      exact ih.cons_cons _
  | localRef hs hlocal hfound _ ih => exact ih.cons _

/-- Every statement that is kept says what it said, but for a hypothesis list. -/
theorem Passes.mem {r r' : Resolution} {ss kept : List Statement} (h : Passes r ss kept r')
    {s' : Statement} (hs' : s' ∈ kept) :
    ∃ s ∈ ss, s'.id = s.id ∧ (s' = s ∨ ∃ d hyps, s.content = .derivation d ∧
      d.localRef = none ∧ s' = s.citing d hyps) := by
  induction h with
  | done => cases hs'
  | other hs _ ih | hypothesis hs _ ih =>
      rcases List.mem_cons.mp hs' with rfl | hmem
      · exact ⟨_, List.mem_cons_self, rfl, Or.inl rfl⟩
      · obtain ⟨s, hs, hrel⟩ := ih hmem
        exact ⟨s, List.mem_cons_of_mem _ hs, hrel⟩
  | derivation hs hlocal resolved _ ih =>
      rcases List.mem_cons.mp hs' with rfl | hmem
      · exact ⟨_, List.mem_cons_self, Statement.citing_id .., Or.inr ⟨_, _, hs, hlocal, rfl⟩⟩
      · obtain ⟨s, hs, hrel⟩ := ih hmem
        exact ⟨s, List.mem_cons_of_mem _ hs, hrel⟩
  | localRef hs hlocal hfound _ ih =>
      obtain ⟨s, hs, hrel⟩ := ih hs'
      exact ⟨s, List.mem_cons_of_mem _ hs, hrel⟩

theorem Passes.stepIds_sublist {r r' : Resolution} {ss kept : List Statement}
    (h : Passes r ss kept r') :
    (kept.filterMap Statement.stepId?).Sublist (ss.filterMap Statement.stepId?) := by
  induction h with
  | done => exact .slnil
  | other hs _ ih =>
      have hid := Content.stepId?_of_not_step hs
      rw [← Statement.stepId?_eq] at hid
      rw [List.filterMap_cons_none hid, List.filterMap_cons_none hid]
      exact ih
  | hypothesis hs _ ih =>
      have hid : Statement.stepId? _ = some _ := congrArg Content.stepId? hs
      rw [List.filterMap_cons_some hid, List.filterMap_cons_some hid]
      exact ih.cons_cons _
  | derivation hs hlocal resolved _ ih =>
      have hid : Statement.stepId? _ = some _ := congrArg Content.stepId? hs
      rw [List.filterMap_cons_some hid, List.filterMap_cons_some (Statement.citing_stepId? hs _)]
      exact ih.cons_cons _
  | localRef hs hlocal hfound _ ih =>
      have hid : Statement.stepId? _ = some _ := congrArg Content.stepId? hs
      rw [List.filterMap_cons_some hid]
      exact ih.cons _

/-- No hypothesis is dropped. -/
theorem Passes.hypotheses {r r' : Resolution} {ss kept : List Statement}
    (h : Passes r ss kept r') :
    kept.countP Statement.isHypothesis = ss.countP Statement.isHypothesis := by
  induction h with
  | done => rfl
  | other hs _ ih | hypothesis hs _ ih => rw [List.countP_cons, List.countP_cons, ih]
  | derivation hs hlocal resolved _ ih =>
      rw [List.countP_cons, List.countP_cons, ih, Statement.isHypothesis_eq,
        Statement.isHypothesis_eq, Statement.citing_content hs, hs]
      rfl
  | localRef hs hlocal hfound _ ih =>
      rw [List.countP_cons, ih, Statement.isHypothesis_eq, hs]
      rfl

end Resolution

namespace Worksheet

/-- A worksheet keeps some of its statements, laid out anew, and with them the indexes that
resolving local references does not touch. -/
structure Keeps (ws : Worksheet) (kept : List Statement) (ws' : Worksheet) : Prop where
  statements : ws'.statements = respanFrom 0 0 kept
  qed : ws'.qed = ws.qed
  hypothesisCount : ws'.hypothesisCount = ws.hypothesisCount
  greatestStep : ws'.greatestStep = ws.greatestStep
  nextId : ws'.nextId = ws.nextId
  theoremLabel : ws'.theoremLabel = ws.theoremLabel
  broken : ws'.broken = ws.broken

theorem Keeps.contents {ws ws' : Worksheet} {kept : List Statement} (h : ws.Keeps kept ws') :
    ws'.contents = kept.map Statement.content := by
  rw [Worksheet.contents, h.statements]
  exact map_respanFrom Statement.content (fun _ _ _ => rfl) 0 0 kept

theorem Keeps.ids {ws ws' : Worksheet} {kept : List Statement} (h : ws.Keeps kept ws') :
    ws'.ids = kept.map Statement.id := by
  rw [Worksheet.ids, h.statements]
  exact map_respanFrom Statement.id (fun _ _ _ => rfl) 0 0 kept

theorem Keeps.entries {ws ws' : Worksheet} {kept : List Statement} (h : ws.Keeps kept ws') :
    ws'.entries = kept.map Statement.entry := by
  rw [Worksheet.entries, h.statements]
  exact map_respanFrom Statement.entry (fun _ _ _ => rfl) 0 0 kept

theorem keeps_remove (ws : Worksheet) (ms : List Message) (ss : List Statement)
    (removed : List StatementId) :
    ws.Keeps (ss.filter (!removed.contains ·.id))
      ((respan { ws with statements := ss, messages := ms }).remove removed) := by
  unfold remove
  by_cases hempty : removed.isEmpty = true
  · have hnil : removed = [] := List.isEmpty_iff.mp hempty
    rw [if_pos hempty, hnil]
    refine ⟨?_, rfl, rfl, rfl, rfl, rfl, rfl⟩
    show respanFrom 0 0 ss = _
    congr 1
    exact (List.filter_eq_self.mpr fun s _ => by simp).symm
  · rw [if_neg hempty]
    refine ⟨?_, rfl, rfl, rfl, rfl, rfl, rfl⟩
    -- laying out does not change which ids are removed
    have filter_unplaced : ∀ l : List Statement,
        (l.filter (!removed.contains ·.id)).map Statement.unplaced =
          (l.map Statement.unplaced).filter (!removed.contains ·.id) := by
      intro l
      rw [List.filter_map]
      rfl
    apply respanFrom_congr
    rw [filter_unplaced, filter_unplaced]
    exact congrArg _ (map_unplaced_respanFrom 0 0 ss)

/-- Resolving local references is a pass over the statements. Those that it removes leave the
worksheet after all have been laid out. -/
theorem resolveLocalRefs_removes {ws ws' : Worksheet} (h : ws.resolveLocalRefs = .ok ws')
    (nodup : ws.ids.Nodup) :
    ∃ resolved r ms,
      Resolution.Passes {} ws.statements (resolved.filter (!r.removed.contains ·.id)) r ∧
        ws' = (respan { ws with statements := resolved, messages := ms }).remove r.removed := by
  unfold resolveLocalRefs at h
  cases hall : Resolution.resolveAll {} ws.theoremLabel ws.statements with
  | mk resolved outcome =>
      rw [hall] at h
      cases outcome with
      | error f => cases h
      | ok r =>
          obtain ⟨passes, -⟩ :=
            Resolution.passes_resolveAll hall nodup fun s _ => List.not_mem_nil
          exact ⟨_, r, _, passes, (Except.ok.inj h).symm⟩

/-- Resolving local references is a pass over the statements, of which some are kept. -/
theorem resolveLocalRefs_ok {ws ws' : Worksheet} (h : ws.resolveLocalRefs = .ok ws')
    (nodup : ws.ids.Nodup) :
    ∃ kept r, Resolution.Passes {} ws.statements kept r ∧ ws.Keeps kept ws' := by
  obtain ⟨resolved, r, ms, passes, rfl⟩ := resolveLocalRefs_removes h nodup
  exact ⟨_, r, passes, keeps_remove ws ms resolved r.removed⟩

/-- A worksheet that refers to nothing by a local reference only has its statements laid out. -/
theorem resolveLocalRefs_of_settled {ws : Worksheet}
    (settled : ∀ s ∈ ws.statements, ∀ d, s.content = .derivation d → d.IsSettled) :
    ∃ ws', ws.resolveLocalRefs = .ok ws' ∧ ws.Keeps ws.statements ws' := by
  obtain ⟨r, hall, hremoved⟩ :=
    Resolution.resolveAll_of_settled ws.theoremLabel {} rfl settled
  have keeps := ws.keeps_remove (ws.messages ++ r.messages) ws.statements r.removed
  have all : ws.statements.filter (!r.removed.contains ·.id) = ws.statements := by
    rw [hremoved]
    exact List.filter_eq_self.mpr fun s _ => by simp
  have same : List.zipWith Resolution.refresh ws.statements ws.statements = ws.statements := by
    rw [List.zipWith_self]
    simp
  rw [all] at keeps
  unfold resolveLocalRefs
  rw [hall]
  refine ⟨_, rfl, ?_⟩
  change ws.Keeps ws.statements
    ((respan
      { ws with
        statements := List.zipWith Resolution.refresh ws.statements ws.statements
        messages := ws.messages ++ r.messages }).remove r.removed)
  rw [same]
  exact keeps

end Worksheet

end ProofSheet
