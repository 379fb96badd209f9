import ProofSheet.Proofs.CursorPlacement
import ProofSheet.Proofs.Stages

set_option autoImplicit false

/-! # Where local references cannot be resolved

The pass over the statements replaces entries as it goes, and it stops at the first local reference
that stands for no step (`Stops`). All texts are as they were read then, and so is everything else
but the entries that the pass has met before (`Stops.alike`). So the statements are as they were
read exactly if none of those entries says something through a local reference
(`Worksheet.unresolved_load_iff`).
-/

namespace ProofSheet

/-- The pass over statements stops at a local reference that stands for no step. The statements are
given as they were and as they are then, with the entries that were met before, each with the
contents before its step. -/
inductive Stops : List Content → List Statement → List Statement →
    List (List Content × Citation) → Prop where
  /-- An entry of a hypothesis list stands for no step. -/
  | atEntry {before : List Content} {s : Statement} {ss : List Statement} {d : Derivation}
      {done done' rest : List Citation} {target : Text} (hs : s.content = .derivation d)
      (split : d.hyps = done ++ .localRef target :: rest)
      (replaced : List.Forall₂ (Citation.Replaced before) done done')
      (nothing : ¬∃ id, StandsFor before target id) :
      Stops before (s :: ss) (s.mapDerivation (·.citing (done' ++ .localRef target :: rest)) :: ss)
        (done.map (before, ·))
  /-- A step that is a local reference stands for no step. -/
  | atStep {before : List Content} {s : Statement} {ss : List Statement} {d : Derivation}
      {hyps : List Citation} {target : Text} (hs : s.content = .derivation d)
      (replaced : List.Forall₂ (Citation.Replaced before) d.hyps hyps)
      (hlocal : d.localRef = some target) (nothing : ¬∃ id, StandsFor before target id) :
      Stops before (s :: ss) (s.mapDerivation (·.citing hyps) :: ss) (d.hyps.map (before, ·))
  /-- The entries of a step are replaced, and the pass goes on. -/
  | derivation {before : List Content} {s : Statement} {ss ss' : List Statement} {d : Derivation}
      {hyps : List Citation} {met : List (List Content × Citation)} (hs : s.content = .derivation d)
      (replaced : List.Forall₂ (Citation.Replaced before) d.hyps hyps)
      (stands : ∀ target, d.localRef = some target → ∃ id, StandsFor before target id)
      (next : Stops (before ++ [s.content]) ss ss' met) :
      Stops before (s :: ss) (s.mapDerivation (·.citing hyps) :: ss')
        (d.hyps.map (before, ·) ++ met)
  | other {before : List Content} {s : Statement} {ss ss' : List Statement}
      {met : List (List Content × Citation)} (hs : s.derivation? = none)
      (next : Stops (before ++ [s.content]) ss ss' met) : Stops before (s :: ss) (s :: ss') met

section Stopped

variable {before : List Content} {ss ss' : List Statement} {met : List (List Content × Citation)}

theorem Statement.mapDerivation_citing {s : Statement} {d : Derivation}
    (hs : s.content = .derivation d) (hyps : List Citation) :
    s.mapDerivation (·.citing hyps) = { s with content := .derivation (d.citing hyps) } := by
  rw [Statement.mapDerivation, hs]
  rfl

/-- A step with another hypothesis list is another statement. -/
theorem Statement.mapDerivation_citing_eq_iff {s : Statement} {d : Derivation}
    (hs : s.content = .derivation d) {hyps : List Citation} :
    s.mapDerivation (·.citing hyps) = s ↔ hyps = d.hyps := by
  rw [Statement.mapDerivation_citing hs]
  constructor
  · intro h
    have hcontent := congrArg Statement.content h
    rw [hs] at hcontent
    exact congrArg Derivation.hyps (Content.derivation.inj hcontent)
  · rintro rfl
    cases s
    cases hs
    rfl

/-- A statement that is no derivation step has no list to replace, and a list may be replaced by
itself. -/
theorem Statement.exists_citing_self (s : Statement) :
    ∃ hyps, s = s.mapDerivation (·.citing hyps) := by
  cases hd : s.content with
  | derivation d => exact ⟨d.hyps, ((Statement.mapDerivation_citing_eq_iff hd).mpr rfl).symm⟩
  | _ =>
      refine ⟨[], ?_⟩
      cases s
      cases hd
      rfl

/-- Nothing but hypothesis lists has been replaced when the pass stops. -/
theorem Stops.alike (h : Stops before ss ss' met) :
    List.Forall₂ (fun s s' => ∃ hyps, s' = s.mapDerivation (·.citing hyps)) ss ss' := by
  -- the pass has not come to the statements after the one where it stops
  have untouched (ss : List Statement) :
      List.Forall₂ (fun s s' => ∃ hyps, s' = s.mapDerivation (·.citing hyps)) ss ss :=
    List.forall₂_same.mpr fun s _ => s.exists_citing_self
  induction h with
  | atEntry => exact .cons ⟨_, rfl⟩ (untouched _)
  | atStep => exact .cons ⟨_, rfl⟩ (untouched _)
  | derivation _ _ _ _ ih => exact .cons ⟨_, rfl⟩ ih
  | @other _ s _ _ _ _ _ ih => exact .cons s.exists_citing_self ih

/-- The statements are as they were exactly if no entry that was met says something through a local
reference. -/
theorem Stops.eq_iff (h : Stops before ss ss' met)
    (nodup : (before.filterMap Content.stepId? ++ ss.filterMap Statement.stepId?).Nodup) :
    ss' = ss ↔ ∀ p ∈ met, p.2.refers p.1 = false := by
  have entries_iff (before : List Content) (hyps : List Citation) :
      (∀ p ∈ hyps.map (before, ·), p.2.refers p.1 = false) ↔
        hyps.any (·.refers before) = false := by
    simp [List.any_eq_false]
  induction h with
  | @atEntry before s ss d done done' rest target hs split replaced nothing =>
      rw [List.cons.injEq, Statement.mapDerivation_citing_eq_iff hs, split,
        List.append_cancel_right_eq, eq_iff_of_replaced replaced (List.nodup_append.mp nodup).1,
        entries_iff]
      simp
  | @atStep before s ss d hyps target hs replaced hlocal nothing =>
      rw [List.cons.injEq, Statement.mapDerivation_citing_eq_iff hs,
        eq_iff_of_replaced replaced (List.nodup_append.mp nodup).1, entries_iff]
      simp
  | @derivation before s ss ss' d hyps met hs replaced stands next ih =>
      have later : ss' = ss ↔ ∀ p ∈ met, p.2.refers p.1 = false := ih (nodup_stepIds_after nodup)
      rw [List.cons.injEq, Statement.mapDerivation_citing_eq_iff hs,
        eq_iff_of_replaced replaced (List.nodup_append.mp nodup).1, List.forall_mem_append,
        entries_iff, later]
  | @other before s ss ss' met hs next ih =>
      have later : ss' = ss ↔ ∀ p ∈ met, p.2.refers p.1 = false := ih (nodup_stepIds_after nodup)
      rw [List.cons.injEq, later]
      simp

end Stopped

/-! ## The pass -/

namespace Resolution

variable {r r₁ : Resolution} {before : List Content} {label : Option Text}

/-- An entry that is not resolved is a local reference that stands for no step. -/
theorem Remembers.resolveCitation_error (h : r.Remembers before) {entry : Citation} {cause : Cause}
    (failed : r.resolveCitation entry = .error cause) :
    ∃ target, entry = .localRef target ∧ ¬∃ id, StandsFor before target id := by
  cases entry with
  | step id => cases failed
  | unknown => cases failed
  | localRef target =>
      refine ⟨target, rfl, fun hid => ?_⟩
      obtain ⟨found, hfound⟩ := h.find_isOk_iff.mpr hid
      rw [Resolution.resolveCitation, hfound] at failed
      cases failed

/-- The entries in front of the one that is not resolved are replaced. -/
theorem Follows.resolveCitations_stop (h : r.Follows before) {hyps hyps' : List Citation}
    {cause : Cause} (failed : r.resolveCitations hyps = (hyps', some cause)) :
    ∃ done done' target rest, hyps = done ++ .localRef target :: rest ∧
      hyps' = done' ++ .localRef target :: rest ∧
      List.Forall₂ (Citation.Replaced before) done done' ∧ ¬∃ id, StandsFor before target id := by
  induction hyps generalizing hyps' with
  | nil => cases failed
  | cons entry rest ih =>
      rw [Resolution.resolveCitations] at failed
      cases hentry : r.resolveCitation entry with
      | error cause' =>
          obtain ⟨target, rfl, nothing⟩ := h.remembers.resolveCitation_error hentry
          simp only [hentry, Prod.mk.injEq] at failed
          exact ⟨[], [], target, rest, rfl, failed.1.symm, .nil, nothing⟩
      | ok entry' =>
          cases hrest : r.resolveCitations rest with
          | mk rest' failure =>
              simp only [hentry, hrest, Prod.mk.injEq] at failed
              obtain ⟨rfl, rfl⟩ := failed
              obtain ⟨done, done', target, later, rfl, rfl, replaced, nothing⟩ := ih hrest
              exact ⟨entry :: done, entry' :: done', target, later, rfl, rfl,
                .cons (h.resolveCitation hentry) replaced, nothing⟩

/-- What the pass knows after a statement. -/
theorem Follows.resolveStep (h : r.Follows before) {s : Statement} {d : Derivation}
    (resolved : r.resolveStep label s d = .ok r₁) : r₁.Follows (before ++ [.derivation d]) := by
  unfold Resolution.resolveStep at resolved
  cases hlocal : d.localRef with
  | none =>
      simp only [hlocal, Except.ok.injEq] at resolved
      have hkept : (Content.derivation d).isLocalRef = false := by
        simp [Content.isLocalRef, Content.derivation?, hlocal]
      have hremembers := h.remembers.step (c := .derivation d) rfl
      rw [hkept] at hremembers
      rw [← resolved]
      exact h.keep hkept hremembers rfl
  | some target =>
      simp only [hlocal] at resolved
      cases hfound : Citable.find r.earlier target with
      | error cause => simp [hfound] at resolved
      | ok found =>
          simp only [hfound, Except.ok.injEq] at resolved
          rw [← resolved]
          exact h.redirect hlocal hfound _

/-- A step is resolved exactly if it is no local reference or stands for a step. -/
theorem Remembers.resolveStep_isOk_iff (h : r.Remembers before) {s : Statement} {d : Derivation} :
    (∃ r₁, r.resolveStep label s d = .ok r₁) ↔
      ∀ target, d.localRef = some target → ∃ id, StandsFor before target id := by
  unfold resolveStep
  cases hlocal : d.localRef with
  | none => simp
  | some target =>
      simp only [Option.some.injEq, forall_eq']
      rw [← h.find_isOk_iff]
      cases Citable.find r.earlier target <;> simp

/-- The pass goes over a statement. -/
theorem Follows.resolveStatement_ok (h : r.Follows before) {s s' : Statement}
    (passed : r.resolveStatement label s = (s', .ok r₁)) :
    r₁.Follows (before ++ [s.content]) ∧
      ∀ {ss ss' : List Statement} {met : List (List Content × Citation)},
        Stops (before ++ [s.content]) ss ss' met →
          ∃ met', Stops before (s :: ss) (s' :: ss') met' := by
  have remembers := h.remembers.resolveStatement passed
  unfold Resolution.resolveStatement at passed
  cases hder : s.derivation? with
  | none =>
      have hlocal : s.content.isLocalRef = false := by
        rw [Content.isLocalRef, show s.content.derivation? = none from hder]
        rfl
      obtain ⟨rfl, hredirects⟩ : s = s' ∧ r₁.redirects = r.redirects := by
        cases hstep : s.step? with
        | none =>
            simp only [hder, hstep, Prod.mk.injEq, Except.ok.injEq] at passed
            exact ⟨passed.1, by rw [← passed.2]⟩
        | some step =>
            simp only [hder, hstep, Prod.mk.injEq, Except.ok.injEq] at passed
            exact ⟨passed.1, by rw [← passed.2]; rfl⟩
      exact ⟨h.keep hlocal remembers hredirects, fun next => ⟨_, .other hder next⟩⟩
  | some d =>
      have hs : s.content = .derivation d := Content.derivation?_eq_some.mp hder
      simp only [hder] at passed
      cases hres : r.resolveCitations d.hyps with
      | mk hyps failure =>
          cases failure with
          | some cause => simp [hres] at passed
          | none =>
              simp only [hres, Prod.mk.injEq] at passed
              obtain ⟨rfl, passed⟩ := passed
              cases hstep : r.resolveStep label s d with
              | error cause => simp [hstep, mapError_error] at passed
              | ok r₂ =>
                  rw [hstep, mapError_ok, Except.ok.injEq] at passed
                  subst passed
                  have follows := h.resolveStep hstep
                  exact ⟨hs ▸ follows, fun next => ⟨_, .derivation hs (h.resolveCitations hres)
                    (h.remembers.resolveStep_isOk_iff.mp ⟨r₂, hstep⟩) next⟩⟩

/-- The pass stops at a statement. -/
theorem Follows.resolveStatement_stop (h : r.Follows before) {s s' : Statement} {f : Fault}
    (failed : r.resolveStatement label s = (s', .error f)) (ss : List Statement) :
    ∃ met, Stops before (s :: ss) (s' :: ss) met := by
  unfold Resolution.resolveStatement at failed
  cases hder : s.derivation? with
  | none => cases hstep : s.step? <;> simp [hder, hstep] at failed
  | some d =>
      have hs : s.content = .derivation d := Content.derivation?_eq_some.mp hder
      simp only [hder] at failed
      cases hres : r.resolveCitations d.hyps with
      | mk hyps failure =>
          cases failure with
          | some cause =>
              simp only [hres, Prod.mk.injEq] at failed
              obtain ⟨done, done', target, rest, split, rfl, replaced, nothing⟩ :=
                h.resolveCitations_stop hres
              rw [← failed.1]
              exact ⟨_, .atEntry hs split replaced nothing⟩
          | none =>
              simp only [hres, Prod.mk.injEq] at failed
              obtain ⟨rfl, failed⟩ := failed
              cases hstep : r.resolveStep label s d with
              | ok r₁ => simp [hstep, mapError_ok] at failed
              | error cause =>
                  have unresolved : ¬∃ r₁, r.resolveStep label s d = .ok r₁ := by simp [hstep]
                  rw [h.remembers.resolveStep_isOk_iff, not_forall] at unresolved
                  obtain ⟨target, hstands⟩ := unresolved
                  obtain ⟨hlocal, nothing⟩ := Classical.not_imp.mp hstands
                  exact ⟨_, .atStep hs (h.resolveCitations hres) hlocal nothing⟩

/-- The pass over statements stops. -/
theorem Follows.stops (h : r.Follows before) {ss ss' : List Statement} {f : Fault}
    (failed : r.resolveAll label ss = (ss', .error f)) : ∃ met, Stops before ss ss' met := by
  induction ss generalizing r before ss' with
  | nil => cases failed
  | cons s rest ih =>
      rw [resolveAll] at failed
      cases hs : r.resolveStatement label s with
      | mk s' outcome =>
          cases outcome with
          | error f' =>
              simp only [hs, Prod.mk.injEq] at failed
              rw [← failed.1]
              exact h.resolveStatement_stop hs rest
          | ok r₁ =>
              obtain ⟨follows, extend⟩ := h.resolveStatement_ok hs
              cases hrest : r₁.resolveAll label rest with
              | mk rest' outcome' =>
                  simp only [hs, hrest, Prod.mk.injEq] at failed
                  obtain ⟨rfl, rfl⟩ := failed
                  obtain ⟨met, next⟩ := ih follows hrest
                  exact extend next

end Resolution

/-! ## Loading -/

/-- The code of a cause tells whether it is a local reference that cannot be resolved. -/
theorem Cause.isUnresolved_iff (c : Cause) :
    c.isUnresolved = true ↔ c.code = "E-PA-0301" ∨ c.code = "E-PA-0302" := by
  cases c <;> simp [isUnresolved, code]

theorem Cause.isUnresolved_of_isRead {c : Cause} (h : c.isRead = true) :
    c.isUnresolved = false := by
  cases c <;> first | rfl | cases h

namespace Worksheet

variable {db : Database} {st : Settings} {ws : Worksheet} {stop : Stop}

/-- The worksheet is broken, and its last message says that a local reference matches no earlier
step or points at another local reference. -/
def BrokenAtLocalRef (ws : Worksheet) : Prop :=
  ws.broken = true ∧ ∃ m ∈ ws.messages.getLast?, m.code = "E-PA-0301" ∨ m.code = "E-PA-0302"

theorem brokenAtLocalRef_breakBy {ws : Worksheet} {f : Fault} :
    (ws.breakBy f).BrokenAtLocalRef ↔ f.cause.isUnresolved = true := by
  rw [Cause.isUnresolved_iff, BrokenAtLocalRef, breakBy]
  simp [Fault.toMessage]

/-- A load that breaks at a local reference has read the text and then stopped in the pass over the
statements. -/
theorem load_stopped {request : Request} {text : Text}
    (h : (load db st request text).BrokenAtLocalRef) :
    ∃ read selected stop,
      readText db st { cursor := { caret := request.caret } } text = .ok read ∧
        resolveLocalRefs { read with selected := selected } = .error stop ∧
        (load db st request text).statements = stop.sheet.statements := by
  have loads := loads_load db st request text
  generalize load db st request text = ws at h loads ⊢
  -- no other stage gives the cause
  cases loads with
  | unread fault =>
      have reported := reports_readText db st { cursor := { caret := request.caret } } text
      rw [fault] at reported
      have unresolved := brokenAtLocalRef_breakBy.mp h
      rw [Cause.isUnresolved_of_isRead reported.1.cause] at unresolved
      cases unresolved
  | unselected _ _ fault =>
      have unresolved := brokenAtLocalRef_breakBy.mp h
      rw [(selectStep_error fault).2] at unresolved
      cases unresolved
  | unresolved reading selecting fault =>
      obtain ⟨selected, rfl⟩ := selecting_ok selecting
      exact ⟨_, selected, _, reading, fault, rfl⟩
  | miscounted _ _ _ fault =>
      obtain ⟨-, expected, found, hcause⟩ := checkHypothesisCount_error fault
      have unresolved := brokenAtLocalRef_breakBy.mp h
      rw [hcause] at unresolved
      cases unresolved
  | settled reading selecting resolving =>
      exact absurd h.1 (ne_true_of_eq_false (broken_settled reading selecting resolving))

/-- Resolving local references stops in the pass over the statements, and leaves everything else
alone. -/
theorem resolveLocalRefs_stops (h : ws.resolveLocalRefs = .error stop) :
    (∃ met, Stops [] ws.statements stop.sheet.statements met) ∧
      stop.sheet = { ws with statements := stop.sheet.statements } := by
  have follows : Resolution.Follows {} [] :=
    ⟨rfl, fun p hp => (by cases hp), fun d target hd => (by cases hd)⟩
  unfold resolveLocalRefs at h
  cases hall : Resolution.resolveAll {} ws.theoremLabel ws.statements with
  | mk resolved outcome =>
      simp only [hall] at h
      cases outcome with
      | ok r => cases h
      | error f =>
          cases h
          exact ⟨follows.stops hall, rfl⟩

/-- A load that breaks at a local reference leaves the statements as they were read, but for the
entries that it met before: those that say something through a local reference have been replaced,
although the texts still have them. So the statements are as they were read exactly if there are no
such entries. -/
theorem unresolved_load_iff {request : Request} {text : Text}
    (h : (load db st request text).BrokenAtLocalRef) :
    ∃ read met, readText db st { cursor := { caret := request.caret } } text = .ok read ∧
      IsSource db text read.statements ∧
      List.Forall₂ (fun s s' => ∃ hyps, s' = s.mapDerivation (·.citing hyps))
        read.statements (load db st request text).statements ∧
      Stops [] read.statements (load db st request text).statements met ∧
      ((load db st request text).statements = read.statements ↔
        ∀ p ∈ met, p.2.refers p.1 = false) := by
  obtain ⟨read, selected, stop, hread, hresolve, hstatements⟩ := load_stopped h
  obtain ⟨hsource, -⟩ := source_readText rfl hread
  obtain ⟨nodup, -⟩ := numbered_readText rfl rfl hread
  obtain ⟨⟨met, stops⟩, -⟩ := resolveLocalRefs_stops hresolve
  rw [hstatements]
  exact ⟨read, met, hread, hsource, stops.alike, stops, stops.eq_iff nodup⟩

/-- A worksheet in which the first entry of `qed` can be resolved and the second cannot. -/
def unresolvedText : Text :=
  "$( <MM> <PROOF_ASST> THEOREM=t LOC_AFTER=?\nh1::t.1 |- p\nqed:#1,#x:ax |- q\n$)\n".toList

theorem unresolvedText_breaks : (load .empty {} {} unresolvedText).BrokenAtLocalRef := by
  refine ⟨by decide +kernel, ?_⟩
  decide +kernel

theorem unresolved_load_iff_unresolvedText :
    (load .empty {} {} unresolvedText).BrokenAtLocalRef ∧
      ∃ read met, readText .empty {} {} unresolvedText = .ok read ∧
        IsSource .empty unresolvedText read.statements ∧
        List.Forall₂ (fun s s' => ∃ hyps, s' = s.mapDerivation (·.citing hyps))
          read.statements (load .empty {} {} unresolvedText).statements ∧
        Stops [] read.statements (load .empty {} {} unresolvedText).statements met ∧
        ((load .empty {} {} unresolvedText).statements = read.statements ↔
          ∀ p ∈ met, p.2.refers p.1 = false) :=
  ⟨unresolvedText_breaks, unresolved_load_iff unresolvedText_breaks⟩

/-- The first entry of `qed` has been replaced, although the text still has it. -/
theorem unresolvedText_replaced :
    (load .empty {} {} unresolvedText).BrokenAtLocalRef ∧
      (load .empty {} {} unresolvedText).output = unresolvedText ∧
      ((readText .empty {} {} unresolvedText).toOption.map fun read =>
          read.statements.filterMap fun s => s.derivation?.map (·.hyps)) =
        some [[.localRef ['1'], .localRef ['x']]] ∧
      ((load .empty {} {} unresolvedText).statements.filterMap fun s =>
          s.derivation?.map (·.hyps)) =
        [[.step (.number 1), .localRef ['x']]] :=
  ⟨unresolvedText_breaks, by decide +kernel, by decide +kernel, by decide +kernel⟩

end Worksheet

end ProofSheet
