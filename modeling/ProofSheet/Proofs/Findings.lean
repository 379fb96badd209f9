import ProofSheet.Proofs.Acceptance
import ProofSheet.Proofs.Reports

set_option autoImplicit false

/-! # What a load reports

The messages of a loaded worksheet are remarks, which do not end a load: notes about tokens, and
that the formulas of a local reference and of its target differ. If the worksheet is broken, there
is one message more, the last one, and it reports the fault that ended the load
(`Worksheet.load_reports`).

A fault is found in reading, at a token; or it is a step search that has no step, a local reference
that cannot be resolved, or a wrong number of hypotheses (`Fault.IsFound`). That the step `qed` is
not the last one is never found, since the shape of the worksheet excludes it.
-/

namespace ProofSheet

/-- The cause is a local reference that cannot be resolved. -/
def Cause.isUnresolved (c : Cause) : Bool := c matches .localRefNotFound _ | .chainedLocalRef _

/-! ## Local references -/

theorem Citable.find_error {earlier : List Citable} {target : Text} {cause : Cause}
    (h : Citable.find earlier target = .error cause) : cause.isUnresolved = true := by
  unfold Citable.find at h
  split at h
  · cases h
    rfl
  · split at h
    · cases h
      rfl
    · cases h

namespace Resolution

variable {r : Resolution} {label : Option Text}

theorem resolveCitation_error {entry : Citation} {cause : Cause}
    (h : r.resolveCitation entry = .error cause) : cause.isUnresolved = true := by
  cases entry with
  | localRef target =>
      rw [resolveCitation] at h
      cases hfind : Citable.find r.earlier target with
      | error cause' =>
          rw [hfind] at h
          cases h
          exact Citable.find_error hfind
      | ok found =>
          rw [hfind] at h
          cases h
  | step id => cases h
  | unknown => cases h

theorem resolveCitations_failure {entries resolved : List Citation} {cause : Cause}
    (h : r.resolveCitations entries = (resolved, some cause)) : cause.isUnresolved = true := by
  induction entries generalizing resolved with
  | nil => cases h
  | cons entry rest ih =>
      rw [resolveCitations] at h
      cases hentry : r.resolveCitation entry with
      | error cause' =>
          simp only [hentry, Prod.mk.injEq, Option.some.injEq] at h
          rw [← h.2]
          exact resolveCitation_error hentry
      | ok entry' =>
          simp only [hentry, Prod.mk.injEq] at h
          exact ih (Prod.ext rfl h.2)

/-- The fault of a local reference in a derivation step among the statements. -/
def FaultIn (ss : List Statement) (f : Fault) : Prop :=
  ∃ s ∈ ss, ∃ d cause, s.content = .derivation d ∧ cause.isUnresolved = true ∧ f = fault s d cause

/-- The message that one of the statements, a local reference, has another formula than its
target. -/
def MismatchIn (ss : List Statement) (m : Message) : Prop :=
  ∃ s ∈ ss, ∃ label d target, s.content = .derivation d ∧
    m = formulaMismatch label d.id target (leadSpan s)

/-- What the pass over some statements reports: that formulas differ, and perhaps the fault of a
local reference. -/
def Reports (ss : List Statement) (r : Resolution) : Except Fault Resolution → Prop
  | .ok r' => ∃ ms, r'.messages = r.messages ++ ms ∧ ∀ m ∈ ms, MismatchIn ss m
  | .error f => FaultIn ss f

theorem reports_none {ss : List Statement} {r' : Resolution} (h : r'.messages = r.messages) :
    Reports ss r (.ok r') := ⟨[], by rw [h, List.append_nil], fun m hm => (by cases hm)⟩

theorem reports_resolveStep {s : Statement} {d : Derivation} (hd : s.content = .derivation d) :
    Reports [s] r ((r.resolveStep label s d).mapError (fault s d)) := by
  unfold resolveStep
  split
  · exact reports_none rfl
  · split
    · next hfind =>
        exact ⟨s, List.mem_cons_self, d, _, hd, Citable.find_error hfind, rfl⟩
    · next target hlocal outcome found hfind =>
        cases d.formula.isSome && found.formula.isSome && d.formula != found.formula with
        | false => exact reports_none rfl
        | true =>
            refine ⟨[formulaMismatch label d.id found.id (leadSpan s)], rfl, fun m hm => ?_⟩
            exact ⟨s, List.mem_cons_self, label, d, found.id, hd, List.mem_singleton.mp hm⟩

theorem reports_resolveStatement (r : Resolution) (label : Option Text) (s : Statement) :
    Reports [s] r (r.resolveStatement label s).2 := by
  unfold resolveStatement
  cases hder : s.derivation? with
  | none =>
      cases s.step? with
      | none => exact reports_none rfl
      | some step => exact reports_none rfl
  | some d =>
      have hd : s.content = .derivation d := Content.derivation?_eq_some.mp hder
      dsimp only
      cases hres : r.resolveCitations d.hyps with
      | mk hyps failure =>
          cases failure with
          | some cause =>
              exact ⟨s, List.mem_cons_self, d, cause, hd, resolveCitations_failure hres, rfl⟩
          | none => exact reports_resolveStep hd

/-- What the pass over statements reports is what it reports of each. -/
theorem reports_resolveAll (r : Resolution) (label : Option Text) (ss : List Statement) :
    Reports ss r (r.resolveAll label ss).2 := by
  induction ss generalizing r with
  | nil => exact reports_none rfl
  | cons s rest ih =>
      have first := reports_resolveStatement r label s
      rw [resolveAll]
      cases hs : r.resolveStatement label s with
      | mk s' outcome =>
          rw [hs] at first
          cases outcome with
          | error f =>
              obtain ⟨t, ht, hfault⟩ := first
              rw [List.mem_singleton] at ht
              exact ⟨t, by rw [ht]; exact List.mem_cons_self, hfault⟩
          | ok r₁ =>
              obtain ⟨ms, hms, hmismatch⟩ := first
              have later := ih r₁
              dsimp only
              cases hrest : r₁.resolveAll label rest with
              | mk rest' outcome' =>
                  rw [hrest] at later
                  cases outcome' with
                  | error f =>
                      obtain ⟨t, ht, hfault⟩ := later
                      exact ⟨t, List.mem_cons_of_mem _ ht, hfault⟩
                  | ok r' =>
                      obtain ⟨ms', hms', hmismatch'⟩ := later
                      refine ⟨ms ++ ms', ?_, List.forall_mem_append.mpr ⟨?_, ?_⟩⟩
                      · rw [hms', hms, List.append_assoc]
                      · intro m hm
                        obtain ⟨t, ht, hmessage⟩ := hmismatch m hm
                        rw [List.mem_singleton] at ht
                        exact ⟨t, by rw [ht]; exact List.mem_cons_self, hmessage⟩
                      · intro m hm
                        obtain ⟨t, ht, hmessage⟩ := hmismatch' m hm
                        exact ⟨t, List.mem_cons_of_mem _ ht, hmessage⟩

end Resolution

/-! ## Remarks and faults -/

/-- The message does not end a load. -/
inductive Message.IsRemark (ts : List Token) : Message → Prop where
  | note {m : Message} (h : m.IsNoteOn ts) : IsRemark ts m
  | mismatch (label : Option Text) (step target : StepId) (span : Span) :
      IsRemark ts (formulaMismatch label step target span)

/-- A fault that ends a load, with the span for which it is reported. -/
inductive Fault.IsFound (ts : List Token) (f : Fault) : Prop where
  | read (h : f.IsOn ts)
  | search (cause : f.cause = .caretNotOnStep) (span : f.span = none)
  | unresolved (cause : f.cause.isUnresolved = true)
  /-- The number of hypotheses is wrong. The span is that of the opening token in the output. -/
  | count {expected found : Nat} {opening : Token} (cause : f.cause = .hypCountMismatch expected found)
      (first : ts.head? = some opening) (header : opening.text = Keyword.header)
      (span : f.span = some ⟨0, opening.text.length⟩)

namespace Worksheet

variable {ws ws' : Worksheet} {ts : List Token} {db : Database} {st : Settings} {text : Text}

/-- So far there are remarks only; if the reading stops, it is for a fault that ends a load. -/
def Findings (ts : List Token) : Reading → Prop
  | .ok ws => ws.broken = false ∧ ∀ m ∈ ws.messages, m.IsRemark ts
  | .error stop => stop.fault.IsFound ts ∧ ∀ m ∈ stop.sheet.messages, m.IsRemark ts

/-! ## The stages of a load -/

theorem broken_readText (h : ws.readText db st text = .ok ws') : ws'.broken = ws.broken := by
  refine keeps_readText (I := fun ws' => ws'.broken = ws.broken) h rfl ?_
  intro b _ c ws₁ ws₂ _ _ hadds h₁
  exact hadds.2.broken.trans h₁

theorem findings_readText (caret : Option Nat) :
    Findings (tokens text) (readText db st { cursor := { caret := caret } } text) := by
  have remarks : ∀ {ws' : Worksheet}, Notes (tokens text) { cursor := { caret := caret } } ws' →
      ∀ m ∈ ws'.messages, m.IsRemark (tokens text) := by
    rintro ws' ⟨notes, hmessages, hall⟩ m hm
    rw [hmessages] at hm
    exact .note (hall m hm)
  have reported := reports_readText db st { cursor := { caret := caret } } text
  cases hread : readText db st { cursor := { caret := caret } } text with
  | error stop =>
      rw [hread] at reported
      exact ⟨.read reported.1, remarks reported.2⟩
  | ok read =>
      rw [hread] at reported
      exact ⟨broken_readText hread, remarks reported⟩

theorem findings_selecting (selecting : Bool) (h : Findings ts (.ok ws)) :
    Findings ts (if selecting then ws.selectStep else .ok ws) := by
  cases selecting with
  | false => exact h
  | true =>
      show Findings ts ws.selectStep
      unfold selectStep
      split
      · split
        · exact h
        · exact ⟨.search rfl rfl, h.2⟩
      · exact ⟨.search rfl rfl, h.2⟩

/-- What resolving local references reports: that formulas differ, and perhaps the fault of one of
the references. -/
theorem reports_resolveLocalRefs (ws : Worksheet) :
    (∀ ws', ws.resolveLocalRefs = .ok ws' → ws'.broken = ws.broken ∧
        ∃ ms, ws'.messages = ws.messages ++ ms ∧
          ∀ m ∈ ms, Resolution.MismatchIn ws.statements m) ∧
      ∀ stop, ws.resolveLocalRefs = .error stop →
        stop.sheet.messages = ws.messages ∧ Resolution.FaultIn ws.statements stop.fault := by
  have reported := Resolution.reports_resolveAll {} ws.theoremLabel ws.statements
  unfold resolveLocalRefs
  cases hall : Resolution.resolveAll {} ws.theoremLabel ws.statements with
  | mk resolved outcome =>
      rw [hall] at reported
      cases outcome with
      | error f =>
          refine ⟨fun ws' h => (by cases h), fun stop h => ?_⟩
          cases h
          exact ⟨rfl, reported⟩
      | ok r =>
          obtain ⟨ms, hms, hmismatch⟩ := reported
          refine ⟨fun ws' h => ?_, fun stop h => (by cases h)⟩
          obtain ⟨_, _, _, _, _, hremove⟩ := remove_eq _ _
          rw [← Except.ok.inj h, hremove]
          refine ⟨rfl, ms, ?_, hmismatch⟩
          show ws.messages ++ r.messages = _
          rw [hms]
          rfl

theorem findings_resolveLocalRefs (h : Findings ts (.ok ws)) :
    Findings ts ws.resolveLocalRefs := by
  obtain ⟨resolves, stops⟩ := reports_resolveLocalRefs ws
  cases hresolve : ws.resolveLocalRefs with
  | error stop =>
      obtain ⟨hmessages, s, -, d, cause, -, hcause, hfault⟩ := stops stop hresolve
      refine ⟨.unresolved (by rw [hfault]; exact hcause), ?_⟩
      rw [hmessages]
      exact h.2
  | ok ws' =>
      obtain ⟨hbroken, ms, hms, hmismatch⟩ := resolves ws' hresolve
      refine ⟨hbroken.trans h.1, fun m hm => ?_⟩
      rw [hms] at hm
      rcases List.mem_append.mp hm with hm | hm
      · exact h.2 m hm
      · obtain ⟨s, -, label, d, target, -, rfl⟩ := hmismatch m hm
        exact .mismatch label d.id target _

/-- Once local references are resolved, the worksheet begins with the header. -/
theorem header_resolved {caret : Option Nat} {read : Worksheet} {selected : Option StatementId}
    (hread : readText db st { cursor := { caret := caret } } text = .ok read)
    (hresolve : resolveLocalRefs { read with selected := selected } = .ok ws) :
    ∃ s rest, ws.statements = s :: rest ∧ s.start = 0 ∧ s.lead = Keyword.header := by
  obtain ⟨proved, shaped⟩ := shaped_resolved hread hresolve
  obtain ⟨s, rest, hss, hheader, -⟩ := shaped.header rfl
  obtain ⟨proved', hshaped⟩ := shaped_readText hread
  obtain ⟨kept, r, passes, keeps⟩ := resolveLocalRefs_ok hresolve hshaped.nodup
  rw [keeps.statements] at hss
  cases kept with
  | nil => cases hss
  | cons k kept =>
      rw [respanFrom, List.cons.injEq] at hss
      obtain ⟨rfl, -⟩ := hss
      refine ⟨_, _, keeps.statements, rfl, ?_⟩
      show k.lead = Keyword.header
      -- the header is kept as it was read, since it is no derivation step
      obtain ⟨s, hs, -, rfl | ⟨d, hyps, hd, -, rfl⟩⟩ := passes.mem List.mem_cons_self
      · obtain ⟨b, -, hlead, -, hsaid⟩ := said_of_readText rfl hread hs
        obtain ⟨header, hc⟩ : ∃ header, k.content = .header header := by
          have hcontent : k.content.isHeader = true := hheader
          cases hc : k.content with
          | header header => exact ⟨header, rfl⟩
          | _ => rw [hc] at hcontent; cases hcontent
        rw [hc] at hsaid
        rw [hlead, hsaid.lead_of_header]
      · have hcontent : (s.citing d hyps).content.isHeader = true := hheader
        rw [Statement.citing_content hd] at hcontent
        cases hcontent

theorem findings_checkHypothesisCount {caret : Option Nat} {read : Worksheet}
    {selected : Option StatementId}
    (hread : readText db st { cursor := { caret := caret } } text = .ok read)
    (hresolve : resolveLocalRefs { read with selected := selected } = .ok ws)
    (h : Findings (tokens text) (.ok ws)) :
    Findings (tokens text) (ws.indexDistinctVars.checkHypothesisCount db) := by
  obtain ⟨opening, ts, htokens, -, hopening⟩ := starts_of_readText hread
  obtain ⟨s, rest, hss, hstart, hlead⟩ := header_resolved hread hresolve
  unfold checkHypothesisCount
  split
  · exact h
  · split
    · exact h
    · refine ⟨.count rfl (by rw [htokens]; rfl) hopening ?_, h.2⟩
      show ws.statements.head?.map _ = _
      rw [hss, List.head?_cons, Option.map_some, hstart, hlead, hopening, Nat.zero_add]

theorem findings_settle {caret : Option Nat} {read : Worksheet} (selecting : Bool)
    (hread : readText db st { cursor := { caret := caret } } text = .ok read)
    (h : Findings (tokens text) (.ok read)) :
    Findings (tokens text) (read.settle db st selecting) := by
  rw [settle_eq]
  refine reading_bind (findings_selecting selecting h) fun chosen hchosen hfound => ?_
  obtain ⟨selected, rfl⟩ := selecting_ok hchosen
  refine reading_bind (findings_resolveLocalRefs hfound) fun ws hresolve resolved => ?_
  -- the shape of the worksheet makes the check of its last step superfluous
  obtain ⟨proved, shaped⟩ := shaped_resolved hread hresolve
  rw [shaped.checkQed, ok_bind]
  refine reading_bind (findings_checkHypothesisCount hread hresolve resolved)
    fun checked _ counted => ?_
  obtain ⟨c, hcursor⟩ := placeCursor_eq st.caretPlacement checked.measureLevels
  rw [hcursor]
  exact counted

/-- What a load reports: remarks, and after them a fault exactly if the worksheet is broken. -/
theorem load_reports (db : Database) (st : Settings) (request : Request) (text : Text) :
    ∃ remarks, (∀ m ∈ remarks, m.IsRemark (tokens text)) ∧
      (((load db st request text).broken = false ∧
          (load db st request text).messages = remarks) ∨
        ((load db st request text).broken = true ∧ ∃ f : Fault, f.IsFound (tokens text) ∧
          (load db st request text).messages = remarks ++ [f.toMessage])) := by
  have hload : load db st request text =
      ofReading (readText db st { cursor := { caret := request.caret } } text >>=
        fun ws => ws.settle db st request.selectStep) := rfl
  have reading : Findings (tokens text)
      (readText db st { cursor := { caret := request.caret } } text) :=
    findings_readText request.caret
  have found : Findings (tokens text)
      (readText db st { cursor := { caret := request.caret } } text >>=
        fun ws => ws.settle db st request.selectStep) :=
    reading_bind reading fun read hread => findings_settle request.selectStep hread
  rw [hload]
  cases houtcome : readText db st { cursor := { caret := request.caret } } text >>=
      fun ws => ws.settle db st request.selectStep with
  | ok ws =>
      rw [houtcome] at found
      exact ⟨ws.messages, found.2, Or.inl ⟨found.1, rfl⟩⟩
  | error stop =>
      rw [houtcome] at found
      obtain ⟨hfault, hremarks⟩ := found
      refine ⟨stop.sheet.messages, hremarks, Or.inr ⟨rfl, _, ?_, rfl⟩⟩
      -- naming the theorem changes neither the cause of the fault nor its span
      cases hfault with
      | read h => exact .read ⟨h.cause, h.span⟩
      | search cause span => exact .search cause span
      | unresolved cause => exact .unresolved cause
      | count cause first header span => exact .count cause first header span

end Worksheet

end ProofSheet
