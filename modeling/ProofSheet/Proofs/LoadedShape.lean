import ProofSheet.Proofs.Loading
import ProofSheet.Proofs.Shape

set_option autoImplicit false

/-! # A loaded worksheet is in shape

Reading a statement that the phase allows keeps the shape of a worksheet, and a statement that is
read is one that the phase allows (`Worksheet.shaped_readText`). Resolving the local references
drops derivation steps and changes hypothesis lists, which leads to the same end
(`Worksheet.Shaped.resolve`). So a worksheet that loads cleanly is in shape, and it stays so
whatever calls follow (`Worksheet.shaped_afterCalls`).
-/

namespace ProofSheet

theorem Says.hypothesis_ne_qed {db : Database} {lead tail : Text} {words : List Text} {s : Step}
    (h : Says db lead words tail (.hypothesis s)) : s.id ≠ .qed := by
  cases h with
  | hypothesis hletter hf hid not_qed => exact not_qed

theorem Says.localRef_ne_qed {db : Database} {lead tail target : Text} {words : List Text}
    {d : Derivation} (h : Says db lead words tail (.derivation d))
    (hlocal : d.localRef = some target) : d.id ≠ .qed := by
  cases h with
  | derivation hlead hf hid hhyps href =>
      rename_i reference
      obtain ⟨ref, localRef⟩ := reference
      cases hlocal
      exact readReference_localRef href

namespace Worksheet

variable {ws ws' : Worksheet} {db : Database} {st : Settings} {p : Phase}

/-! ## Reading -/

theorem shaped_start (caret : Option Nat) :
    Shaped { cursor := { caret := caret } } .opening :=
  ⟨rfl, List.nodup_nil, fun _ h => (by cases h), fun _ h => (by cases h), rfl, rfl,
    fun _ h => (by cases h)⟩

/-- Reading a statement that the phase allows keeps the shape. -/
theorem Shaped.read {b : Block} {c : Content} {q : Phase} (h : ws.Shaped p)
    (hsaid : Says db b.head.text b.words b.tail c)
    (hextends : ws.Extends (b.toStatement ws.nextId c) ws') (hnext : p.next c = some q) :
    ws'.Shaped q := by
  have hentries : ws'.entries = ws.entries ++ [(ws.nextId, c)] := hextends.entries
  obtain ⟨nodup, below⟩ := hextends.fresh rfl h.nodup h.below
  have hcontents : ws'.contents = ws.contents ++ [c] := hextends.contents
  have hqed : ws'.qed = if c.isQed = true then some ws.nextId else ws.qed := by
    rw [hextends.qed]
    exact if_congr (by rw [Content.isQed, beq_iff_eq]; rfl) rfl rfl
  obtain ⟨-, -, hconcluded, -, -⟩ := Phase.next_tells hnext
  refine ⟨?_, nodup, below, ?_, ?_, ?_, ?_⟩
  · rw [hcontents]
    exact Phase.after_concat h.phase hnext
  · intro e he hq
    rw [hentries, List.mem_append, List.mem_singleton] at he
    rw [hqed]
    rcases he with he | rfl
    · -- no step may follow one that is qed already
      have before := h.qed e he hq
      have hc : ¬ c.isQed = true := by
        intro hc
        have hstep : c.isStep = true := by
          rw [← Content.isSome_stepId?]
          rw [Content.isQed, beq_iff_eq] at hc
          rw [hc]
          rfl
        have hopen := (Phase.next_requires hnext).2.2.2.2.2 hstep
        rw [← h.concluded, before] at hopen
        cases hopen
      rw [if_neg hc]
      exact before
    · rw [if_pos hq]
  · rw [hqed, hconcluded, ← h.concluded]
    cases c.isQed <;> simp
  · rw [hextends.hypothesisCount, h.hypothesisCount, hcontents, List.countP_append,
      List.countP_singleton]
    rfl
  · intro d hd
    rw [hcontents, List.mem_append, List.mem_singleton] at hd
    rcases hd with hd | rfl
    · exact h.workVars d hd
    · exact hsaid.notesWorkVars

/-- What the phase tells of the statements. -/
theorem Shaped.tells (h : ws.Shaped p) :
    p.isOpen = ws.statements.any Statement.isHeader ∧
      p.isDerived = ws.statements.any (·.derivation?.isSome) ∧
      p.isProved = ws.statements.any Statement.isProof := by
  have any_of : ∀ (f : Statement → Bool) (g : Content → Bool), (∀ s, f s = g s.content) →
      ws.contents.any g = ws.statements.any f := by
    intro f g hfg
    rw [contents, List.any_map]
    congr 1
    funext s
    exact (hfg s).symm
  obtain ⟨hopen, hderived, -, hproved, -⟩ := Phase.after_tells h.phase
  refine ⟨?_, ?_, ?_⟩
  · rw [← any_of _ Content.isHeader Statement.isHeader_eq]
    exact hopen
  · rw [← any_of (·.derivation?.isSome) _ fun s => s.content.isSome_derivation?]
    exact hderived
  · rw [← any_of _ Content.isProof Statement.isProof_eq]
    exact hproved

/-- What was read so far admits a statement only if the phase allows it. -/
theorem Shaped.admits {b : Block} {c : Content} (h : ws.Shaped p) (hopen : p.isOpen = true)
    (hclosed : p.isClosed = false) (hsaid : Says db b.head.text b.words b.tail c)
    (hadm : ws.Admits c) : ∃ q, p.next c = some q := by
  obtain ⟨kopen, kderived, kproved⟩ := h.tells
  have hconcluded := h.concluded
  cases c with
  | header header =>
      rw [Admits, ← kopen, hopen] at hadm
      cases hadm
  | footer =>
      refine Phase.exists_next hopen hclosed rfl (fun _ => ?_) (fun h => (by cases h))
        (fun h => (by cases h)) (fun h => (by cases h))
      rw [← hconcluded]
      exact hadm
  | proof body =>
      refine Phase.exists_next hopen hclosed rfl (fun h => (by cases h)) (fun _ => ?_)
        (fun h => (by cases h)) (fun h => (by cases h))
      rw [← hconcluded, kproved]
      exact hadm
  | hypothesis s =>
      obtain ⟨hnone, -, hder⟩ := hadm
      rw [hnone] at hconcluded
      refine Phase.exists_next hopen hclosed rfl (fun h => (by cases h)) (fun h => (by cases h))
        (fun _ => ⟨kderived.trans hder, ?_⟩) (fun _ => hconcluded.symm)
      simpa [Content.isQed] using hsaid.hypothesis_ne_qed
  | derivation d =>
      obtain ⟨hnone, -, -⟩ := hadm
      rw [hnone] at hconcluded
      exact Phase.exists_next hopen hclosed rfl (fun h => (by cases h)) (fun h => (by cases h))
        (fun h => (by cases h)) (fun _ => hconcluded.symm)
  | comment text =>
      exact Phase.exists_next hopen hclosed rfl (fun h => (by cases h)) (fun h => (by cases h))
        (fun h => (by cases h)) (fun h => (by cases h))
  | distinctVars vars =>
      exact Phase.exists_next hopen hclosed rfl (fun h => (by cases h)) (fun h => (by cases h))
        (fun h => (by cases h)) (fun h => (by cases h))

/-- What the phase allows is admitted, if a step has a new name and cites what was read. -/
theorem Shaped.admits_of_next {c : Content} {q : Phase} (h : ws.Shaped p)
    (hnext : p.next c = some q) (fresh : ∀ id, c.stepId? = some id → id ∉ ws.stepIds)
    (cited : ∀ d, c = .derivation d → ∀ id ∈ d.cited, id ∈ ws.stepIds) : ws.Admits c := by
  obtain ⟨kopen, kderived, kproved⟩ := h.tells
  obtain ⟨hheader, -, hfooter, hproof, hhypothesis, hstep⟩ := Phase.next_requires hnext
  have hconcluded := h.concluded
  have open_of_step : c.isStep = true → ws.qed = none := by
    intro hc
    rw [hstep hc, Option.isSome_eq_false_iff, Option.isNone_iff_eq_none] at hconcluded
    exact hconcluded
  cases c with
  | header header => exact kopen.symm.trans (hheader.mp rfl)
  | footer => exact hconcluded.trans (hfooter rfl)
  | proof body =>
      obtain ⟨hdone, hunproved⟩ := hproof rfl
      exact ⟨hconcluded.trans hdone, kproved.symm.trans hunproved⟩
  | hypothesis step =>
      obtain ⟨hunderived, -⟩ := hhypothesis rfl
      exact ⟨open_of_step rfl, fresh step.id rfl, kderived.symm.trans hunderived⟩
  | derivation d => exact ⟨open_of_step rfl, fresh d.id rfl, cited d rfl⟩
  | comment text => trivial
  | distinctVars vars => trivial

/-- A worksheet that is read has the shape. -/
theorem shaped_readText {caret : Option Nat} {text : Text}
    (h : readText db st { cursor := { caret := caret } } text = .ok ws') :
    ∃ proved, ws'.Shaped (.closed proved) := by
  refine readText_ok (P := fun ws => ∃ p, ws.Shaped p ∧ p.isOpen = true ∧ p.isClosed = false)
    (Q := fun ws => ∃ proved, ws.Shaped (.closed proved)) h ?_ ?_ ?_
  · intro b _ header ws₁ hsaid hadds
    exact ⟨.hypotheses, (shaped_start caret).read hsaid hadds.2 rfl, rfl, rfl⟩
  · rintro b - c ws₁ ws₂ hsaid hadds hc ⟨p, hp, hopen, hclosed⟩
    obtain ⟨q, hnext⟩ := hp.admits hopen hclosed hsaid hadds.1
    obtain ⟨hopen', -, -, -, hclosed'⟩ := Phase.next_tells hnext
    refine ⟨q, hp.read hsaid hadds.2 hnext, ?_, ?_⟩
    · rw [hopen', hopen, Bool.true_or]
    · rw [hclosed', hclosed, hc, Bool.or_false]
  · rintro b - ws₁ ws₂ hsaid hadds ⟨p, hp, hopen, hclosed⟩
    obtain ⟨q, hnext⟩ := hp.admits hopen hclosed hsaid hadds.1
    obtain ⟨-, -, -, -, hclosed'⟩ := Phase.next_tells hnext
    rw [Content.isFooter, Bool.or_true] at hclosed'
    cases q with
    | closed proved => exact ⟨proved, hp.read hsaid hadds.2 hnext⟩
    | _ => cases hclosed'

/-! ## Resolving -/

theorem next_citing (p : Phase) (d : Derivation) (hyps : List Citation) :
    p.next (.derivation (d.citing hyps)) = p.next (.derivation d) := Phase.next_derivation Iff.rfl

/-- Dropping local references and changing hypothesis lists leads to the same end. -/
theorem after_passes {r r' : Resolution} {ss kept : List Statement}
    (h : Resolution.Passes r ss kept r')
    (not_qed : ∀ d target, .derivation d ∈ ss.map Statement.content → d.localRef = some target →
      d.id ≠ .qed) {p p' q : Phase} (hbelow : p'.Below p)
    (hphase : p.after (ss.map Statement.content) = some q) :
    ∃ q', p'.after (kept.map Statement.content) = some q' ∧ q'.Below q := by
  induction h generalizing p p' with
  | done =>
      cases hphase
      exact ⟨p', rfl, hbelow⟩
  | other hs _ ih | hypothesis hs _ ih =>
      rw [List.map_cons, Phase.after, Option.bind_eq_some_iff] at hphase
      obtain ⟨p₁, hnext, hphase⟩ := hphase
      obtain ⟨p₁', hnext', hbelow'⟩ := hbelow.keep hnext
      rw [List.map_cons, Phase.after, hnext', Option.bind_some]
      exact ih (fun d target hd => not_qed d target (List.mem_cons_of_mem _ hd)) hbelow' hphase
  | derivation hs hlocal resolved _ ih =>
      rw [List.map_cons, Phase.after, Option.bind_eq_some_iff] at hphase
      obtain ⟨p₁, hnext, hphase⟩ := hphase
      obtain ⟨p₁', hnext', hbelow'⟩ := hbelow.keep hnext
      rw [hs] at hnext'
      rw [List.map_cons, Phase.after, Statement.citing_content hs, next_citing, hnext',
        Option.bind_some]
      exact ih (fun d target hd => not_qed d target (List.mem_cons_of_mem _ hd)) hbelow' hphase
  | localRef hs hlocal hfound _ ih =>
      rw [List.map_cons, Phase.after, Option.bind_eq_some_iff] at hphase
      obtain ⟨p₁, hnext, hphase⟩ := hphase
      have hd := not_qed _ _ (by rw [← hs]; exact List.mem_cons_self) hlocal
      rw [hs] at hnext
      exact ih (fun d target hd => not_qed d target (List.mem_cons_of_mem _ hd))
        (hbelow.leave hd hnext) hphase

/-- Resolving local references keeps the shape. -/
theorem Shaped.resolve {proved : Bool} (h : ws.Shaped (.closed proved))
    (not_qed : ∀ d target, .derivation d ∈ ws.contents → d.localRef = some target → d.id ≠ .qed)
    (hresolve : ws.resolveLocalRefs = .ok ws') : ws'.Shaped (.closed proved) := by
  obtain ⟨kept, r, passes, keeps⟩ := resolveLocalRefs_ok hresolve h.nodup
  have hids := keeps.ids
  have hcontents := keeps.contents
  obtain ⟨q', hafter, hbelow⟩ := after_passes passes not_qed (Or.inl rfl) h.phase
  refine ⟨?_, ?_, ?_, ?_, ?_, ?_, ?_⟩
  · rw [hcontents, hafter]
    rcases hbelow with rfl | ⟨-, hne⟩
    · rfl
    · cases hne
  · rw [hids]
    exact h.nodup.sublist passes.ids_sublist
  · intro id hid
    rw [hids] at hid
    rw [keeps.nextId]
    exact h.below id (passes.ids_sublist.subset hid)
  · intro e he hqed
    rw [keeps.entries, List.mem_map] at he
    obtain ⟨s', hs', rfl⟩ := he
    obtain ⟨s, hs, hid, hrel⟩ := passes.mem hs'
    have hsame : s.content.isQed = s'.content.isQed := by
      rcases hrel with rfl | ⟨d, hyps, hd, -, rfl⟩
      · rfl
      · rw [Statement.citing_content hd, hd]
        rfl
    rw [keeps.qed]
    show ws.qed = some s'.id
    rw [hid]
    exact h.qed s.entry (List.mem_map_of_mem hs) (hsame.trans hqed)
  · rw [keeps.qed]
    exact h.concluded
  · have hcount := passes.hypotheses
    rw [keeps.hypothesisCount, h.hypothesisCount, hcontents, contents, List.countP_map,
      List.countP_map]
    exact hcount.symm
  · intro d hd
    rw [hcontents, List.mem_map] at hd
    obtain ⟨s', hs', hd⟩ := hd
    obtain ⟨s, hs, -, hrel⟩ := passes.mem hs'
    rcases hrel with rfl | ⟨d₀, hyps, hd₀, -, rfl⟩
    · exact h.workVars d (hd ▸ List.mem_map_of_mem hs)
    · rw [Statement.citing_content hd₀] at hd
      cases hd
      exact h.workVars d₀ (hd₀ ▸ List.mem_map_of_mem hs)

/-- A worksheet that is read has the shape once its local references are resolved. -/
theorem shaped_resolved {caret : Option Nat} {text : Text} {read : Worksheet}
    {selected : Option StatementId}
    (hread : readText db st { cursor := { caret := caret } } text = .ok read)
    (hresolve : resolveLocalRefs { read with selected := selected } = .ok ws) :
    ∃ proved, ws.Shaped (.closed proved) := by
  obtain ⟨proved, hshaped⟩ := shaped_readText hread
  have hselected : Shaped { read with selected := selected } (.closed proved) :=
    ⟨hshaped.phase, hshaped.nodup, hshaped.below, hshaped.qed, hshaped.concluded,
      hshaped.hypothesisCount, hshaped.workVars⟩
  have not_qed : ∀ d target, .derivation d ∈ read.contents → d.localRef = some target →
      d.id ≠ .qed := by
    intro d target hd hlocal
    obtain ⟨s, hs, hc⟩ := List.mem_map.mp hd
    obtain ⟨b, -, -, -, hsaid⟩ := said_of_readText rfl hread hs
    rw [hc] at hsaid
    exact hsaid.localRef_ne_qed hlocal
  exact ⟨proved, hselected.resolve not_qed hresolve⟩

/-! ## Loading and calls -/

/-- A worksheet that loads cleanly has the shape. -/
theorem shaped_load {request : Request} {text : Text}
    (clean : (load db st request text).broken = false) :
    ∃ proved, (load db st request text).Shaped (.closed proved) := by
  obtain ⟨read, selected, ws, c, ids, hread, hresolve, -, -, hload⟩ := load_clean clean
  obtain ⟨proved, hresolved⟩ := shaped_resolved hread hresolve
  have hlevels := hresolved.measureLevels
  rw [hload]
  exact ⟨proved, hlevels.phase, hlevels.nodup, hlevels.below, hlevels.qed, hlevels.concluded,
    hlevels.hypothesisCount, hlevels.workVars⟩

/-- A worksheet that loads cleanly has the shape, whatever calls follow. -/
theorem shaped_afterCalls {request : Request} {text : Text}
    (clean : (load db st request text).broken = false) (calls : List Call) :
    ∃ proved, ((load db st request text).afterCalls calls).Shaped (.closed proved) := by
  obtain ⟨proved, h⟩ := shaped_load clean
  exact h.moves (moves_afterCalls _ calls)

end Worksheet

end ProofSheet
