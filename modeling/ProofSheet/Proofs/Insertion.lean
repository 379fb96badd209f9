import ProofSheet.Proofs.Compression
import ProofSheet.Proofs.Margins
import ProofSheet.Proofs.Output

set_option autoImplicit false

/-! # A generated proof that is inserted is read back

A generated proof stands after `qed`, where no step and no header stands, so putting one there, or
another one in its place, keeps statements arranged (`Arranged.exchange`). Its text is one chunk if
its lines after the first are indented or there are none (`CompressedProof.exists_chunk`). If they
are not, a word of the proof begins in the first column and tears the statement apart
(`CompressedProof.exists_torn`). So a worksheet with an inserted proof is loaded again, and with the
same proof, exactly if it could be loaded again before and the text is not torn
(`Worksheet.insertProof_reloads_iff`).
-/

namespace ProofSheet

/-! ## What follows the last step -/

/-- The content is no step and no header. -/
structure Content.IsAside (c : Content) : Prop where
  step : c.step? = none
  header : c.isHeader = false

namespace Content.IsAside

variable {c : Content} {cs ds : List Content}

theorem isHypothesis (h : c.IsAside) : c.isHypothesis = false := by
  cases c with
  | hypothesis s => cases h.step
  | _ => rfl

theorem theorem? (h : c.IsAside) : c.theorem? = none := by
  cases c with
  | header header => cases h.header
  | _ => rfl

theorem not_derivation (h : c.IsAside) (d : Derivation) : c ≠ .derivation d := by
  rintro rfl
  cases h.step

theorem filterMap_stepId? (h : ∀ c ∈ ds, c.IsAside) :
    (cs ++ ds).filterMap Content.stepId? = cs.filterMap Content.stepId? := by
  have hnone : ds.filterMap Content.stepId? = [] :=
    List.filterMap_eq_nil_iff.mpr fun c hc => Content.stepId?_of_not_step (h c hc).step
  rw [List.filterMap_append, hnone, List.append_nil]

theorem filterMap_theorem? (h : ∀ c ∈ ds, c.IsAside) :
    (cs ++ ds).filterMap Content.theorem? = cs.filterMap Content.theorem? := by
  have hnone : ds.filterMap Content.theorem? = [] :=
    List.filterMap_eq_nil_iff.mpr fun c hc => (h c hc).theorem?
  rw [List.filterMap_append, hnone, List.append_nil]

theorem countP_isHypothesis (h : ∀ c ∈ ds, c.IsAside) :
    (cs ++ ds).countP Content.isHypothesis = cs.countP Content.isHypothesis := by
  have hnone : ds.countP Content.isHypothesis = 0 := by
    rw [List.countP_eq_zero]
    intro c hc
    rw [(h c hc).isHypothesis]
    exact Bool.false_ne_true
  rw [List.countP_append, hnone, Nat.add_zero]

end Content.IsAside

/-- A condition that is met wherever the new contents stand. -/
theorem EachAfter.exchange {P : List Content → Content → Prop} {before tail tail' : List Content}
    (h : EachAfter P (before ++ tail)) (htail : ∀ b, ∀ c ∈ tail', P b c) :
    EachAfter P (before ++ tail') := by
  intro b c a hsplit
  rcases List.append_eq_append_iff.mp hsplit with ⟨as, -, rfl⟩ | ⟨bs, rfl, hrest⟩
  · exact htail b c (List.mem_append_right _ List.mem_cons_self)
  · cases bs with
    | nil =>
        rw [List.nil_append] at hrest
        rw [← hrest] at htail
        exact htail b c List.mem_cons_self
    | cons x bs =>
        rw [List.cons_append, List.cons.injEq] at hrest
        obtain ⟨rfl, -⟩ := hrest
        refine h b c (bs ++ tail) ?_
        rw [List.append_assoc, List.cons_append]

namespace Arranged

variable {db : Database} {before tail tail' after : List Content} {body body' : ProofBody}

/-- What follows the last step may be exchanged for anything that leads to the end as well. -/
theorem exchange (h : Arranged db (before ++ tail))
    (not_qed : ∀ c ∈ before, c.isHypothesis = true → c.isQed = false)
    (htail : ∀ c ∈ tail, c.IsAside) (htail' : ∀ c ∈ tail', c.IsAside)
    (hphase : ∀ p proved, Phase.opening.after before = some p →
      p.after tail = some (.closed proved) → ∃ proved', p.after tail' = some (.closed proved')) :
    Arranged db (before ++ tail') := by
  obtain ⟨proved, hclosed⟩ := h.exists_phase fun c hc hhyp => by
    rcases List.mem_append.mp hc with hc | hc
    · exact not_qed c hc hhyp
    · rw [(htail c hc).isHypothesis] at hhyp
      cases hhyp
  rw [Phase.after_append, Option.bind_eq_some_iff] at hclosed
  obtain ⟨p, hp, hclosed⟩ := hclosed
  obtain ⟨proved', hclosed'⟩ := hphase p proved hp hclosed
  have hphase' : Phase.opening.after (before ++ tail') = some (.closed proved') := by
    rw [Phase.after_append, hp, Option.bind_some, hclosed']
  have cited : Along CitesEarlier [] (before ++ tail') := along_iff.mpr
    (h.cited.exchange fun b c hc d hd => absurd hd ((htail' c hc).not_derivation d))
  have resolvable : EachAfter Resolvable (before ++ tail') :=
    h.resolvable.exchange fun b c hc d target hd => absurd hd ((htail' c hc).not_derivation d)
  refine Arranged.of_phase hphase' ?_ cited resolvable ?_
  · rw [Content.IsAside.filterMap_stepId? htail', ← Content.IsAside.filterMap_stepId? htail]
    exact h.names
  · rw [Content.IsAside.filterMap_theorem? htail', ← Content.IsAside.filterMap_theorem? htail,
      Content.IsAside.countP_isHypothesis htail', ← Content.IsAside.countP_isHypothesis htail]
    exact h.counted

/-- After a generated proof there are no steps and no header. -/
theorem aside_of_proof (h : Arranged db (before ++ .proof body :: after)) :
    ∀ c ∈ .proof body :: after, c.IsAside := by
  refine List.forall_mem_cons.mpr ⟨⟨rfl, rfl⟩, fun c hc => ?_⟩
  obtain ⟨a, b, rfl⟩ := List.append_of_mem hc
  have hconcluded := ((h.inOrder before _ _ rfl).proof rfl).1
  have horder := h.inOrder (before ++ .proof body :: a) c b (by simp)
  constructor
  · cases hstep : c.step? with
    | none => rfl
    | some s =>
        -- a step would stand after `qed`
        have hnone := horder.step (by rw [Content.isStep, hstep]; rfl)
        rw [List.any_append, hconcluded, Bool.true_or] at hnone
        cases hnone
  · rw [Bool.eq_false_iff]
    intro hheader
    have hnil := horder.header.mp hheader
    simp at hnil

/-- Another proof may take the place of a generated proof. -/
theorem replaceProof (h : Arranged db (before ++ .proof body :: after))
    (not_qed : ∀ c ∈ before, c.isHypothesis = true → c.isQed = false) (body' : ProofBody) :
    Arranged db (before ++ .proof body' :: after) := by
  have haside := h.aside_of_proof
  have haside' : ∀ c ∈ .proof body' :: after, c.IsAside :=
    List.forall_mem_cons.mpr ⟨⟨rfl, rfl⟩, (List.forall_mem_cons.mp haside).2⟩
  refine h.exchange not_qed haside haside' fun p proved _ hclosed => ⟨proved, ?_⟩
  rw [Phase.after, Phase.next_proof_congr body' body]
  exact hclosed

theorem aside_footer : ∀ c ∈ [Content.footer], c.IsAside := by
  intro c hc
  rw [List.mem_singleton.mp hc]
  exact ⟨rfl, rfl⟩

theorem aside_proof_footer (body : ProofBody) : ∀ c ∈ [.proof body, Content.footer], c.IsAside :=
  List.forall_mem_cons.mpr ⟨⟨rfl, rfl⟩, aside_footer⟩

/-- A generated proof may be put in front of the footer if there is none, and it may go. -/
theorem proof_iff (not_qed : ∀ c ∈ before, c.isHypothesis = true → c.isQed = false)
    (hnone : before.any Content.isProof = false) (body : ProofBody) :
    Arranged db (before ++ [.proof body, .footer]) ↔ Arranged db (before ++ [.footer]) := by
  constructor
  · intro h
    refine h.exchange not_qed (aside_proof_footer body) aside_footer fun p proved _ hclosed => ?_
    cases p with
    | concluded proved => exact ⟨proved, rfl⟩
    | _ => cases hclosed
  · intro h
    refine h.exchange not_qed aside_footer (aside_proof_footer body) fun p proved hp hclosed => ?_
    have hproved : p.isProved = false := (Phase.told hp).2.2.2.1.trans hnone
    cases p with
    | concluded proved =>
        cases hproved
        exact ⟨true, rfl⟩
    | _ => cases hclosed

end Arranged

/-! ## Chunks with a generated proof -/

/-- What is between `$=` and `$.`, if the content is a generated proof. -/
def Content.body? : Content → Option ProofBody
  | .proof body => some body
  | _ => none

section Chunks

variable {db : Database} {c o f : Chunk} {cs ds : List Chunk} {p : CompressedProof}
  {body body' : ProofBody}

theorem Spells.spellsProof {lead tail : Text} {words : List Text}
    (h : Spells db lead words tail (.proof body)) : SpellsProof words body := by
  cases h with
  | proof h => exact h

/-- What a chunk with the lead of a generated proof spells is one. -/
theorem Chunk.Spells.exists_proof {x : Content} (h : c.Spells db x)
    (hlead : c.lead = Keyword.proof) :
    ∃ body, x = .proof body ∧ SpellsProof (wordsOf c.tail) body := by
  have hproof := h.said.isProof_iff.mpr hlead
  cases x with
  | proof body => exact ⟨body, rfl, h.spellsProof⟩
  | _ => cases hproof

theorem Chunk.Spells.lead_of_proof (h : c.Spells db (.proof body)) : c.lead = Keyword.proof :=
  h.said.isProof_iff.mp rfl

theorem Chunk.spells_proof (hlead : c.lead = Keyword.proof)
    (h : SpellsProof (wordsOf c.tail) body) : c.Spells db (.proof body) := by
  rw [Chunk.Spells, hlead]
  exact .proof h

/-- The words of a proof spell one proof only. -/
theorem SpellsProof.unique {words : List Text} (h : SpellsProof words body)
    (h' : SpellsProof words body') : body = body' := by
  rw [← proofOf?_iff] at h h'
  exact Option.some.inj (h.symm.trans h')

/-- What chunks with one among them spell. -/
theorem forall₂_split {xs : List Content} (h : List.Forall₂ (Chunk.Spells db) (cs ++ c :: ds) xs) :
    ∃ before x after, xs = before ++ x :: after ∧
      List.Forall₂ (Chunk.Spells db) cs before ∧ c.Spells db x ∧
      List.Forall₂ (Chunk.Spells db) ds after := by
  induction cs generalizing xs with
  | nil =>
      rw [List.nil_append, List.forall₂_cons_left_iff] at h
      obtain ⟨x, after, hx, hafter, rfl⟩ := h
      exact ⟨[], x, after, rfl, .nil, hx, hafter⟩
  | cons d rest ih =>
      rw [List.cons_append, List.forall₂_cons_left_iff] at h
      obtain ⟨y, ys, hy, hys, rfl⟩ := h
      obtain ⟨before, x, after, rfl, hbefore, hx, hafter⟩ := ih hys
      exact ⟨y :: before, x, after, rfl, .cons hy hbefore, hx, hafter⟩

theorem not_qed_of_spells {xs : List Content} (h : List.Forall₂ (Chunk.Spells db) cs xs) :
    ∀ x ∈ xs, x.isHypothesis = true → x.isQed = false := by
  intro x hx
  obtain ⟨c, -, hc⟩ := exists_mem_of_forall₂ h hx
  exact hc.said.not_qed

/-- One generated proof may be written in the place of another. -/
theorem SpellWorksheet.replace (h : SpellWorksheet db (cs ++ o :: ds)) (ho : o.lead = Keyword.proof)
    (hc : c.Spells db (.proof body)) : SpellWorksheet db (cs ++ c :: ds) := by
  obtain ⟨xs, hxs, arranged⟩ := h
  obtain ⟨before, x, after, rfl, hbefore, hx, hafter⟩ := forall₂_split hxs
  obtain ⟨old, rfl, -⟩ := hx.exists_proof ho
  exact ⟨before ++ .proof body :: after, List.rel_append hbefore (.cons hc hafter),
    arranged.replaceProof (not_qed_of_spells hbefore) body⟩

/-- A generated proof may be written in front of the footer if there is none, and it may go. -/
theorem spellWorksheet_insert_iff (hcs : ∀ b ∈ cs, b.lead ≠ Keyword.proof)
    (hf : f.lead = Keyword.footer) (hc : c.Spells db (.proof body)) :
    SpellWorksheet db (cs ++ [c, f]) ↔ SpellWorksheet db (cs ++ [f]) := by
  have no_proof : ∀ {xs}, List.Forall₂ (Chunk.Spells db) cs xs →
      xs.any Content.isProof = false := by
    intro xs hxs
    rw [List.any_eq_false]
    intro x hx hproof
    obtain ⟨b, hb, hbx⟩ := exists_mem_of_forall₂ hxs hx
    exact hcs b hb (hbx.said.isProof_iff.mp hproof)
  have footer_of : ∀ {x}, f.Spells db x → x = .footer := by
    intro x hx
    have hfooter := hx.said.isFooter_iff.mpr hf
    cases x <;> first | rfl | cases hfooter
  constructor
  · rintro ⟨xs, hxs, arranged⟩
    obtain ⟨before, x, after, rfl, hbefore, hx, hafter⟩ := forall₂_split hxs
    obtain ⟨y, nothing, hy, hnothing, rfl⟩ := List.forall₂_cons_left_iff.mp hafter
    cases hnothing
    obtain rfl := footer_of hy
    obtain ⟨old, rfl, -⟩ := hx.exists_proof hc.lead_of_proof
    exact ⟨before ++ [.footer], List.rel_append hbefore (.cons hy .nil),
      (Arranged.proof_iff (not_qed_of_spells hbefore) (no_proof hbefore) old).mp arranged⟩
  · rintro ⟨xs, hxs, arranged⟩
    obtain ⟨before, x, after, rfl, hbefore, hx, hnothing⟩ := forall₂_split hxs
    cases hnothing
    obtain rfl := footer_of hx
    exact ⟨before ++ [.proof body, .footer], List.rel_append hbefore (.cons hc (.cons hx .nil)),
      (Arranged.proof_iff (not_qed_of_spells hbefore) (no_proof hbefore) body).mpr arranged⟩

/-- The place for a generated proof between other chunks: the chunk of the one that there is, or the
place in front of the footer if there is none. -/
inductive IsSlot (db : Database) (cs : List Chunk) : List Chunk → List Chunk → Prop where
  | proof {o : Chunk} {body : ProofBody} {ds : List Chunk} (h : o.Spells db (.proof body)) :
      IsSlot db cs [o] ds
  | footer {f : Chunk} (no_proof : ∀ b ∈ cs, b.lead ≠ Keyword.proof)
      (hf : f.lead = Keyword.footer) : IsSlot db cs [] [f]

/-- A generated proof in its place makes no difference to the rest. -/
theorem IsSlot.spellWorksheet_iff {os : List Chunk} (h : IsSlot db cs os ds)
    (hc : c.Spells db (.proof body)) :
    SpellWorksheet db (cs ++ c :: ds) ↔ SpellWorksheet db (cs ++ (os ++ ds)) := by
  cases h with
  | proof ho =>
      exact ⟨fun h => h.replace hc.lead_of_proof ho, fun h => h.replace ho.lead_of_proof hc⟩
  | footer no_proof hf => exact spellWorksheet_insert_iff no_proof hf hc

theorem SpellsProof.proofEnd_mem {words : List Text} (h : SpellsProof words body) :
    Keyword.proofEnd ∈ words := by
  cases h with
  | normal => exact List.mem_append_right _ List.mem_cons_self
  | compressed => simp

/-- Nothing is spelled where a generated proof does not reach to its end. -/
theorem not_spellWorksheet_of_torn (hlead : c.lead = Keyword.proof)
    (htorn : Keyword.proofEnd ∉ wordsOf c.tail) : ¬ SpellWorksheet db (cs ++ c :: ds) := by
  rintro ⟨xs, hxs, -⟩
  obtain ⟨before, x, after, -, -, hx, -⟩ := forall₂_split hxs
  obtain ⟨body, -, hbody⟩ := hx.exists_proof hlead
  exact htorn hbody.proofEnd_mem

/-- The generated proof among statements that are arranged is the only one. -/
theorem bodies_of_arranged {before after : List Content}
    (arranged : Arranged db (before ++ .proof body :: after)) :
    ((before ++ .proof body :: after).filterMap Content.body?).head? = some body := by
  have hnone : before.filterMap Content.body? = [] := by
    rw [List.filterMap_eq_nil_iff]
    intro x hx
    have hproof := List.any_eq_false.mp (arranged.proof before _ after rfl rfl).2 x hx
    cases x with
    | proof old => exact absurd rfl hproof
    | _ => rfl
  rw [List.filterMap_append, hnone]
  rfl

end Chunks

/-! ## Loading -/

namespace Worksheet

variable {db : Database} {st st₀ : Settings} {ws : Worksheet} {p : CompressedProof}

theorem proof?_eq (ws : Worksheet) :
    ws.proof? = (ws.contents.filterMap Content.body?).head? := by
  rw [proof?, List.head?_filterMap, contents, List.findSome?_map]
  rfl

/-- The generated proof of a worksheet is the first one among the statements that the pass goes
over. -/
theorem proof?_of_passes {r r' : Resolution} {ss kept : List Statement}
    (passes : Resolution.Passes r ss kept r')
    (relaid : List.Forall₂ Statement.Relaid kept ws.statements) :
    ws.proof? = ((ss.map Statement.content).filterMap Content.body?).head? := by
  have hmap : ws.statements.map (Content.body? ∘ Statement.content) =
      kept.map (Content.body? ∘ Statement.content) := by
    refine map_eq_of_forall₂ relaid fun s s' h => ?_
    obtain ⟨level, hcontent⟩ := h.content
    show s'.content.body? = s.content.body?
    rw [hcontent]
    cases s.content <;> rfl
  have hbodies : ws.contents.filterMap Content.body? =
      (kept.map Statement.content).filterMap Content.body? := by
    have hfilter := congrArg (List.filterMap id) hmap
    rw [contents, List.filterMap_map, List.filterMap_map]
    rwa [List.filterMap_map, List.filterMap_map] at hfilter
  rw [proof?_eq, hbodies, filterMap_passes (fun d => rfl) passes]

theorem text_newStatement (id : StatementId) (content : Content) (text : Text) :
    (newStatement id content text).text = text := List.takeWhile_append_dropWhile

/-- Where a generated proof is put, and what is written then. -/
theorem Shaped.insertProof_output {proved : Bool} (h : ws.Shaped (.closed proved)) (st : Settings)
    (p : CompressedProof) :
    ∃ before old after, ws.statements = before ++ (old ++ after) ∧ after ≠ [] ∧
      (ws.insertProof st p).output = before.flatMap Statement.text ++
        (p.layout st.proofTextWidth st.proofIndent ++ after.flatMap Statement.text) ∧
      ((∃ s, old = [s] ∧ s.isProof = true) ∨
        old = [] ∧ (∀ s ∈ before, s.isProof = false) ∧ ∃ f, after = [f] ∧ f.isFooter = true) := by
  obtain ⟨others, last, hlast, hfooter, -⟩ := h.footer rfl
  obtain ⟨before, old, after, hss, hold, hinsert⟩ | ⟨before, after, hss, hnone, hafter, hinsert⟩ :=
    ws.insertProof_split st p h.nodup
  · refine ⟨before, [old], after, hss, ?_, ?_, Or.inl ⟨old, rfl, hold⟩⟩
    · -- the last statement is the footer
      rintro rfl
      rw [hlast] at hss
      obtain ⟨-, heq⟩ := List.append_inj' hss rfl
      rw [← List.singleton_inj.mp heq, Statement.isProof_eq] at hold
      rw [Statement.isFooter_eq] at hfooter
      cases hc : last.content with
      | footer =>
          rw [hc] at hold
          cases hold
      | _ =>
          rw [hc] at hfooter
          cases hfooter
    · rw [hinsert, output_respan, output, List.flatMap_append, List.flatMap_cons,
        text_newStatement]
  · obtain ⟨f, rest, rfl, hf⟩ : ∃ f rest, after = f :: rest ∧ f.isFooter = true := by
      refine hafter.resolve_right fun hall => ?_
      have hnot := hall last (by rw [hlast]; exact List.mem_append_right _ List.mem_cons_self)
      rw [hfooter] at hnot
      cases hnot
    obtain rfl : rest = [] := h.eq_nil_of_footer hss hf
    refine ⟨before, [], [f], hss, List.cons_ne_nil _ _, ?_, Or.inr ⟨rfl, ?_, f, rfl, hf⟩⟩
    · rw [hinsert, output_respan, output, List.flatMap_append, List.flatMap_cons,
        text_newStatement]
    · intro s hs
      exact hnone s (by rw [hss]; exact List.mem_append_left _ hs)

theorem applyEdits_insertProof (h : ws.broken = false) (st : Settings) (p : CompressedProof) :
    ws.applyEdits st [.insertProof p] = ((ws.insertProof st p).measureLevels, none) := by
  rw [applyEdits, if_neg (by rw [h]; exact Bool.false_ne_true)]
  rfl

/-- The chunks of a worksheet that loads cleanly have a place for a generated proof, and that is
where one is put. -/
theorem exists_slot {request : Request} {text : Text}
    (clean : (load db st₀ request text).broken = false) (st : Settings) (p : CompressedProof) :
    ∃ cs os ds, IsSlot db cs os ds ∧ LaidOut (cs ++ (os ++ ds)) ∧ ds ≠ [] ∧
      (load db st₀ request text).output = (cs ++ (os ++ ds)).flatMap Chunk.text ∧
      ((load db st₀ request text).insertProof st p).output =
        cs.flatMap Chunk.text ++
          (p.layout st.proofTextWidth st.proofIndent ++ ds.flatMap Chunk.text) := by
  obtain ⟨proved, hshaped⟩ := shaped_load clean
  obtain ⟨hlaid, told⟩ := laidOut_load clean
  obtain ⟨before, old, after, hss, hafter, houtput, hslot⟩ := hshaped.insertProof_output st p
  have texts : ∀ ss : List Statement,
      (ss.map Statement.chunk).flatMap Chunk.text = ss.flatMap Statement.text := by
    intro ss
    rw [List.flatMap_map]
    rfl
  rw [hss] at told
  refine ⟨before.map Statement.chunk, old.map Statement.chunk, after.map Statement.chunk, ?_, ?_,
    ?_, ?_, ?_⟩
  · rcases hslot with ⟨s, rfl, hs⟩ | ⟨rfl, no_proof, f, rfl, hf⟩
    · have toldₛ := told s (by simp)
      rw [Statement.isProof_eq] at hs
      have not_step : s.isStep = false := by
        rw [Statement.isStep_eq, Content.isStep, Content.step?_of_isProof hs]
        rfl
      have said := spells_iff_says.mpr (toldₛ.said not_step)
      cases hc : s.content with
      | proof body =>
          rw [hc] at said
          exact .proof said
      | _ =>
          rw [hc] at hs
          cases hs
    · refine .footer (fun b hb => ?_) ((told f (by simp)).footer.mp hf)
      obtain ⟨s, hs, rfl⟩ := List.mem_map.mp hb
      intro hlead
      have hproof := (told s (List.mem_append_left _ hs)).proof.mpr hlead
      rw [no_proof s hs] at hproof
      cases hproof
  · rw [hss, List.map_append, List.map_append] at hlaid
    exact hlaid
  · simpa using hafter
  · rw [output_eq, hss, List.map_append, List.map_append]
  · rw [houtput, texts, texts]

/-- The proof of a worksheet that is written in chunks is the one that its chunk spells. -/
theorem proof?_of_chunks {c : Chunk} {cs ds : List Chunk} {body : ProofBody}
    (hlaid : LaidOut (cs ++ c :: ds)) (hc : c.Spells db (.proof body))
    (clean : (load db st {} ((cs ++ c :: ds).flatMap Chunk.text)).broken = false) :
    (load db st {} ((cs ++ c :: ds).flatMap Chunk.text)).proof? = some body := by
  obtain ⟨xs, hxs, arranged⟩ := (clean_chunks_iff hlaid st).mp clean
  obtain ⟨ss, kept, r, -, hss, passes, relaid⟩ := load_chunks hlaid hxs arranged st
  obtain ⟨before, x, after, rfl, hbefore, hx, hafter⟩ := forall₂_split hxs
  obtain ⟨body', rfl, hbody'⟩ := hx.exists_proof hc.lead_of_proof
  rw [proof?_of_passes passes relaid, hss, bodies_of_arranged arranged,
    hbody'.unique hc.spellsProof]

/-- A worksheet in which a generated proof that goes into one chunk takes its place is loaded
exactly if the worksheet without it is, and the proof is read back. -/
theorem reload_of_whole {cs os ds : List Chunk} (plain : p.IsPlain) (slot : IsSlot db cs os ds)
    (hlaid : LaidOut (cs ++ (os ++ ds))) (hds : ds ≠ [])
    (whole : 0 < st.proofIndent ∨ lineFeeds (p.layout st.proofTextWidth st.proofIndent) = 1) :
    let reloaded := load db st {} (cs.flatMap Chunk.text ++
      (p.layout st.proofTextWidth st.proofIndent ++ ds.flatMap Chunk.text))
    (reloaded.broken = false ↔
      (load db st {} ((cs ++ (os ++ ds)).flatMap Chunk.text)).broken = false) ∧
      (reloaded.broken = false → reloaded.proof? = some (.compressed p)) := by
  obtain ⟨c, htext, hlead, spelled, laid, ends⟩ := plain.exists_chunk whole
  have hc : c.Spells db (.proof (.compressed p)) := Chunk.spells_proof hlead spelled
  obtain ⟨hcs, hrest⟩ := (laidOut_append (by simp [hds])).mp hlaid
  obtain ⟨-, hlaid_ds⟩ := (laidOut_append hds).mp hrest
  have hlaid' : LaidOut (cs ++ c :: ds) :=
    (laidOut_append (List.cons_ne_nil _ _)).mpr ⟨hcs, laid, fun _ => ends, hlaid_ds⟩
  have htext' : cs.flatMap Chunk.text ++ (p.layout st.proofTextWidth st.proofIndent ++
      ds.flatMap Chunk.text) = (cs ++ c :: ds).flatMap Chunk.text := by
    rw [List.flatMap_append, List.flatMap_cons, htext]
  rw [htext']
  refine ⟨?_, proof?_of_chunks hlaid' hc⟩
  rw [clean_chunks_iff hlaid' st, clean_chunks_iff hlaid st, slot.spellWorksheet_iff hc]

/-- A worksheet in which a generated proof that is torn apart takes its place is not loaded. -/
theorem reload_of_torn {cs os ds : List Chunk} (plain : p.IsPlain)
    (hlaid : LaidOut (cs ++ (os ++ ds))) (hds : ds ≠ [])
    (torn : ¬ (0 < st.proofIndent ∨
      lineFeeds (p.layout st.proofTextWidth st.proofIndent) = 1)) :
    (load db st {} (cs.flatMap Chunk.text ++ (p.layout st.proofTextWidth st.proofIndent ++
      ds.flatMap Chunk.text))).broken ≠ false := by
  obtain ⟨c, more, htext, hlead, htorn, laid, ends, hmore⟩ := plain.exists_torn torn
  obtain ⟨hcs, hrest⟩ := (laidOut_append (by simp [hds])).mp hlaid
  obtain ⟨-, hlaid_ds⟩ := (laidOut_append hds).mp hrest
  -- what is after the first line is cut into chunks of its own
  obtain ⟨es, hes, hmore'⟩ := exists_laidOut (hmore.append hlaid_ds.beginsWord)
  have hlaid' : LaidOut (cs ++ c :: es) :=
    (laidOut_append (List.cons_ne_nil _ _)).mpr ⟨hcs, laid, fun _ => ends, hes⟩
  have htext' : cs.flatMap Chunk.text ++ (p.layout st.proofTextWidth st.proofIndent ++
      ds.flatMap Chunk.text) = (cs ++ c :: es).flatMap Chunk.text := by
    rw [List.flatMap_append, List.flatMap_cons, ← hmore', ← htext, List.append_assoc]
  rw [htext']
  intro clean
  exact not_spellWorksheet_of_torn hlead htorn ((clean_chunks_iff hlaid' st).mp clean)

/-- A generated proof that is inserted into a worksheet that loads cleanly is read back exactly if
the worksheet could be loaded again before and the proof is written with an indent or on one line.
The bound on the two lists is met by lists in memory. -/
theorem insertProof_reloads_iff {request : Request} {text : Text}
    (clean : (load db st₀ request text).broken = false) {mandatory proof : List Text}
    (range : mandatory.length + proof.length ≤ Code.indexLimit)
    (labels : ∀ x ∈ (compress mandatory proof).labels,
      x ≠ [] ∧ IsSolid x ∧ x ≠ Keyword.closeLabels ∧ x ≠ Keyword.proofEnd) (st : Settings) :
    let p := compress mandatory proof
    let ws := load db st₀ request text
    let edited := ws.applyEdits st [.insertProof p]
    let reloaded := load db st {} edited.1.output
    edited.2 = none ∧
      (reloaded.broken = false ↔
        (load db st {} ws.output).broken = false ∧
          (0 < st.proofIndent ∨ lineFeeds (p.layout st.proofTextWidth st.proofIndent) = 1)) ∧
      (reloaded.broken = false → reloaded.proof? = some (.compressed p)) := by
  intro p ws edited reloaded
  have plain : p.IsPlain := ⟨labels, valid_compress range⟩
  obtain ⟨cs, os, ds, slot, hlaid, hds, hold, hnew⟩ := exists_slot clean st p
  have hedited : edited = ((ws.insertProof st p).measureLevels, none) :=
    applyEdits_insertProof clean st p
  have hreloaded : reloaded = load db st {} (cs.flatMap Chunk.text ++
      (p.layout st.proofTextWidth st.proofIndent ++ ds.flatMap Chunk.text)) := by
    show load db st {} edited.1.output = _
    rw [hedited, output_measureLevels, hnew]
  refine ⟨by rw [hedited], ?_⟩
  rw [hreloaded, hold]
  by_cases hwhole : 0 < st.proofIndent ∨
      lineFeeds (p.layout st.proofTextWidth st.proofIndent) = 1
  · rw [and_iff_left hwhole]
    exact reload_of_whole plain slot hlaid hds hwhole
  · have hbroken : ¬ (load db st {} _).broken = false := reload_of_torn plain hlaid hds hwhole
    exact ⟨iff_of_false hbroken fun h => hwhole h.2, fun h => absurd h hbroken⟩

/-- Settings under which the lines of a generated proof are short and not indented. -/
def narrow : Settings := { proofTextWidth := 20, proofIndent := 0 }

/-- A proof with a mandatory hypothesis, an unknown step and a label. -/
def shortProof : List Text := [['t', '.', '1'], ['?'], ['a', 'x']]

theorem insertProof_reloads_iff_shortText :
    (load .empty {} {} shortText).broken = false ∧
      [['t', '.', '1']].length + shortProof.length ≤ Code.indexLimit ∧
      (∀ x ∈ (compress [['t', '.', '1']] shortProof).labels,
        x ≠ [] ∧ IsSolid x ∧ x ≠ Keyword.closeLabels ∧ x ≠ Keyword.proofEnd) ∧
      (let p := compress [['t', '.', '1']] shortProof
      let ws := load .empty {} {} shortText
      let edited := ws.applyEdits narrow [.insertProof p]
      let reloaded := load .empty narrow {} edited.1.output
      edited.2 = none ∧
        (reloaded.broken = false ↔
          (load .empty narrow {} ws.output).broken = false ∧
            (0 < narrow.proofIndent ∨
              lineFeeds (p.layout narrow.proofTextWidth narrow.proofIndent) = 1)) ∧
        (reloaded.broken = false → reloaded.proof? = some (.compressed p))) := by
  have range : [['t', '.', '1']].length + shortProof.length ≤ Code.indexLimit := by decide
  have labels : ∀ x ∈ (compress [['t', '.', '1']] shortProof).labels,
      x ≠ [] ∧ IsSolid x ∧ x ≠ Keyword.closeLabels ∧ x ≠ Keyword.proofEnd := by decide +kernel
  exact ⟨shortText_loads, range, labels,
    insertProof_reloads_iff shortText_loads range labels narrow⟩

/-- The labels of a proof that does not go on one short line. -/
def longProof : List Text := [['a', 'x', '-', '1'], ['a', 'x', '-', '2'], ['a', 'x', '-', 'm', 'p']]

/-- Without indent, a generated proof with several lines cannot be read back. -/
theorem insertProof_torn :
    narrow.defect? = none ∧ (load .empty narrow {} shortText).broken = false ∧
      (load .empty narrow {} (load .empty narrow {} shortText).output).broken = false ∧
      (∀ x ∈ (compress [] longProof).labels,
        x ≠ [] ∧ IsSolid x ∧ x ≠ Keyword.closeLabels ∧ x ≠ Keyword.proofEnd) ∧
      ((load .empty narrow {} shortText).applyEdits narrow
        [.insertProof (compress [] longProof)]).2 = none ∧
      (load .empty narrow {} ((load .empty narrow {} shortText).applyEdits narrow
        [.insertProof (compress [] longProof)]).1.output).broken = true := by
  decide +kernel

/-- A worksheet with a label that begins with `#` behind a blank that separates no tokens. -/
def hashText : Text :=
  "$( <MM> <PROOF_ASST> THEOREM=t LOC_AFTER=?\n1:: |- p\n2:#1:\u00a0#z |- q\nqed:: |- r\n$)\n".toList

-- Not every worksheet that loads can be loaded again: where the lead of such a step is written
-- anew, the blank is gone, and `#z` is read as a reference to another step.
example : (load .empty {} {} hashText).broken = false ∧
    (load .empty {} {} (load .empty {} {} hashText).output).broken = true := by
  decide +kernel

end Worksheet

end ProofSheet
