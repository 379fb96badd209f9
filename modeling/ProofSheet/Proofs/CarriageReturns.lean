import ProofSheet.Proofs.LikeLoads
import ProofSheet.Proofs.Lossless

set_option autoImplicit false

/-! # Carriage returns before line feeds

A text with a carriage return before each line feed is a respelling of the text without them
(`Respelling.carriageReturns`), so the two load alike. Whether or not the load ends in a fault, the
lead of every statement is one word (`Worksheet.solidLeads_load`), so that a statement of the one
worksheet has the text of the other with carriage returns. Both worksheets then say the same, and
the same is reported about them (`Worksheet.load_crlf`).
-/

namespace ProofSheet

/-- The text with a carriage return before each line feed. -/
def crlf (t : Text) : Text := t.flatMap fun c => if c = '\n' then ['\r', '\n'] else [c]

/-- Line ends are spelled with a carriage return, and nothing is asked of offsets. -/
def Respelling.carriageReturns : Respelling where
  spell c := if c = '\n' then ['\r', '\n'] else [c]
  offset _ _ := True
  spell_ne_nil c := by
    split
    · exact List.cons_ne_nil _ _
    · exact List.cons_ne_nil _ _
  spell_solid c hc := by
    refine if_neg ?_
    rintro rfl
    cases hc
  isSeparator_spell c x hx := by
    split at hx
    · next hc =>
        rw [hc]
        rcases List.mem_pair.mp hx with rfl | rfl
        · rfl
        · rfl
    · rw [List.mem_singleton.mp hx]
  lineFeeds_spell c := by
    split
    · next hc =>
        rw [hc]
        rfl
    · rfl
  position_spell p c := by
    split
    · next hc =>
        rw [hc]
        rfl
    · rfl
  offset_zero := trivial
  offset_spell _ _ _ _ := trivial

/-! ## Leads -/

theorem solid_of_mem_tokens {text : Text} {t : Token} (ht : t ∈ tokens text) :
    ∀ c ∈ t.text, isSeparator c = false := by
  have like := Respelling.same.tokens_like text
  rw [Respelling.text_same] at like
  obtain ⟨u, -, hu⟩ := exists_mem_of_forall₂ like ht
  rw [hu.text]
  exact hu.solid

namespace Resolution

/-- Resolving entries does not touch a lead, even if it fails. -/
theorem leads_resolveAll (r : Resolution) (label : Option Text) (ss : List Statement) :
    (r.resolveAll label ss).1.map Statement.lead = ss.map Statement.lead := by
  induction ss generalizing r with
  | nil => rfl
  | cons s rest ih =>
      have hlead : (r.resolveStatement label s).1.lead = s.lead := by
        unfold resolveStatement
        split
        · dsimp only
          split
          · rfl
          · rfl
        · rfl
        · rfl
      rw [resolveAll]
      generalize r.resolveStatement label s = x at hlead ⊢
      obtain ⟨s', outcome⟩ := x
      cases outcome with
      | error f => rw [List.map_cons, List.map_cons, ← hlead]
      | ok r₁ =>
          dsimp only
          rw [List.map_cons, List.map_cons, ← hlead, ih r₁]

end Resolution

namespace Worksheet

variable {db : Database} {st : Settings} {ws ws' : Worksheet} {text : Text}

/-- The lead of every statement is one word. -/
def SolidLeads (ws : Worksheet) : Prop :=
  ∀ s ∈ ws.statements, ∀ c ∈ s.lead, isSeparator c = false

theorem SolidLeads.of_leads (h : ws.SolidLeads)
    (hleads : ws'.statements.map Statement.lead = ws.statements.map Statement.lead) :
    ws'.SolidLeads := by
  intro s hs
  obtain ⟨s₀, hs₀, heq⟩ := List.mem_map.mp (hleads ▸ List.mem_map_of_mem hs)
  rw [← heq]
  exact h s₀ hs₀

theorem solidLeads_readBlocks {bs : List Block}
    (hbs : ∀ b ∈ bs, ∀ c ∈ b.head.text, isSeparator c = false) (h : ws.SolidLeads) :
    (ofReading (ws.readBlocks db st bs)).SolidLeads := by
  -- a statement that is read has the head of its block as its lead
  have reads : ∀ {done : List Block} {new : List Statement}, done ⊆ bs →
      List.Forall₂ (Statement.ReadFrom db) done new → ∀ s ∈ ws.statements ++ new,
        ∀ c ∈ s.lead, isSeparator c = false := by
    intro done new hdone hall s hs
    rcases List.mem_append.mp hs with hs | hs
    · exact h s hs
    · obtain ⟨b, hb, hread⟩ := exists_mem_of_forall₂ hall hs
      rw [hread.lead]
      exact hbs b (hdone hb)
  cases hread : ws.readBlocks db st bs with
  | ok ws' =>
      obtain ⟨new, hnew, hall⟩ := readBlocks_reads hread
      show ∀ s ∈ ws'.statements, _
      rw [hnew]
      exact reads (List.Subset.refl bs) hall
  | error stop =>
      obtain ⟨done, rest, new, hsplit, hnew, hall⟩ := readBlocks_stops hread
      show ∀ s ∈ stop.sheet.statements, _
      rw [hnew]
      exact reads (hsplit ▸ List.subset_append_left done rest) hall

theorem solidLeads_readText (hnil : ws.statements = []) :
    (ofReading (ws.readText db st text)).SolidLeads := by
  have nothing : ws.SolidLeads := fun s hs => by
    rw [hnil] at hs
    cases hs
  unfold readText
  split
  · exact nothing
  next first rest htokens =>
  split
  · exact nothing
  split
  · exact nothing
  refine solidLeads_readBlocks (fun b hb => ?_) nothing
  rw [← htokens] at hb
  exact solid_of_mem_tokens (mem_blocksOf hb).1

theorem solidLeads_resolveLocalRefs (h : ws.SolidLeads)
    (hkept : ∀ kept r, Resolution.Passes {} ws.statements kept r →
      ∀ s ∈ kept, ∀ c ∈ s.lead, isSeparator c = false) (nodup : ws.ids.Nodup) :
    (ofReading ws.resolveLocalRefs).SolidLeads := by
  cases hresolve : ws.resolveLocalRefs with
  | ok ws' =>
      obtain ⟨kept, r, passes, keeps⟩ := resolveLocalRefs_ok hresolve nodup
      intro s hs
      replace hs : s ∈ ws'.statements := hs
      rw [keeps.statements] at hs
      have hlead := map_respanFrom Statement.lead (fun _ _ _ => rfl) 0 0 kept
      obtain ⟨k, hk, heq⟩ := List.mem_map.mp (hlead ▸ List.mem_map_of_mem hs)
      rw [← heq]
      exact hkept kept r passes k hk
  | error stop =>
      have hleads := Resolution.leads_resolveAll {} ws.theoremLabel ws.statements
      unfold resolveLocalRefs at hresolve
      generalize Resolution.resolveAll {} ws.theoremLabel ws.statements = x at hleads hresolve
      obtain ⟨resolved, outcome⟩ := x
      cases outcome with
      | ok r => cases hresolve
      | error f =>
          cases hresolve
          exact h.of_leads hleads

/-- Whether or not the load ends in a fault, the lead of every statement is one word. -/
theorem solidLeads_load (db : Database) (st : Settings) (k : Option Nat) (text : Text) :
    (load db st { caret := k } text).SolidLeads := by
  have reading : (ofReading (readText db st { cursor := { caret := k } } text)).SolidLeads :=
    solidLeads_readText rfl
  have hload : load db st { caret := k } text =
      ofReading (readText db st { cursor := { caret := k } } text >>=
        fun ws => ws.settle db st false) := rfl
  let P : Reading → Prop := fun r => (ofReading r).SolidLeads
  rw [hload]
  refine reading_bind (P := P) reading fun read hread (h : read.SolidLeads) => ?_
  obtain ⟨proved, shaped⟩ := shaped_readText hread
  rw [settle_eq, if_neg Bool.false_ne_true, ok_bind]
  have resolved : (ofReading read.resolveLocalRefs).SolidLeads :=
    solidLeads_resolveLocalRefs h
      (fun kept r passes s hs => (told_of_passes hread passes s hs).laid.solid) shaped.nodup
  refine reading_bind (P := P) resolved fun ws₁ _ (h₁ : ws₁.SolidLeads) => ?_
  have checked : (ofReading ws₁.checkQed).SolidLeads :=
    h₁.of_leads (congrArg _ (statements_checkQed ws₁))
  refine reading_bind (P := P) checked fun ws₂ _ (h₂ : ws₂.SolidLeads) => ?_
  have counted : (ofReading (ws₂.indexDistinctVars.checkHypothesisCount db)).SolidLeads :=
    h₂.of_leads (congrArg _ (statements_checkHypothesisCount db ws₂.indexDistinctVars))
  refine reading_bind (P := P) counted fun ws₃ _ (h₃ : ws₃.SolidLeads) => ?_
  obtain ⟨c, hcursor⟩ := placeCursor_eq st.caretPlacement ws₃.measureLevels
  rw [hcursor]
  refine h₃.of_leads ?_
  show (ws₃.statements.map _).map Statement.lead = _
  rw [List.map_map]
  rfl

end Worksheet

/-! ## The two worksheets -/

/-- The statements say the same in the same line, the second with carriage returns in its text and
in that of a comment. -/
structure Statement.GainsReturns (s s' : Statement) : Prop where
  id : s'.id = s.id
  content : s'.content = s.content.mapComment crlf
  position : s'.position = s.position
  text : s'.text = crlf s.text

theorem Statement.Like.gainsReturns {s s' : Statement} (h : s.Like .carriageReturns s')
    (solid : ∀ c ∈ s.lead, isSeparator c = false) : s.GainsReturns s' := by
  refine ⟨h.id, h.content, h.position, ?_⟩
  show s'.lead ++ s'.tail = Respelling.carriageReturns.text (s.lead ++ s.tail)
  rw [h.lead, h.tail, Respelling.text_append, Respelling.text_solid _ solid]

/-- Carriage returns make no difference: with one before each line feed, a text loads as it does
without them. Both loads are broken or neither is, the same messages come up, and the statements
say the same in the same lines. -/
theorem Worksheet.load_crlf (db : Database) (st : Settings) (text : Text) :
    (load db st {} (crlf text)).broken = (load db st {} text).broken ∧
      (load db st {} (crlf text)).messages.map (fun m => (m.code, m.text)) =
        (load db st {} text).messages.map (fun m => (m.code, m.text)) ∧
      List.Forall₂ Statement.GainsReturns (load db st {} text).statements
        (load db st {} (crlf text)).statements := by
  have like : Worksheet.Like .carriageReturns (load db st {} text) (load db st {} (crlf text)) :=
    load_like .carriageReturns db st st rfl none none text
  refine ⟨like.broken, map_eq_of_forall₂ like.messages fun m m' hm => ?_, ?_⟩
  · rw [hm.code, hm.text]
  · have both := (List.forall₂_and_left _ _).mpr
      ⟨solidLeads_load db st none text, like.statements⟩
    exact both.imp fun s s' ⟨solid, h⟩ => h.gainsReturns solid

end ProofSheet
