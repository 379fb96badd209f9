import ProofSheet.Database
import ProofSheet.Keyword
import ProofSheet.Note
import ProofSheet.Settings
import ProofSheet.Statement.Block
import ProofSheet.Worksheet.Basic

set_option autoImplicit false

/-! # Reading a worksheet

A worksheet is read statement by statement. What has been read so far is itself a worksheet,
and it decides what may come next: whether a step is known, whether `qed` or the generated
proof is already there. Reading stops at the first structural fault, and then still gives the
worksheet as far as it was read. Reading ends with the footer, which only `qed` allows.

The outline is a header `$(`, then statements in any order, then a footer `$)`. A comment
begins with `*`, a hypothesis step with the letter `h`; a derivation step is anything else
that has a colon, begins with a digit, or is the word `qed`.
-/

namespace ProofSheet

/-- A reading that stopped: the worksheet so far, and why it stopped. -/
structure Stop where
  sheet : Worksheet
  fault : Fault
deriving DecidableEq, Repr, Inhabited

/-- The outcome of reading. -/
abbrev Reading := Except Stop Worksheet

/-! ## The header -/

/-- The label in a header field, where `?` and nothing at all mean that there is none. -/
def givenLabel (label : Text) : Option Text :=
  if label = [] ∨ label = ['?'] then none else some label

/-- The label in a header field that begins with a key. -/
def labelAfter? (key field : Text) : Option Text := key.isPrefixOf? field

/-- A header field that consists of a fixed word. -/
def fixedField? (word field : Text) : Option Unit := if field = word then some () else none

/-- What a header field with a key looks like. -/
def labelField (key : Text) : Text := key ++ "<label>".toList

/-- Takes the next field of a header, if it is accepted. A field that is missing is reported at
the opening token. -/
def takeField {α : Type} (opening : Token) (expected : Text) (accept : Text → Option α) :
    List Token → Except (Token × Cause) (α × List Token)
  | [] => .error (opening, .malformedHeader expected [])
  | t :: rest =>
    match accept t.text with
    | some a => .ok (a, rest)
    | none => .error (t, .malformedHeader expected t.text)

/-- Takes the fields of a header that name the theorem, and gives its label and the fields that
follow. -/
def readTheoremFields (opening : Token) (fields : List Token) :
    Except (Token × Cause) (Text × List Token) := do
  let (_, fields) ← takeField opening Keyword.metamath (fixedField? Keyword.metamath) fields
  let (_, fields) ←
    takeField opening Keyword.proofAssistant (fixedField? Keyword.proofAssistant) fields
  let (label, fields) ←
    takeField opening (labelField Keyword.theoremKey) (labelAfter? Keyword.theoremKey) fields
  match givenLabel label with
  | some label => .ok (label, fields)
  | none => .error (opening, .missingTheoremLabel)

/-- Takes the last field of a header, and gives its token and the label, if it gives one. -/
def readLocAfterField (opening : Token) (fields : List Token) :
    Except (Token × Cause) (Token × Option Text) := do
  let (label, extra) ←
    takeField opening (labelField Keyword.locAfterKey) (labelAfter? Keyword.locAfterKey) fields
  match extra with
  | [] => .ok (fields.headD opening, givenLabel label)
  | t :: _ => .error (t, .malformedHeader "end of header".toList t.text)

/-! ## The generated proof -/

/-- Reads the tokens between `$=` and `$.`: a list of labels in parentheses with codes after it,
or plain labels. -/
def readProofBody (opening : Token) (tokens : List Token) : Except (Token × Cause) ProofBody :=
  match tokens with
  | [] => .ok (.normal [])
  | first :: rest =>
    if first.text ≠ Keyword.openLabels then .ok (.normal (tokens.map Token.text))
    else
      match rest.dropWhile (·.text ≠ Keyword.closeLabels) with
      | [] => .error (first, .malformedProof "label list is not closed by ')'")
      | _ :: codes =>
        match Code.decode (codes.flatMap Token.text) with
        | .ok codes =>
          let labels := (rest.takeWhile (·.text ≠ Keyword.closeLabels)).map Token.text
          .ok (.compressed { labels := labels, codes := codes })
        | .error e => .error (opening, .malformedProof e.message)

/-- Reads the body of a generated proof, which has to end with its only `$.`. -/
def readProof (opening : Token) (body : List Token) : Except (Token × Cause) ProofBody :=
  match body.dropWhile (·.text ≠ Keyword.proofEnd) with
  | [] => .error (opening, .unterminatedProof)
  | _ :: extra :: _ =>
    .error (extra, .malformedProof ("unexpected " ++ quoted extra.text ++ " after '$.'"))
  | [_] => readProofBody opening (body.takeWhile (·.text ≠ Keyword.proofEnd))

/-- The first token whose text is among the texts seen or repeats an earlier one. -/
def firstRepeat? (seen : List Text) : List Token → Option Token
  | [] => none
  | t :: rest => if seen.contains t.text then some t else firstRepeat? (t.text :: seen) rest

/-- The formula that the body of a step is: nothing, if there are no tokens. -/
def formulaOf (body : List Token) : Option Formula :=
  if body.isEmpty then none else some ⟨body.map Token.text⟩

namespace Worksheet

/-! ## Stopping and noting -/

/-- Reading stops at a token. -/
def stopAt (ws : Worksheet) (t : Token) (cause : Cause) : Stop :=
  { sheet := ws
    fault := { cause := cause, position := some t.place.position, span := some ⟨t.start, t.stop⟩ } }

/-- Reading stops at the head of a step. -/
def stopAtStep (ws : Worksheet) (t : Token) (step : Text) (cause : Cause) : Stop :=
  { sheet := ws
    fault :=
      { cause := cause
        step := some step
        position := some t.place.position
        span := some ⟨t.start, t.stop⟩ } }

/-- Adds a note about a token. -/
def note (ws : Worksheet) (t : Token) (n : Note) : Worksheet :=
  let message := n.toMessage ws.theoremLabel t.place.position ⟨t.start, t.stop⟩
  { ws with messages := ws.messages ++ [message] }

/-- The caret is in a statement: within its text, or at the end of the worksheet if the statement
is the last one. -/
def caretIn (s : Statement) (last : Bool) (offset : Nat) : Bool :=
  s.start ≤ offset && (offset < s.stop || (last && offset == s.stop))

/-- Binds the cursor to a statement that is about to be added, if the caret is in it. -/
def meetCaret (ws : Worksheet) (s : Statement) (last : Bool) : Cursor :=
  match ws.cursor.caret with
  | none => ws.cursor
  | some offset =>
    if caretIn s last offset then
      ws.cursor.offer
        (.statement s.id (s.fieldAt (offset - s.start)) ws.statements.length ws.generation)
    else ws.cursor

/-- Adds the statement of a block. -/
def append (ws : Worksheet) (b : Block) (last : Bool) (content : Content) : Worksheet :=
  let s := b.toStatement ws.nextId content
  { ws with
    statements := ws.statements ++ [s]
    cursor := ws.meetCaret s last
    nextId := ws.nextId + 1 }

/-! ## Statements -/

/-- Reads a header. The theorem is known from its field on, also if a later field is at fault. -/
def readHeader (db : Database) (ws : Worksheet) (b : Block) (last : Bool) : Reading :=
  if ws.statements.any Statement.isHeader then .error (ws.stopAt b.head .duplicateHeader)
  else
    match readTheoremFields b.head b.body with
    | .error (t, cause) => .error (ws.stopAt t cause)
    | .ok (label, rest) =>
      let ws := { ws with theoremLabel := some label }
      match readLocAfterField b.head rest with
      | .error (t, cause) => .error (ws.stopAt t cause)
      | .ok (field, locAfter) =>
        let ws := { ws with isNew := (db.find? label).isNone }
        let content := Content.header { label := label, locAfter := locAfter }
        match locAfter with
        | none => .ok (ws.append b last content)
        | some after =>
          let placed := { ws with locAfter := some after }
          if !ws.isNew then .ok ((placed.note field (.locAfterIgnored after)).append b last content)
          else if db.knows after then .ok (placed.append b last content)
          else .error (ws.stopAt field (.unknownLocAfter after))

/-- Reads the footer, which stands alone and after `qed`. -/
def readFooter (ws : Worksheet) (b : Block) (last : Bool) : Reading :=
  if ws.qed.isNone then .error (ws.stopAt b.head .footerBeforeQed)
  else
    match b.body with
    | extra :: _ => .error (ws.stopAt extra .textAfterFooter)
    | [] => .ok (ws.append b last .footer)

/-- Reads a comment, which may hold anything. -/
def readComment (ws : Worksheet) (b : Block) (last : Bool) : Reading :=
  .ok (ws.append b last (.comment (trimEnd ((b.head.text ++ b.tail).drop 1))))

/-- Reads a `$d` statement: at least two variables, all different. -/
def readDistinctVars (ws : Worksheet) (b : Block) (last : Bool) : Reading :=
  if b.body.length < 2 then .error (ws.stopAt b.head .distinctVarsTooFew)
  else
    match firstRepeat? [] b.body with
    | some t => .error (ws.stopAt t (.distinctVarsRepeated t.text))
    | none => .ok (ws.append b last (.distinctVars b.words))

/-- Reads the generated proof, of which there is one at most, after `qed`. -/
def readGeneratedProof (ws : Worksheet) (b : Block) (last : Bool) : Reading :=
  if ws.qed.isNone then .error (ws.stopAt b.head .proofBeforeQed)
  else if ws.statements.any Statement.isProof then .error (ws.stopAt b.head .duplicateProof)
  else
    match readProof b.head b.body with
    | .error (t, cause) => .error (ws.stopAt t cause)
    | .ok body => .ok (ws.append b last (.proof body))

/-- Reads the step field of a statement. The id has to be new, and nothing may follow `qed`; the
worksheet then counts the step's number. -/
def admitStep (ws : Worksheet) (t : Token) (field : Text) : Except Stop (StepId × Worksheet) :=
  match StepId.read field with
  | .error cause => .error (ws.stopAtStep t field cause)
  | .ok id =>
    if ws.qed.isSome then .error (ws.stopAtStep t field (.stepAfterQed field))
    else if id ∈ ws.stepIds then .error (ws.stopAtStep t field (.duplicateStepId field))
    else
      match id with
      | .number n => .ok (id, { ws with greatestStep := max ws.greatestStep n })
      | .qed => .ok (id, ws)

/-- Notes a formula that does not begin with the provable type code. -/
def noteFormulaType (st : Settings) (ws : Worksheet) (step : Text) (body : List Token) :
    Worksheet :=
  match body with
  | [] => ws
  | t :: _ =>
    if t.text = st.provableType then ws
    else ws.note t (.formulaType step st.provableType t.text)

/-- Reads a hypothesis step. Hypotheses cite nothing and come before all derivation steps; one
without a formula is noted. -/
def readHypothesis (st : Settings) (ws : Worksheet) (b : Block) (last : Bool) : Reading :=
  match StepFields.ofHypothesis? (b.head.text.drop 1) with
  | none => .error (ws.stopAt b.head (.tooManyFields b.head.text))
  | some f =>
    if sameLetters (trim f.step) StepId.qedName then
      .error (ws.stopAtStep b.head f.step .hypothesisQed)
    else
      match ws.admitStep b.head f.step with
      | .error stop => .error stop
      | .ok (id, ws) =>
        if ws.statements.any (·.derivation?.isSome) then
          .error (ws.stopAtStep b.head f.step (.hypothesisAfterDerivation f.step))
        else if trim f.hyps ≠ [] then .error (ws.stopAtStep b.head f.step .hypothesisHasHyps)
        else if f.ref.head? = some '#' then
          .error (ws.stopAtStep b.head f.step .hypothesisLocalRef)
        else
          let ws := ws.noteFormulaType st f.step b.body
          let ws :=
            if b.body.isEmpty then ws.note b.head (.hypothesisWithoutFormula f.step) else ws
          let step : Step := { id := id, ref := readLabel f.ref, formula := formulaOf b.body }
          .ok ({ ws with hypothesisCount := ws.hypothesisCount + 1 }.append b last
            (.hypothesis step))

/-- Reads a derivation step. It may cite the steps before it. -/
def readDerivation (st : Settings) (ws : Worksheet) (b : Block) (last : Bool) : Reading :=
  match StepFields.ofDerivation? b.head.text with
  | none => .error (ws.stopAt b.head (.tooManyFields b.head.text))
  | some f =>
    match ws.admitStep b.head f.step with
    | .error stop => .error stop
    | .ok (id, ws) =>
      match readCitations ws.stepIds f.hyps with
      | .error cause => .error (ws.stopAtStep b.head f.step cause)
      | .ok hyps =>
        match readReference id f.ref with
        | .error cause => .error (ws.stopAtStep b.head f.step cause)
        | .ok (ref, localRef) =>
          let formula := formulaOf b.body
          let d : Derivation :=
            { id := id
              ref := ref
              formula := formula
              hyps := hyps
              localRef := localRef
              hasWorkVars := formula.any Formula.hasWorkVars }
          let qed := if id.isQed then some ws.nextId else ws.qed
          let noted := ws.noteFormulaType st f.step b.body
          .ok { noted.append b last (.derivation d) with qed := qed }

/-- A token begins a derivation step. -/
def beginsDerivation (t : Text) : Bool :=
  t.contains ':' || t.head?.any Char.isDigit || sameLetters t StepId.qedName

/-- Reads one statement, of the kind that its head tells. -/
def readBlock (db : Database) (st : Settings) (ws : Worksheet) (b : Block) (last : Bool) :
    Reading :=
  let head := b.head.text
  if head = Keyword.header then ws.readHeader db b last
  else if head = Keyword.footer then ws.readFooter b last
  else if head = Keyword.proof then ws.readGeneratedProof b last
  else if head = Keyword.distinctVars then ws.readDistinctVars b last
  else if head.head? = some '*' then ws.readComment b last
  else if head.head? = some 'h' ∨ head.head? = some 'H' then ws.readHypothesis st b last
  else if beginsDerivation head then ws.readDerivation st b last
  else .error (ws.stopAt b.head (.unrecognizedStatement head))

/-- Reads statements up to the footer, which has to be the last one. -/
def readBlocks (db : Database) (st : Settings) (ws : Worksheet) : List Block → Reading
  | [] =>
    let cause := if ws.qed.isSome then Cause.missingFooter else Cause.missingQed
    .error { sheet := ws, fault := { cause := cause } }
  | b :: rest =>
    match ws.readBlock db st b rest.isEmpty with
    | .error stop => .error stop
    | .ok ws =>
      if b.head.text = Keyword.footer then
        match rest with
        | [] => .ok ws
        | extra :: _ => .error (ws.stopAt extra.head .textAfterFooter)
      else ws.readBlocks db st rest

/-- Reads a text into a worksheet without statements. -/
def readText (db : Database) (st : Settings) (ws : Worksheet) (text : Text) : Reading :=
  match tokens text with
  | [] => .error { sheet := ws, fault := { cause := .emptyWorksheet } }
  | first :: rest =>
    if !first.startsStatement then .error (ws.stopAt first .notFirstColumn)
    else if first.text ≠ Keyword.header then .error (ws.stopAt first .missingHeader)
    else ws.readBlocks db st (Block.group (first :: rest)).2

end Worksheet

end ProofSheet
