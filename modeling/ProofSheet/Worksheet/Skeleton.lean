import ProofSheet.Keyword
import ProofSheet.Refusal
import ProofSheet.Worksheet.Load

set_option autoImplicit false

/-! # Skeletons

The worksheet with which the proof of a known theorem starts: a header, a step for each
hypothesis, a `qed` step with nothing but the conclusion, and the footer. -/

namespace ProofSheet

/-- The text of a skeleton. -/
def skeletonText (info : TheoremInfo) : Text :=
  let header :=
    joinWith ' ' [Keyword.header, Keyword.metamath, Keyword.proofAssistant,
      Keyword.theoremKey ++ info.label, [], Keyword.locAfterKey ++ ['?']]
  let hypothesis (h : Hypothesis) (number : Nat) : Text :=
    'h' :: decimal number ++ ':' :: ':' :: h.label ++ ' ' :: h.formula ++ ['\n']
  header ++ ['\n', '\n'] ++
    (info.hypotheses.zipIdx 1).flatMap (fun (h, number) => hypothesis h number) ++
    StepId.qedName ++ [':', ':', ' '] ++ info.conclusion ++ ['\n', '\n'] ++
    Keyword.footer ++ ['\n']

/-- The skeleton for a theorem that the database has. -/
def Worksheet.skeleton (db : Database) (st : Settings) (label : Text) :
    Except Refusal Worksheet :=
  match db.find? label with
  | some info => .ok (load db st {} (skeletonText info))
  | none => .error (.unknownTheorem label)

end ProofSheet
