import Statute.Search.Solver
import Statute.Verify.Options
import Statute.Verify.Refutation

/-!
# Verifying principles

A principle is lowered, its refutation is put to a solver once, and the answer becomes a verdict. A
refuted principle comes with a counterexample that gives every constant a value.
-/

namespace Statute

open Logic

/-- What became of a principle. -/
inductive Verdict where
  /-- It cannot be refuted. -/
  | valid
  /-- There is a counterexample. -/
  | invalid
  /-- The solver came to no answer. -/
  | unknown
  | timedOut
  deriving DecidableEq, Repr, Inhabited

def Verdict.text : Verdict → String
  | .valid => "valid"
  | .invalid => "invalid"
  | .unknown => "unknown"
  | .timedOut => "timed out"

/-- The result of verifying a principle. -/
structure VerificationResult where
  principle : String
  verdict : Verdict
  /-- Present for refuted principles. -/
  counterexample : Option Assignment
  /-- The lowered principle as a script. -/
  script : String
  /-- Why there is no answer. -/
  detail : Option String
  /-- Time taken by the solver in milliseconds. -/
  elapsed : Nat := 0

namespace VerificationResult

def isValid (r : VerificationResult) : Bool := r.verdict == .valid

/-- The result as it is shown. -/
def text (r : VerificationResult) : String :=
  "principle " ++ r.principle ++ ": " ++ r.verdict.text ++
    ((r.detail.map fun d => " (" ++ d ++ ")").getD "") ++
    ((r.counterexample.map fun c => "\n" ++ c.text).getD "")

end VerificationResult

/-- Something that answers queries within a time limit in milliseconds. -/
structure Solver where
  name : String
  check : Query → Nat → Response

/-- Bounded search as a solver. -/
def BoundedSearch.solver (s : BoundedSearch) : Solver := ⟨"enumerative", s.check⟩

/-- A value for every constant: the model's, or the default where the model leaves it open. -/
def completeModel (v : Vocabulary) (model : Assignment) : Assignment :=
  NameMap.ofList (v.constants.map fun c =>
    let variants := match c.sort with
      | .enum n => v.variants? n
      | _ => none
    (c.symbol, (model.get? c.symbol).getD (Value.default variants c.sort)))

/-- The verdict, counterexample and detail of an answer. -/
def verdictOf (v : Vocabulary) (timeout : Nat) :
    Response → Verdict × Option Assignment × Option String
  | .unsat => (.valid, none, none)
  | .sat model => (.invalid, some (completeModel v model), none)
  | .unknown why => (.unknown, none, some why.message)
  | .timeout => (.timedOut, none, some s!"no answer within {timeout} ms")

/-- Puts the refutation of a form to a solver, once. -/
def Solver.verify (s : Solver) (f : Form) (timeout : Nat) : VerificationResult :=
  let q := refutation f
  let (verdict, counterexample, detail) := verdictOf q.vocabulary timeout (s.check q timeout)
  { principle := f.principle, verdict, counterexample, script := f.script, detail }

/-- Lowers and verifies a principle of a checked program. Without a form no solver is asked. -/
def Solver.verifyPrinciple (s : Solver) (o : VerifyOptions) (p : CheckedProgram) (d : Principle) :
    Except Obstacle VerificationResult := do
  let f ← (LoweringContext.ofProgram p o.maxDepth).lower d
  return s.verify f o.timeout

end Statute
