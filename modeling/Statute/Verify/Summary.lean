import Statute.Verify.Result

/-!
# Summaries

The outcomes for the principles of a program, in order of declaration. Each principle stands for
itself: one that cannot be lowered does not keep the others from being verified.
-/

namespace Statute

/-- The outcome for a principle. -/
inductive PrincipleOutcome where
  | checked (result : VerificationResult)
  | notLowered (principle : String) (rejection : Rejection)

namespace PrincipleOutcome

/-- The name of the principle. -/
def principle : PrincipleOutcome → String
  | checked r => r.principle
  | notLowered p _ => p

def result? : PrincipleOutcome → Option VerificationResult
  | checked r => some r
  | notLowered _ _ => none

def rejection? : PrincipleOutcome → Option Rejection
  | checked _ => none
  | notLowered _ e => some e

end PrincipleOutcome

/-- The outcomes for a program. -/
structure VerificationSummary where
  program : String
  outcomes : List PrincipleOutcome := []

namespace VerificationSummary

/-- Adds an outcome at the end. -/
def record (s : VerificationSummary) (o : PrincipleOutcome) : VerificationSummary :=
  { s with outcomes := s.outcomes ++ [o] }

/-- The first outcome for a principle of this name. -/
def get? (s : VerificationSummary) (principle : String) : Option PrincipleOutcome :=
  s.outcomes.find? fun o => o.principle == principle

def results (s : VerificationSummary) : List VerificationResult :=
  s.outcomes.filterMap PrincipleOutcome.result?

/-- How many principles came to a verdict. -/
def count (s : VerificationSummary) (v : Verdict) : Nat :=
  (s.results.filter fun r => r.verdict == v).length

/-- How many principles could not be lowered. -/
def failures (s : VerificationSummary) : Nat :=
  (s.outcomes.filterMap PrincipleOutcome.rejection?).length

/-- Time taken in milliseconds. -/
def elapsed (s : VerificationSummary) : Nat := (s.results.map (·.elapsed)).foldr (· + ·) 0

/-- Every principle was lowered and is valid. -/
def allValid (s : VerificationSummary) : Bool :=
  s.outcomes.all fun o => (o.result?.map (·.isValid)).getD false

/-- The summary as it is shown. -/
def text (s : VerificationSummary) : String :=
  let failed := s.failures
  s!"{s.program}: {s.count .valid} valid, {s.count .invalid} invalid, " ++
    s!"{s.count .unknown} unknown, {s.count .timedOut} timed out" ++
    (if failed == 0 then "" else s!", {failed} not translated") ++ s!" ({s.elapsed}ms)"

end VerificationSummary

/-- The outcome for a principle of a checked program. -/
def Solver.outcome (s : Solver) (o : VerifyOptions) (p : CheckedProgram) (d : Principle) :
    PrincipleOutcome :=
  match s.verifyPrinciple o p d with
  | .ok r => .checked r
  | .error e => .notLowered d.name.name e.rejection

/-- Verifies given principles against a checked program. -/
def Solver.verifyAll (s : Solver) (o : VerifyOptions) (p : CheckedProgram) (ds : List Principle) :
    VerificationSummary :=
  ⟨p.program.name, ds.map (s.outcome o p)⟩

/-- Verifies every principle of a checked program. -/
def Solver.verifyProgram (s : Solver) (o : VerifyOptions) (p : CheckedProgram) :
    VerificationSummary :=
  s.verifyAll o p p.program.principles

/-- Verifies every principle of a checked program by bounded search. -/
def verifyProgram (o : VerifyOptions) (p : CheckedProgram) : VerificationSummary :=
  (BoundedSearch.ofBound o.bound).solver.verifyProgram o p

end Statute
