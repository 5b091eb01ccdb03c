import Statute.Check.Program
import Statute.Lowering.Expression

/-!
# Lowering principles

A principle of a checked program is lowered to a form of its own: nothing is carried over from one
principle to the next.
-/

namespace Statute

open Logic

/-- How many quantifiers may stand inside one another unless said otherwise. -/
def defaultMaxDepth : Nat := 10

/-- Lowering against the declared types alone. -/
def LoweringContext.ofEnv (env : Env) (maxDepth : Nat := defaultMaxDepth) : LoweringContext :=
  ⟨env, [], maxDepth⟩

/-- Lowering against a checked program, whose named values become constants. -/
def LoweringContext.ofProgram (p : CheckedProgram) (maxDepth : Nat := defaultMaxDepth) :
    LoweringContext :=
  ⟨p.env, p.program.values, maxDepth⟩

/-- Lowers the body of a principle, which has to be a truth value. -/
def lowerStatement (cx : LoweringContext) (p : Principle) : Lowering Term := do
  let (t, s) ← lowerIn cx cx.values.length [] 0 p.body
  if s == .bool then return t
  else Lowering.stop (.notStatement p.name.name s) p.body.span

/-- Lowers a principle. -/
def LoweringContext.lower (cx : LoweringContext) (p : Principle) : Except Obstacle Form :=
  match (lowerStatement cx p).run.run { used := (cx.values.map (·.name.name)).eraseDups } with
  | (.ok formula, d) => .ok ⟨p.name.name, d.vocabulary, d.assumptions, formula, d.warnings⟩
  | (.error o, _) => .error o

end Statute
