import Statute.Check.Body
import Statute.Check.Inherit

/-!
# Checking programs

`Program.check` runs all checks on a program. It is accepted when no error is found; what is then
known about it is a `CheckedProgram`. Otherwise all errors are returned, each once, in order of
place.
-/

namespace Statute

open Checking

/-- A program that passed all checks, with its declarations. -/
structure CheckedProgram where
  program : Program
  env : Env
  warnings : List Finding

/-- Runs all checks and gives the declarations of the program. -/
def checkAll (options : CheckOptions) (p : Program) : Checking Env := do
  let (named, structs) ← collectTypes {} p.leaves
  let typed ← resolveStructs named structs
  checkInheritance { env := typed, options } structs
  let env ← collectSignatures typed p.leaves
  checkItems { env, options } {} p.items
  return env

/-- Checks a program. -/
def Program.check (p : Program) (options : CheckOptions := {}) :
    Except (List Finding) CheckedProgram :=
  let (env, report) := (checkAll options p).run {}
  match Finding.inOrder (Finding.distinct report.errors) with
  | [] => .ok ⟨p, env, report.warnings⟩
  | errors => .error errors

/-- Checks several programs, each on its own. -/
def checkPrograms (options : CheckOptions) (ps : List Program) :
    List (Except (List Finding) CheckedProgram) :=
  ps.map fun p => p.check options

end Statute
