import Statute.Fault

/-!
# Reports

Checking collects what it finds in a report, which only ever grows: findings are put at the end, and
the aliases known to lie on a cycle are remembered so that each cycle is reported once.
-/

namespace Statute

/-- What checking has found so far. -/
structure Report where
  errors : List Finding := []
  warnings : List Finding := []
  /-- Aliases that lie on a cycle that has been reported. -/
  cyclic : List String := []

/-- A computation that may add to the report. -/
abbrev Checking := StateM Report

namespace Checking

/-- Reports an error. -/
def fault (f : Fault) (span : Span) : Checking Unit :=
  modify fun r => { r with errors := r.errors ++ [⟨f, span⟩] }

/-- Reports errors found elsewhere. -/
def faults (fs : List Finding) : Checking Unit :=
  modify fun r => { r with errors := r.errors ++ fs }

/-- Reports a warning. -/
def warn (f : Fault) (span : Span) : Checking Unit :=
  modify fun r => { r with warnings := r.warnings ++ [⟨f, span⟩] }

/-- Reports an error if the condition holds. -/
def faultIf (c : Bool) (f : Fault) (span : Span) : Checking Unit :=
  if c then fault f span else pure ()

end Checking

end Statute
