import Statute.Decimal.Nearest
import Statute.Lowering.Principle
import Statute.Text.Blank

/-!
# Settings of verification

A profile sets the time limit unless one is given. Settings read from outside that make no sense are
ignored.
-/

namespace Statute

/-- How thorough verification is. -/
inductive Profile where
  | fast
  | ci
  | thorough
  deriving DecidableEq, Repr, Inhabited

namespace Profile

/-- The time limit of a profile in milliseconds. -/
def timeout : Profile → Nat
  | .fast => 250
  | .ci => 2000
  | .thorough => 5000

/-- Reads the name of a profile, in any case and with blanks around it. -/
def parse? (s : String) : Option Profile :=
  let name := String.ofList ((Text.trimmed s.toList).map Decimal.lower)
  if name == "fast" then some .fast
  else if name == "ci" then some .ci
  else if name == "thorough" then some .thorough
  else none

end Profile

/-- Settings of verification. -/
structure VerifyOptions where
  profile : Profile := .ci
  /-- A time limit in milliseconds instead of the profile's. -/
  timeout? : Option Nat := none
  maxDepth : Nat := defaultMaxDepth
  /-- Whole numbers are searched from minus this to this. -/
  bound : Int := 32
  deriving DecidableEq, Repr, Inhabited

namespace VerifyOptions

/-- The time limit in milliseconds. -/
def timeout (o : VerifyOptions) : Nat := o.timeout?.getD o.profile.timeout

/-- Settings from the texts for the profile and the time limit, as far as they make sense. -/
def ofTexts (profile timeout : Option String) : VerifyOptions :=
  { profile := (profile.bind Profile.parse?).getD .ci
    timeout? := (timeout.bind fun s =>
      Decimal.natUpTo? Decimal.maxWord (Text.trimmed s.toList)).filter (0 < ·) }

end VerifyOptions

end Statute
