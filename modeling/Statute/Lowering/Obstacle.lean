import Statute.Logic.Term
import Statute.Types.Ty

/-!
# What cannot be lowered

A principle may say something that has no counterpart in the logic, or something that does not make
sense. An `Obstacle` is such a cause at a place; it is reported with a kind and a message.
-/

namespace Statute

open Logic

/-- The kinds of obstacle. -/
inductive ObstacleKind where
  | quantifierDepthExceeded (depth limit : Nat)
  | unboundQuantifierType (name : String)
  | unboundVariable (name : String)
  | unknownLegalTest (name : String)
  | sortMismatch (expected got : String)
  | unsupported (what : String)
  deriving DecidableEq, Repr, Inhabited

/-- The public name of a kind. -/
def ObstacleKind.name : ObstacleKind → String
  | .quantifierDepthExceeded _ _ => "QuantifierDepthExceededError"
  | .unboundQuantifierType _ => "UnboundQuantifierType"
  | .unboundVariable _ => "UnboundVariableError"
  | .unknownLegalTest _ => "UnknownLegalTestError"
  | .sortMismatch _ _ => "SortMismatchError"
  | .unsupported _ => "UnsupportedError"

/-- Why something cannot be lowered. -/
inductive LoweringFault where
  | tooDeep (depth limit : Nat)
  | unknownType (name : String)
  | typeArity (name : String) (expected got : Nat)
  | unboundName (name : String)
  | unknownVariant (enum variant : String)
  | noSuchField (struct field : String)
  | unknownFunction (name : String)
  | unknownTest (name : String)
  | sortMismatch (expected : String) (got : SmtSort)
  | notStatement (principle : String) (got : SmtSort)
  | structLiteral (name : String)
  | badDate (text : String)
  | duration (text : String)
  | passLiteral
  | genericFunction (name : String)
  | callArity (name : String) (expected got : Nat)
  | openMatch
  | passType
  | noSort (type : Ty)

namespace LoweringFault

/-- The kind of a cause. -/
def kind : LoweringFault → ObstacleKind
  | .tooDeep d l => .quantifierDepthExceeded d l
  | .unknownType n => .unboundQuantifierType n
  | .typeArity n _ _ => .unboundQuantifierType n
  | .unboundName n => .unboundVariable n
  | .unknownVariant e v => .unboundVariable (e ++ "::" ++ v)
  | .noSuchField s f => .unboundVariable (s ++ "." ++ f)
  | .unknownFunction n => .unboundVariable n
  | .unknownTest n => .unknownLegalTest n
  | .sortMismatch e g => .sortMismatch e g.text
  | .notStatement _ g => .sortMismatch "Bool" g.text
  | .structLiteral _ => .unsupported "struct literal"
  | .badDate t => .unsupported s!"date `{t}`"
  | .duration _ => .unsupported "duration literal"
  | .passLiteral => .unsupported "pass"
  | .genericFunction n => .unsupported s!"generic function `{n}`"
  | .callArity n _ _ => .unsupported s!"call to `{n}`"
  | .openMatch => .unsupported "non-exhaustive match"
  | .passType => .unsupported "pass"
  | .noSort t => .unsupported t.text

/-- The wording of a cause. -/
def message : LoweringFault → String
  | .tooDeep d l => s!"quantifier nesting depth {d} exceeds the limit of {l}"
  | .unknownType n => s!"quantified type `{n}` is not declared"
  | .typeArity n e g => s!"type `{n}` expects {e} type argument(s), found {g}"
  | .unboundName n => s!"`{n}` is not bound by a quantifier or declaration"
  | .unknownVariant e v => s!"unknown enum variant `{e}::{v}`"
  | .noSuchField s f => s!"struct `{s}` has no field `{f}`"
  | .unknownFunction n => s!"unknown function `{n}`"
  | .unknownTest n => s!"`satisfies` names unknown legal test `{n}`"
  | .sortMismatch e g => s!"expected {e}, found {g.text}"
  | .notStatement p _ => s!"principle `{p}` is not a boolean statement"
  | .structLiteral n => s!"struct literal `{n}` cannot appear in a principle"
  | .badDate t => s!"date literal `{t}` cannot be parsed"
  | .duration t => s!"duration literal `{t}` has no logical encoding"
  | .passLiteral => "`pass` has no logical encoding"
  | .genericFunction n => s!"generic function `{n}` cannot be used in a principle"
  | .callArity n e g => s!"function `{n}` takes {e} argument(s), found {g}"
  | .openMatch => "a match in a principle needs an arm that always matches"
  | .passType => "type `pass` has no logical sort"
  | .noSort t => s!"type `{t.text}` has no logical sort"

end LoweringFault

/-- A cause at a place. -/
structure Obstacle where
  fault : LoweringFault
  span : Span

/-- What is reported of an obstacle. -/
structure Rejection where
  kind : ObstacleKind
  message : String
  span : Span
  deriving DecidableEq, Repr

/-- The obstacle as it is reported. -/
def Obstacle.rejection (o : Obstacle) : Rejection := ⟨o.fault.kind, o.fault.message, o.span⟩

end Statute
