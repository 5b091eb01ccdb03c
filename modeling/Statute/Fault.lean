import Statute.Constant
import Statute.Program.Expr
import Statute.Types.Ty

/-!
# Faults

What can be wrong with a program. A `Fault` is a cause with the data that belongs to it; its kind is
what other programs match on and its message is what people read. A `Finding` is a fault at a place.
-/

namespace Statute

/-- The kinds of fault. -/
inductive FaultKind where
  | unboundTypeVariable (name : String)
  | arityMismatch (expected got : Nat)
  | duplicateField (name : String)
  | circularInheritance (name : String)
  | outOfBounds
  | invalidCitation
  | invalidTemporalWindow
  | nonBooleanRequirement (name : String)
  | nonExhaustiveMatch
  | ambiguousVariantPath (variants : List String)
  | conflictDetected (name : String)
  | undefinedSymbol (name : String)
  | duplicateDefinition (name : String)
  | typeMismatch (expected got : String)
  | unreachableMatchArm
  | constraintViolation (what : String)
  | invalidDate (text : String)
  | invalidConstraint (what : String)
  | unknownField (type field : String)
  | missingField (type field : String)
  /-- Only a warning. -/
  | shadowedBinding (name : String)
  deriving DecidableEq, Repr, Inhabited

namespace FaultKind

/-- The public name of a kind. -/
def name : FaultKind → String
  | .unboundTypeVariable _ => "UnboundTypeVariableError"
  | .arityMismatch _ _ => "ArityMismatchError"
  | .duplicateField _ => "DuplicateFieldError"
  | .circularInheritance _ => "CircularInheritanceError"
  | .outOfBounds => "OutOfBoundsError"
  | .invalidCitation => "InvalidCitationError"
  | .invalidTemporalWindow => "InvalidTemporalWindowError"
  | .nonBooleanRequirement _ => "NonBooleanRequirementError"
  | .nonExhaustiveMatch => "NonExhaustiveMatchError"
  | .ambiguousVariantPath _ => "AmbiguousVariantPathError"
  | .conflictDetected _ => "ConflictDetected"
  | .undefinedSymbol _ => "UndefinedSymbolError"
  | .duplicateDefinition _ => "DuplicateDefinitionError"
  | .typeMismatch _ _ => "TypeMismatchError"
  | .unreachableMatchArm => "UnreachableMatchArmError"
  | .constraintViolation _ => "ConstraintViolationError"
  | .invalidDate _ => "InvalidDateError"
  | .invalidConstraint _ => "InvalidConstraintError"
  | .unknownField _ _ => "UnknownFieldError"
  | .missingField _ _ => "MissingFieldError"
  | .shadowedBinding _ => "ShadowedBindingWarning"

/-- A warning does not make a program fail. -/
def isWarning : FaultKind → Bool
  | .shadowedBinding _ => true
  | _ => false

end FaultKind

/-- A condition that has to be a truth value. -/
inductive ConditionSite where
  | ifCondition
  | matchGuard
  deriving DecidableEq, Repr, Inhabited

def ConditionSite.text : ConditionSite → String
  | .ifCondition => "if condition"
  | .matchGuard => "match guard"

/-- What is wrong. -/
inductive Fault where
  | builtinRedefined (name : String)
  | typeRedefined (name : String)
  | variantRepeated (enum variant : String)
  | unknownParent (struct parent : String)
  | genericParent (parent : String) (params : Nat)
  | inheritanceCycle (name : String) (path : List String)
  | parentDeclaredLater (struct parent : String)
  | fieldRepeated (struct field : String)
  | fieldInherited (struct field owner : String)
  | conditionReads (field other : String)
  | conditionNotBool (field : String) (got : Ty)
  | testRedefined (name : String)
  | functionRedefined (name : String)
  | unboundTypeVariable (name : String)
  | rangeNotNumeric (base : Ty)
  | emptyRange (lower upper : Int)
  | badCitation (problem : Citation.Problem)
  | emptyPeriod (opens closes : Date)
  | positiveNotNumeric (inner : Ty)
  | nonEmptyNotSized (inner : Ty)
  | emptyDateWindow (after before : Date)
  | badCurrency (code : String)
  | badDate (text : String)
  | unknownType (name : String)
  | typeArity (name : String) (expected got : Nat)
  | aliasCycle (name : String) (path : List String)
  | principleNotBool (name : String) (got : Ty)
  | assignUndeclared (name : String)
  | unknownTest (name : String)
  | unknownName (name : String)
  | mismatch (expected got : Ty)
  | notNumeric (got : Ty)
  | notStruct (got : Ty)
  | noSuchField (struct field : String)
  | quantifiedNotBool (quantifier : Quantifier) (got : Ty)
  | siteNotBool (site : ConditionSite) (got : Ty)
  | unknownEnum (name : String)
  | unknownVariant (enum variant : String)
  | unknownFunction (name : String)
  | callArity (name : String) (expected got : Nat)
  | unknownStruct (name : String)
  | fieldGivenTwice (struct field : String)
  | fieldMissing (struct field : String)
  | outOfBounds (value : Constant) (type : Ty)
  | constraintViolated (type : Ty)
  | fieldConditionViolated (field owner : String)
  | shadows (name : String)
  | alreadyDefined (name : String)
  | requirementRepeated (test requirement : String)
  | requirementNotBool (test requirement : String) (got : Ty)
  | noWildcard
  | secondWildcard
  | afterWildcard
  | patternRepeated (pattern : String)
  | ambiguousVariants (enum : String) (variants : List String) (site : String)
  | conflict (name description : String)

namespace Fault

/-- The kind of a fault. -/
def kind : Fault → FaultKind
  | .builtinRedefined n => .duplicateDefinition n
  | .typeRedefined n => .duplicateDefinition n
  | .variantRepeated _ v => .duplicateDefinition v
  | .unknownParent _ p => .undefinedSymbol p
  | .genericParent _ n => .arityMismatch n 0
  | .inheritanceCycle n _ => .circularInheritance n
  | .parentDeclaredLater _ p => .circularInheritance p
  | .fieldRepeated _ f => .duplicateField f
  | .fieldInherited _ f _ => .duplicateField f
  | .conditionReads f _ => .invalidConstraint f
  | .conditionNotBool f _ => .invalidConstraint f
  | .testRedefined n => .duplicateDefinition n
  | .functionRedefined n => .duplicateDefinition n
  | .unboundTypeVariable n => .unboundTypeVariable n
  | .rangeNotNumeric t => .typeMismatch "numeric type" t.text
  | .emptyRange _ _ => .outOfBounds
  | .badCitation _ => .invalidCitation
  | .emptyPeriod _ _ => .invalidTemporalWindow
  | .positiveNotNumeric _ => .invalidConstraint "Positive"
  | .nonEmptyNotSized _ => .invalidConstraint "NonEmpty"
  | .emptyDateWindow _ _ => .invalidTemporalWindow
  | .badCurrency _ => .invalidConstraint "currency"
  | .badDate t => .invalidDate t
  | .unknownType n => .undefinedSymbol n
  | .typeArity _ e g => .arityMismatch e g
  | .aliasCycle n _ => .circularInheritance n
  | .principleNotBool _ t => .typeMismatch "bool" t.text
  | .assignUndeclared n => .undefinedSymbol n
  | .unknownTest n => .undefinedSymbol n
  | .unknownName n => .undefinedSymbol n
  | .mismatch e g => .typeMismatch e.text g.text
  | .notNumeric g => .typeMismatch "numeric type" g.text
  | .notStruct g => .typeMismatch "struct" g.text
  | .noSuchField s f => .unknownField s f
  | .quantifiedNotBool _ t => .typeMismatch "bool" t.text
  | .siteNotBool _ t => .typeMismatch "bool" t.text
  | .unknownEnum n => .undefinedSymbol n
  | .unknownVariant e v => .undefinedSymbol (e ++ "::" ++ v)
  | .unknownFunction n => .undefinedSymbol n
  | .callArity _ e g => .arityMismatch e g
  | .unknownStruct n => .undefinedSymbol n
  | .fieldGivenTwice _ f => .duplicateField f
  | .fieldMissing s f => .missingField s f
  | .outOfBounds _ _ => .outOfBounds
  | .constraintViolated t => .constraintViolation t.text
  | .fieldConditionViolated f _ => .constraintViolation f
  | .shadows n => .shadowedBinding n
  | .alreadyDefined n => .duplicateDefinition n
  | .requirementRepeated _ r => .duplicateDefinition r
  | .requirementNotBool _ r _ => .nonBooleanRequirement r
  | .noWildcard => .nonExhaustiveMatch
  | .secondWildcard => .unreachableMatchArm
  | .afterWildcard => .unreachableMatchArm
  | .patternRepeated _ => .unreachableMatchArm
  | .ambiguousVariants _ vs _ => .ambiguousVariantPath vs
  | .conflict n _ => .conflictDetected n

/-- The names of a path, one leading to the next. -/
def pathText (path : List String) : String := " -> ".intercalate path

/-- The wording of a fault. -/
def message : Fault → String
  | .builtinRedefined n => s!"`{n}` is a built-in type and cannot be redefined"
  | .typeRedefined n => s!"type `{n}` is defined more than once"
  | .variantRepeated e v => s!"variant `{v}` appears twice in enum `{e}`"
  | .unknownParent s p => s!"struct `{s}` extends unknown struct `{p}`"
  | .genericParent p n =>
    s!"generic struct `{p}` expects {n} type argument(s) when extended, found 0"
  | .inheritanceCycle _ path => "circular inheritance: " ++ pathText path
  | .parentDeclaredLater s p => s!"struct `{s}` extends `{p}`, which must be declared before it"
  | .fieldRepeated s f => s!"field `{f}` is declared twice in `{s}`"
  | .fieldInherited s f o => s!"field `{f}` of `{s}` is already declared in parent `{o}`"
  | .conditionReads f o => s!"constraint on field `{f}` may only reference `{f}`, found `{o}`"
  | .conditionNotBool f t => s!"constraint on field `{f}` must be bool, found {t.text}"
  | .testRedefined n => s!"legal test `{n}` is defined more than once"
  | .functionRedefined n => s!"function `{n}` is defined more than once"
  | .unboundTypeVariable n => s!"unbound type variable `{n}`"
  | .rangeNotNumeric t => s!"bounded type needs a numeric base, found {t.text}"
  | .emptyRange lo hi => s!"bounded type has lower bound {lo} above upper bound {hi}"
  | .badCitation p => "invalid citation: " ++ p.message
  | .emptyPeriod f u =>
    s!"temporal window starts on {f.text} but ends on {u.text}; valid_from must precede valid_until"
  | .positiveNotNumeric t => s!"Positive<T> needs a numeric type, found {t.text}"
  | .nonEmptyNotSized t => s!"NonEmpty<T> needs a string or array type, found {t.text}"
  | .emptyDateWindow a b =>
    s!"ValidDate window starts on {a.text} but ends on {b.text}; after must precede before"
  | .badCurrency c =>
    s!"`{c}` is not a currency code; expected three capital letters such as USD"
  | .badDate t => s!"invalid date `{t}`: expected DD-MM-YYYY, YYYY-MM-DD or MM/DD/YYYY"
  | .unknownType n => s!"unknown type `{n}`"
  | .typeArity n e g => s!"type `{n}` expects {e} type argument(s), found {g}"
  | .aliasCycle _ path => "type alias cycle: " ++ pathText path
  | .principleNotBool n t => s!"principle `{n}` must be a bool statement, found {t.text}"
  | .assignUndeclared n => s!"assignment to undeclared variable `{n}`"
  | .unknownTest n => s!"`satisfies` names unknown legal test `{n}`"
  | .unknownName n => s!"unknown name `{n}`"
  | .mismatch e g => s!"type mismatch: expected {e.text}, found {g.text}"
  | .notNumeric g => s!"type mismatch: expected numeric type, found {g.text}"
  | .notStruct g => s!"type mismatch: expected struct, found {g.text}"
  | .noSuchField s f => s!"struct `{s}` has no field `{f}`"
  | .quantifiedNotBool q t => s!"body of `{q.keyword}` must be bool, found {t.text}"
  | .siteNotBool w t => s!"{w.text} must be bool, found {t.text}"
  | .unknownEnum n => s!"unknown enum `{n}`"
  | .unknownVariant e v => s!"enum `{e}` has no variant `{v}`"
  | .unknownFunction n => s!"unknown function `{n}`"
  | .callArity n e g => s!"function `{n}` takes {e} argument(s), found {g}"
  | .unknownStruct n => s!"unknown struct `{n}`"
  | .fieldGivenTwice s f => s!"field `{f}` is given twice in `{s}` literal"
  | .fieldMissing s f => s!"`{s}` literal is missing field `{f}`"
  | .outOfBounds v t => s!"value {v.text} is out of bounds for {t.text}"
  | .constraintViolated t => s!"value does not satisfy {t.text}"
  | .fieldConditionViolated f o =>
    s!"value violates the constraint on field `{f}` declared in `{o}`"
  | .shadows n => s!"`{n}` shadows an outer binding"
  | .alreadyDefined n => s!"`{n}` is already defined in this scope"
  | .requirementRepeated t r => s!"requirement `{r}` is listed twice in legal test `{t}`"
  | .requirementNotBool t r g =>
    s!"requirement `{r}` of legal test `{t}` must be bool, found {g.text}"
  | .noWildcard => "non-exhaustive match: add a wildcard `_` arm"
  | .secondWildcard => "unreachable match arm: a match may have only one wildcard `_` arm"
  | .afterWildcard => "unreachable match arm: the wildcard `_` arm must be last"
  | .patternRepeated p => s!"unreachable match arm: duplicate pattern `{p}`"
  | .ambiguousVariants e vs w =>
    let listed := ", ".intercalate (vs.map fun v => s!"`{e}::{v}`")
    s!"ambiguous variant path: {listed} of mutually exclusive enum `{e}` are returned " ++
      s!"from sibling branches with no exclusive discriminator (at `{w}`)"
  | .conflict _ d => d

end Fault

/-- What is reported: a kind, a message and a place. -/
structure Diagnostic where
  kind : FaultKind
  message : String
  span : Span
  deriving DecidableEq, Repr

/-- A fault at a place. -/
structure Finding where
  fault : Fault
  span : Span

namespace Finding

/-- The finding as it is reported. -/
def diagnostic (f : Finding) : Diagnostic := ⟨f.fault.kind, f.fault.message, f.span⟩

/-- The findings without those reported the same way before. -/
def distinct (fs : List Finding) : List Finding :=
  (fs.foldl (fun kept f =>
    if kept.any fun g => g.diagnostic == f.diagnostic then kept else kept ++ [f]) [])

/-- The findings in order of place; at one place they stay in the order in which they were made. -/
def inOrder (fs : List Finding) : List Finding :=
  fs.mergeSort fun a b => a.span.offset ≤ b.span.offset

end Finding

end Statute
