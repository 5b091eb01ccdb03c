import Statute.Check.Report
import Statute.Currency
import Statute.Env

/-!
# Resolving type expressions

Resolution turns a type expression into a type and reports what is wrong with it. Aliases are
expanded where they are used, with their parameters bound to the arguments. An alias that leads back
to itself is reported once per cycle and resolves to the unknown type.
-/

namespace Statute

open Checking

/-- A capital letter with nothing but digits after it: taken for a forgotten type parameter. -/
def looksLikeTypeParam (name : String) : Bool :=
  match name.toList with
  | c :: rest => isCapital c && rest.all Decimal.isDigit
  | [] => false

/-- Reads a date and reports it if it is none. -/
def readDate (text : String) (span : Span) : Checking (Option Date) :=
  match Date.parse? text with
  | some d => pure (some d)
  | none => do
    fault (.badDate text) span
    return none

/-- Reads a date that may be missing. -/
def readDate? (text : Option String) (span : Span) : Checking (Option Date) :=
  match text with
  | none => pure none
  | some t => readDate t span

/-- Reports a window that does not end after it starts. -/
def checkWindow (lo hi : Option Date) (f : Date → Date → Fault) (span : Span) : Checking Unit :=
  match lo, hi with
  | some a, some b => faultIf (Date.le b a) (f a b) span
  | _, _ => pure ()

/-- Strings, arrays, and what may turn out to be one. -/
def isSized (t : Ty) : Bool :=
  match t.core with
  | .prim .string => true
  | .array _ => true
  | .unknown => true
  | .var _ => true
  | _ => false

/-- Reports the cycle on which an alias lies, given the aliases being expanded, unless it has been
reported already. -/
def reportAliasCycle (opened : List String) (name : Ident) : Checking Unit := do
  let r ← get
  if r.cyclic.contains name.name then return ()
  let cycle := opened.dropWhile (· != name.name)
  set { r with cyclic := r.cyclic ++ cycle }
  fault (.aliasCycle name.name (cycle ++ [name.name])) name.span

/-- How to resolve the target of an alias: its name, its parameters and the target. -/
abbrev Expansion := String → List String → TypeExpr → Checking Ty

/-- Resolves a name that is neither a type parameter nor a built-in type, its arguments being
resolved. `opened` lists the aliases being expanded. -/
def resolveDeclared (env : Env) (expand : Expansion) (opened : List String) (span : Span)
    (name : Ident) (args : List Ty) : Checking Ty :=
  match env.lookup name.name with
  | none => do
    fault (if looksLikeTypeParam name.name then .unboundTypeVariable name.name
      else .unknownType name.name) name.span
    return .unknown
  | some d =>
    match env.instantiate name.name args with
    | .error a => do
      fault (.typeArity name.name a.expected a.got) span
      return .unknown
    | .ok binding =>
      match d.body with
      | .struct _ _ => pure (.struct name.name args)
      | .enum _ => pure (.enum name.name)
      | .synonym target =>
        if opened.contains name.name then do
          reportAliasCycle opened name
          return .unknown
        else do
          let t ← expand name.name d.params target
          return binding.apply t

mutual

/-- Resolves a type expression, given how to expand aliases. A name is a type parameter if it is
among `params`, those of the declaration at hand, or `ambient`, those of the function around it. -/
def resolveWith (env : Env) (ambient : List String) (expand : Expansion)
    (opened params : List String) :
    TypeExpr → Checking Ty
  | .prim _ p => pure (.prim p)
  | .var _ v =>
    if params.contains v.name || ambient.contains v.name then pure (.var v.name)
    else do
      fault (.unboundTypeVariable v.name) v.span
      return .unknown
  | .named span name args =>
    if args.isEmpty && (params.contains name.name || ambient.contains name.name) then
      pure (.var name.name)
    else
      match Prim.ofName? name.name with
      | some p => pure (.prim p)
      | none => do
        let tys ← resolveAllWith env ambient expand opened params args
        resolveDeclared env expand opened span name tys
  | .refine span base lo hi => do
    let t ← resolveWith env ambient expand opened params base
    faultIf (!t.isNumeric) (.rangeNotNumeric t) base.span
    match lo, hi with
    | some l, some h => faultIf (decide (h < l)) (.emptyRange l h) span
    | _, _ => pure ()
    return .refine t lo hi
  | .citation span c => do
    match c.problem? with
    | some p => fault (.badCitation p) span
    | none => pure ()
    return .citation c
  | .temporal span inner opens closes => do
    let t ← resolveWith env ambient expand opened params inner
    let lo ← readDate? opens span
    let hi ← readDate? closes span
    checkWindow lo hi .emptyPeriod span
    return .temporal t lo hi
  | .array _ inner => do
    let t ← resolveWith env ambient expand opened params inner
    return .array t
  | .positive _ inner => do
    let t ← resolveWith env ambient expand opened params inner
    faultIf (!t.isNumeric) (.positiveNotNumeric t) inner.span
    return .positive t
  | .nonEmpty _ inner => do
    let t ← resolveWith env ambient expand opened params inner
    faultIf (!isSized t) (.nonEmptyNotSized t) inner.span
    return .nonEmpty t
  | .validDate span after before => do
    let lo ← readDate? after span
    let hi ← readDate? before span
    checkWindow lo hi .emptyDateWindow span
    return .validDate lo hi
  | .union _ a b => do
    let l ← resolveWith env ambient expand opened params a
    let r ← resolveWith env ambient expand opened params b
    return .union l r
  | .moneyIn span code => do
    faultIf (!isCurrencyCode code) (.badCurrency code) span
    return .moneyIn code

/-- Resolves several type expressions in order. -/
def resolveAllWith (env : Env) (ambient : List String) (expand : Expansion)
    (opened params : List String) :
    List TypeExpr → Checking (List Ty)
  | [] => pure []
  | t :: ts => do
    let u ← resolveWith env ambient expand opened params t
    let us ← resolveAllWith env ambient expand opened params ts
    return u :: us

end

/-- Resolves a type expression while the aliases of `opened` are being expanded, with room for
`depth` further expansions inside one another. No alias is expanded inside itself, so as much room
as there are definitions is never used up. -/
def resolveIn (env : Env) (ambient : List String) :
    Nat → List String → List String → TypeExpr → Checking Ty
  | 0, opened, params => resolveWith env ambient (fun _ _ _ => pure .unknown) opened params
  | depth + 1, opened, params =>
    resolveWith env ambient
      (fun name ps target => resolveIn env ambient depth (opened ++ [name]) ps target) opened params

/-- Resolves a type expression of a declaration with the given type parameters, inside a function
with the parameters `ambient`. -/
def resolve (env : Env) (ambient params : List String) (t : TypeExpr) : Checking Ty :=
  resolveIn env ambient env.size [] params t

end Statute
