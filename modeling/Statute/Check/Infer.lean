import Statute.Check.Limits
import Statute.Check.Resolve
import Statute.Match.Arms
import Statute.Scope
import Statute.Types.Accepts

/-!
# Types of expressions

`infer` finds the type of an expression in a scope and reports what is wrong with it. After a fault
it goes on with the unknown type, which causes no further ones. Scopes are values that are handed
down, so checking an expression cannot change the scope around it: all that lasts is the report.
-/

namespace Statute

open Checking

/-- What to check beyond the types. -/
structure CheckOptions where
  /-- Look for ambiguous verdicts in functions that return an exclusive enum. -/
  exclusivity : Bool := true
  /-- Warn when a name hides an outer one. -/
  shadowing : Bool := true
  deriving DecidableEq, Repr, Inhabited

/-- What is known at a point of a program besides the names in scope. -/
structure Context where
  env : Env
  options : CheckOptions := {}
  /-- Type parameters of the function around. -/
  typeParams : List String := []

/-- Resolves a type written inside a body. -/
def Context.resolve (cx : Context) (t : TypeExpr) : Checking Ty :=
  Statute.resolve cx.env cx.typeParams cx.typeParams t

/-- Defines a name in the innermost frame. -/
def bindName (cx : Context) (scope : Scope) (name : Ident) (type : Ty) (kind : BindingKind) :
    Checking Scope :=
  match scope.define ⟨name.name, type, name.span, kind⟩ with
  | (scope, .fresh) => pure scope
  | (scope, .shadows _) => do
    if cx.options.shadowing then warn (.shadows name.name) name.span
    return scope
  | (scope, .duplicate _) => do
    fault (.alreadyDefined name.name) name.span
    return scope

/-- A value of type `got` may stand where `expected` is asked for: its shape fits, or it is of a
struct that extends the expected one. -/
def fits (env : Env) (expected got : Ty) : Bool :=
  expected.accepts got ||
    match expected.core, got.core with
    | .struct e _, .struct g _ => env.isSubtype g e
    | _, _ => false

/-- Reports a value whose type does not fit. -/
def expectFits (cx : Context) (expected got : Ty) (span : Span) : Checking Unit :=
  faultIf (!fits cx.env expected got) (.mismatch expected got) span

/-- The built-in type of a literal. -/
def literalPrim : Literal → Prim
  | .int _ => .int
  | .float _ => .float
  | .bool _ => .bool
  | .string _ => .string
  | .money _ => .money
  | .percent _ => .percent
  | .date _ => .date
  | .duration _ => .duration
  | .pass => .pass

/-- The type of a literal; a date that cannot be read is reported. -/
def literalType (v : Literal) (span : Span) : Checking Ty := do
  match v with
  | .date text => let _ ← readDate text span
  | _ => pure ()
  return .prim (literalPrim v)

/-- The type of a variant. -/
def variantType (env : Env) (type variant : Ident) (span : Span) : Checking Ty :=
  match env.enum? type.name with
  | none => do
    fault (.unknownEnum type.name) type.span
    return .unknown
  | some info => do
    faultIf (!info.hasVariant variant.name) (.unknownVariant type.name variant.name) span
    return .enum type.name

/-- Reports a legal test that does not exist. -/
def checkTest (env : Env) (test : Ident) : Checking Unit :=
  faultIf (env.test? test.name).isNone (.unknownTest test.name) test.span

/-- The operands of a comparison go together. -/
def comparable (op : BinaryOp) (l r : Ty) : Bool :=
  match op with
  | .eq | .ne => l.accepts r || r.accepts l
  | _ =>
    l.isOrdered && r.isOrdered && l.isNumeric == r.isNumeric && (l.isNumeric || l.accepts r)

/-- The result of arithmetic on numbers: `float` if either side is, else the type that is not
`int`. -/
def arithmeticType (l r : Ty) : Ty :=
  match l.core, r.core with
  | .prim .float, _ => .prim .float
  | _, .prim .float => .prim .float
  | .prim .int, t => t
  | t, _ => t

/-- The result of adding or subtracting a duration, if that is what is asked for. -/
def durationType? (op : BinaryOp) (l r : Ty) : Option Ty :=
  match op, l.core, r.core with
  | .add, .prim .date, .prim .duration => some (.prim .date)
  | .sub, .prim .date, .prim .duration => some (.prim .date)
  | .add, .prim .duration, .prim .duration => some (.prim .duration)
  | .sub, .prim .duration, .prim .duration => some (.prim .duration)
  | _, _, _ => none

/-- The type of an operator applied to operands of types `l` and `r` at the given places. -/
def binaryType (op : BinaryOp) (l r : Ty) (lspan rspan : Span) : Checking Ty := do
  if op.isLogical then
    faultIf (!l.isBool) (.mismatch .bool l) lspan
    faultIf (!r.isBool) (.mismatch .bool r) rspan
    return .bool
  else if op.isComparison then
    faultIf (!comparable op l r) (.mismatch l r) rspan
    return .bool
  else
    match durationType? op l r with
    | some t => return t
    | none =>
      if !l.isNumeric then
        fault (.notNumeric l) lspan
        return .unknown
      else if !r.isNumeric then
        fault (.notNumeric r) rspan
        return .unknown
      else return arithmeticType l r

/-- The type of an operator applied to an operand of type `t`. -/
def unaryType (op : UnaryOp) (t : Ty) (span : Span) : Checking Ty :=
  match op with
  | .not => do
    faultIf (!t.isBool) (.mismatch .bool t) span
    return .bool
  | .neg =>
    if t.isNumeric then pure t.core
    else do
      fault (.notNumeric t) span
      return .unknown

/-- The type of a field of a value of type `t`. -/
def memberType (env : Env) (t : Ty) (span : Span) (field : Ident) : Checking Ty :=
  match t.core with
  | .unknown => pure .unknown
  | .struct name args =>
    match env.fieldType? name args field.name with
    | some u => pure u
    | none => do
      fault (.noSuchField name field.name) field.span
      return .unknown
  | other => do
    fault (.notStruct other) span
    return .unknown

/-- Compares arguments with parameters from left to right. A parameter whose type is a type
parameter of the function takes its type from its first argument. -/
def checkArgs (cx : Context) (typeParams : List String) :
    Binding → List Ty → List (Ty × Span) → Checking Binding
  | b, p :: params, (a, span) :: args =>
    let binds : Option String := match p with
      | .var v => if typeParams.contains v && (b.get? v).isNone then some v else none
      | _ => none
    match binds with
    | some v => checkArgs cx typeParams (b.bind v a) params args
    | none => do
      expectFits cx (b.apply p) a span
      checkArgs cx typeParams b params args
  | b, _, _ => pure b

/-- The type of a call, given the types and places of its arguments. -/
def callType (cx : Context) (callee : Ident) (args : List (Ty × Span)) : Checking Ty :=
  match cx.env.function? callee.name with
  | none => do
    fault (.unknownFunction callee.name) callee.span
    return .unknown
  | some f =>
    if f.params.length != args.length then do
      fault (.callArity f.name f.params.length args.length) callee.span
      return .unknown
    else do
      let b ← checkArgs cx f.typeParams {} (f.params.map (·.2)) args
      let t := b.apply f.result
      return if t.hasVar && !f.typeParams.isEmpty then .unknown else t

/-- Checks a pattern against the type of the scrutinee; a name is bound in the innermost frame. -/
def checkPattern (cx : Context) (scope : Scope) (scrutinee : Ty) : Pattern → Checking Scope
  | .wildcard _ => pure scope
  | .literal span value => do
    let t ← literalType value span
    faultIf (!scrutinee.accepts t && !t.accepts scrutinee) (.mismatch scrutinee t) span
    return scope
  | .variant span type variant => do
    let t ← variantType cx.env type variant span
    expectFits cx scrutinee t span
    return scope
  | .binding name => bindName cx scope name scrutinee .variable
  | .satisfies _ test => do
    checkTest cx.env test
    return scope

/-- The common type of arms: the first that is known. Later ones have to fit it. -/
def joinArms (cx : Context) (result : Ty) : List (Ty × Span) → Checking Ty
  | [] => pure result
  | (t, span) :: rest =>
    if result.isUnknown then joinArms cx t rest
    else do
      expectFits cx result t span
      joinArms cx result rest

/-- The struct that a literal is of: its type parameters and effective fields. -/
structure RecordShape where
  name : String
  params : List String
  fields : List Field

/-- The shape of the struct of a name. -/
def recordShape? (env : Env) (name : String) : Option RecordShape := do
  let id ← env.structId? name
  let d ← env.def? id
  return ⟨name, d.params, env.effectiveFields id⟩

/-- The types for the parameters of a struct that an expected type prescribes. -/
def RecordShape.expectedBinding (s : RecordShape) (want : Option Ty) : Binding :=
  match want.map Ty.core with
  | some (.struct n args) =>
    if n == s.name && args.length == s.params.length then Binding.ofLists s.params args else {}
  | _ => {}

/-- The field of a name; of several the one declared nearest. -/
def RecordShape.field? (s : RecordShape) (name : String) : Option Field :=
  s.fields.reverse.find? fun f => f.name == name

/-- The names of the fields that are not given, each once. -/
def RecordShape.missing (s : RecordShape) (given : List String) : List String :=
  ((s.fields.map (·.name)).filter fun n => !given.contains n).eraseDups

/-- The type of a struct literal, given the types of its parameters. -/
def RecordShape.type (s : RecordShape) (b : Binding) : Ty :=
  .struct s.name (s.params.map fun p => (b.get? p).getD .unknown)

/-- Takes in the type `got` of a value given for a field of type `want`: a type parameter of the
struct that has no type yet takes it, otherwise it has to fit. -/
def fieldBinding (cx : Context) (s : RecordShape) (b : Binding) (want got : Ty) (span : Span) :
    Checking Binding :=
  let param : Option String := match want with
    | .var v => if s.params.contains v then some v else none
    | _ => none
  match param with
  | some v => pure (if got.isUnknown then b else b.bind v got)
  | none => do
    expectFits cx want got span
    return b

mutual

/-- The type of an expression. `want` is the type asked for, if any; it only helps to find the type
arguments of struct literals. -/
def infer (cx : Context) (scope : Scope) (want : Option Ty) : Expr → Checking Ty
  | .literal span v => literalType v span
  | .name _ id =>
    match scope.lookup id.name with
    | some b => pure b.type
    | none => do
      fault (.unknownName id.name) id.span
      return .unknown
  | .variant span type variant => variantType cx.env type variant span
  | .unary _ op e => do
    let t ← infer cx scope none e
    unaryType op t e.span
  | .binary _ op l r => do
    let a ← infer cx scope none l
    let b ← infer cx scope none r
    binaryType op a b l.span r.span
  | .member _ base field => do
    let t ← infer cx scope none base
    memberType cx.env t base.span field
  | .call _ callee args => do
    let tys ← inferArgs cx scope args
    callType cx callee tys
  | .record _ type fields =>
    match recordShape? cx.env type.name with
    | none => do
      fault (.unknownStruct type.name) type.span
      inferValues cx scope fields
      return .unknown
    | some shape => do
      let (b, given) ← inferFields cx scope shape (shape.expectedBinding want) [] fields
      faults ((shape.missing given).map fun f => ⟨.fieldMissing type.name f, type.span⟩)
      return shape.type b
  | .select _ place e arms => do
    let t ← infer cx scope none e
    faults (exhaustivenessFault? place (arms.map Arm.head)).toList
    faults (unreachableArms (arms.map Arm.head))
    let tys ← inferArms cx scope want t arms
    joinArms cx .unknown tys
  | .satisfies _ e test => do
    let _ ← infer cx scope none e
    checkTest cx.env test
    return .bool
  | .quantified _ q var type body => do
    let bound ← cx.resolve type
    let inside ← bindName cx scope.push var bound .quantified
    let t ← infer cx inside none body
    faultIf (!t.isBool) (.quantifiedNotBool q t) body.span
    return .bool

/-- The types and places of arguments. -/
def inferArgs (cx : Context) (scope : Scope) : List Expr → Checking (List (Ty × Span))
  | [] => pure []
  | e :: es => do
    let t ← infer cx scope none e
    let ts ← inferArgs cx scope es
    return (t, e.span) :: ts

/-- Checks the values of fields of a struct that does not exist. -/
def inferValues (cx : Context) (scope : Scope) : List (Ident × Expr) → Checking Unit
  | [] => pure ()
  | (_, e) :: fs => do
    let _ ← infer cx scope none e
    inferValues cx scope fs

/-- Checks the fields of a struct literal in order, given the types of parameters found so far and
the names given so far. -/
def inferFields (cx : Context) (scope : Scope) (s : RecordShape) (b : Binding)
    (given : List String) :
    List (Ident × Expr) → Checking (Binding × List String)
  | [] => pure (b, given)
  | (name, e) :: fs =>
    if given.contains name.name then do
      fault (.fieldGivenTwice s.name name.name) name.span
      inferFields cx scope s b given fs
    else
      match s.field? name.name with
      | none => do
        fault (.noSuchField s.name name.name) name.span
        let _ ← infer cx scope none e
        inferFields cx scope s b (given ++ [name.name]) fs
      | some f => do
        let want := b.apply f.type
        let got ← infer cx scope (some want) e
        let b' ← fieldBinding cx s b want got e.span
        faults (constantFaults want e)
        faults (fieldConditionFaults f e)
        inferFields cx scope s b' (given ++ [name.name]) fs

/-- The types and places of the bodies of arms. -/
def inferArms (cx : Context) (scope : Scope) (want : Option Ty) (scrutinee : Ty) :
    List (Arm Expr Expr) → Checking (List (Ty × Span))
  | [] => pure []
  | ⟨_, p, none, body⟩ :: arms => do
    let inside ← checkPattern cx scope.push scrutinee p
    let t ← infer cx inside want body
    let ts ← inferArms cx scope want scrutinee arms
    return (t, body.span) :: ts
  | ⟨_, p, some g, body⟩ :: arms => do
    let inside ← checkPattern cx scope.push scrutinee p
    let c ← infer cx inside none g
    faultIf (!c.isBool) (.siteNotBool .matchGuard c) g.span
    let t ← infer cx inside want body
    let ts ← inferArms cx scope want scrutinee arms
    return (t, body.span) :: ts

end

/-- Checks a condition, which has to be a truth value. -/
def expectBool (cx : Context) (scope : Scope) (site : ConditionSite) (e : Expr) :
    Checking Unit := do
  let t ← infer cx scope none e
  faultIf (!t.isBool) (.siteNotBool site t) e.span

/-- Checks a value that is put where a type is declared. -/
def expectValue (cx : Context) (scope : Scope) (declared : Ty) (e : Expr) : Checking Unit := do
  let got ← infer cx scope (some declared) e
  expectFits cx declared got e.span
  faults (constantFaults declared e)

end Statute
