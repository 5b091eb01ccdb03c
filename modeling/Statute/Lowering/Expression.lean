import Statute.Lowering.Draft

/-!
# Lowering expressions

Principles become terms: bound variables and declared values become symbols, fields and functions
become function symbols, a legal test becomes the conjunction of its requirements, and a `match`
becomes a chain of conditionals that ends at the first arm that always applies. A bounded variable
is guarded by its limits.
-/

namespace Statute

open Logic

/-- What lowering knows about the program around a principle. -/
structure LoweringContext where
  env : Env
  /-- Named values that a principle may refer to. -/
  values : List Declaration := []
  /-- How many quantifiers may stand inside one another. -/
  maxDepth : Nat

/-- A name bound by a quantifier or a pattern, and what it stands for. -/
structure Local where
  name : String
  term : Term
  sort : SmtSort

namespace LoweringContext

/-- The declaration of a named value; of several the first. -/
def value? (cx : LoweringContext) (name : String) : Option Declaration :=
  cx.values.find? fun d => d.name.name == name

/-- The name is bound around here or declared. -/
def isBound (cx : LoweringContext) (locals : List Local) (name : String) : Bool :=
  (locals.any fun l => l.name == name) || (cx.value? name).isSome

end LoweringContext

/-- A literal as a term. Dates become the number of their day. -/
def lowerLiteral (v : Literal) (span : Span) : Lowering Lowered :=
  match v with
  | .int n => pure (.int n, .int)
  | .float x => pure (.real x, .real)
  | .money x => pure (.real x, .real)
  | .percent x => pure (.real x, .real)
  | .bool b => pure (.bool b, .bool)
  | .string s => pure (.str s, .string)
  | .date text =>
    match Date.parse? text with
    | some d => pure (.int d.dayNumber, .int)
    | none => Lowering.stop (.badDate text) span
  | .duration text => Lowering.stop (.duration text) span
  | .pass => Lowering.stop .passLiteral span

/-- A variant as a term. -/
def lowerVariant (env : Env) (type variant : Ident) (span : Span) : Lowering Lowered :=
  match (env.enum? type.name).filter fun info => info.hasVariant variant.name with
  | none => Lowering.stop (.unknownVariant type.name variant.name) span
  | some _ => do
    let s ← enumSort env type.name
    return (.variant type.name variant.name, s)

/-- The comparison that an operator stands for. -/
def comparisonOf : BinaryOp → Comparison
  | .eq => .eq
  | .ne => .distinct
  | .lt => .lt
  | .gt => .gt
  | .le => .le
  | _ => .ge

/-- The arithmetic that an operator stands for. -/
def arithmeticOf : BinaryOp → Arithmetic
  | .add => .add
  | .sub => .sub
  | .mul => .mul
  | .div => .div
  | _ => .mod

/-- The sort at which two operands meet: their own, or real if both are numbers. -/
def joinedSort? (l r : SmtSort) : Option SmtSort :=
  if l == r then some l
  else
    match l, r with
    | .int, .real => some .real
    | .real, .int => some .real
    | _, _ => none

/-- An operator applied to lowered operands. -/
def lowerBinary (op : BinaryOp) (l r : Lowered) (lspan rspan : Span) : Lowering Lowered := do
  let (a, s) := l
  let (b, t) := r
  if op.isLogical then
    expectSort .bool s lspan
    expectSort .bool t rspan
    match op with
    | .and => return (.and [a, b], .bool)
    | .or => return (.or [a, b], .bool)
    | _ => return (.implies a b, .bool)
  else
    match joinedSort? s t with
    | none => Lowering.stop (.sortMismatch s.text t) rspan
    | some joined =>
      let a ← coerce a s joined lspan
      let b ← coerce b t joined rspan
      if op.isComparison then
        let c := comparisonOf op
        if c != .eq && c != .distinct && !joined.isNumeric then
          Lowering.stop (.sortMismatch "Int or Real" joined) lspan
        else return (.cmp c a b, .bool)
      else if !joined.isNumeric then Lowering.stop (.sortMismatch "Int or Real" joined) lspan
      else
        let c := arithmeticOf op
        if c == .mod && joined != .int then Lowering.stop (.sortMismatch "Int" joined) rspan
        else return (.arith c joined a b, joined)

/-- An operator applied to a lowered operand. -/
def lowerUnary (op : UnaryOp) (e : Lowered) (span : Span) : Lowering Lowered := do
  let (t, s) := e
  match op with
  | .not =>
    expectSort .bool s span
    return (.not t, .bool)
  | .neg =>
    if s.isNumeric then return (.neg t, s)
    else Lowering.stop (.sortMismatch "Int or Real" s) span

/-- A field of a lowered struct value: a function of the value. -/
def lowerMember (env : Env) (base : Lowered) (span : Span) (field : Ident) : Lowering Lowered := do
  let (t, s) := base
  let known := (← get).structs
  let struct? := match s with
    | .free name => (known.lookup name).map fun st => (name, st)
    | _ => none
  match struct? with
  | none => Lowering.stop (.sortMismatch "a struct sort" s) span
  | some (name, struct, args) =>
    match env.fieldType? struct args field.name with
    | none => Lowering.stop (.noSuchField struct field.name) field.span
    | some ty =>
      let (result, _) ← sortOf env field.span ty
      let accessor := name ++ "." ++ field.name
      Lowering.addFunction ⟨accessor, [s], result⟩
      return (.apply accessor [t], result)

/-- The function symbol of a requirement of a legal test for subjects of a sort. A symbol that is
taken by subjects of another sort gets the sort's name added. -/
def requirementSymbol (v : Vocabulary) (test requirement : String) (s : SmtSort) : String :=
  let plain := test ++ "." ++ requirement
  match v.function? plain with
  | some f => if f.params.head? == some s then plain else plain ++ "." ++ s.text
  | none => plain

/-- The statements that a subject meets requirements, in order. -/
def lowerRequirements (test : String) (subject : Lowered) : List String → Lowering (List Term)
  | [] => pure []
  | r :: rest => do
    let name := requirementSymbol (← get).vocabulary test r subject.2
    Lowering.addFunction ⟨name, [subject.2], .bool⟩
    let ts ← lowerRequirements test subject rest
    return .apply name [subject.1] :: ts

/-- The statement that a subject passes a legal test: it meets all the requirements. -/
def lowerTest (env : Env) (test : Ident) (subject : Lowered) : Lowering Term :=
  match env.test? test.name with
  | none => Lowering.stop (.unknownTest test.name) test.span
  | some info => do
    return .conj (← lowerRequirements info.name subject info.requirementNames)

/-- A lowered arm: when it applies (always, if nothing is said) and its value. -/
structure LoweredArm where
  condition : Option Term
  body : Term
  sort : SmtSort
  span : Span

/-- The sort of a `match`: real if some arm is and all are numbers, else that of the first arm. -/
def armsSort (arms : List LoweredArm) : SmtSort :=
  if (arms.any fun a => a.sort == .real) && arms.all fun a => a.sort.isNumeric then .real
  else ((arms.head?).map (·.sort)).getD .bool

/-- The chain of conditionals of arms that end with one that always applies. -/
def chainArms (result : SmtSort) : List LoweredArm → Lowering (Option Term)
  | [] => pure none
  | a :: rest => do
    let tail ← chainArms result rest
    let body ← coerce a.body a.sort result a.span
    match a.condition, tail with
    | some c, some t => return some (.ite c body t)
    | _, _ => return some body

/-- A `match` over lowered arms. -/
def lowerArms (place : Span) (arms : List LoweredArm) (closed : Bool) : Lowering Lowered := do
  if !closed then Lowering.stop .openMatch place
  else
    let result := armsSort arms
    match ← chainArms result arms with
    | some t => return (t, result)
    | none => Lowering.stop .openMatch place

/-- Both conditions of an arm together. -/
def bothConditions : Option Term → Option Term → Option Term
  | none, g => g
  | c, none => c
  | some c, some g => some (.and [c, g])

/-- When a pattern matches (always, if nothing is said), and the names it binds. -/
def lowerPattern (env : Env) (scrutinee : Lowered) : Pattern → Lowering (Option Term × List Local)
  | .wildcard _ => pure (none, [])
  | .literal span value => do
    let (t, s) ← lowerLiteral value span
    let t ← coerce t s scrutinee.2 span
    return (some (.cmp .eq scrutinee.1 t), [])
  | .variant span type variant => do
    let (t, s) ← lowerVariant env type variant span
    expectSort scrutinee.2 s span
    return (some (.cmp .eq scrutinee.1 t), [])
  | .binding name => pure (none, [⟨name.name, scrutinee.1, scrutinee.2⟩])
  | .satisfies _ test => do return (some (← lowerTest env test scrutinee), [])

/-- Turns a declared value into a constant on first use. It is assumed to keep within the limits of
its type and to equal its value, as far as the value can be lowered. -/
def lowerValue (cx : LoweringContext) (lowerBody : Expr → Lowering Lowered) (d : Declaration) :
    Lowering Lowered := do
  let name := d.name.name
  let type ← Lowering.ofExcept (typeOf cx.env d.type)
  let (s, limits) ← sortOf cx.env d.type.span type
  if !(← get).declared.contains name then
    modify fun st => { st with declared := st.declared ++ [name] }
    Lowering.addConstant ⟨name, name, s, limits.1, limits.2⟩
    match withinLimits? (.var name) limits with
    | some g => Lowering.assume g
    | none => pure ()
    match ← Lowering.observe (lowerBody d.value) with
    | .ok (t, source) =>
      match coerce? t source s with
      | some t => Lowering.assume (.cmp .eq (.var name) t)
      | none => pure ()
    | .error _ => pure ()
  return (.var name, s)

/-- A name: bound around here, or a declared value. -/
def lowerName (cx : LoweringContext) (lowerBody : Expr → Lowering Lowered) (locals : List Local)
    (id : Ident) : Lowering Lowered :=
  match locals.find? fun l => l.name == id.name with
  | some l => pure (l.term, l.sort)
  | none =>
    match cx.value? id.name with
    | some d => lowerValue cx lowerBody d
    | none => Lowering.stop (.unboundName id.name) id.span

/-- The body of a quantifier under the guard of its variable. -/
def guardBody (q : Quantifier) (guard : Option Term) (body : Term) : Term :=
  match q, guard with
  | _, none => body
  | .all, some g => .implies g body
  | .some, some g => .and [g, body]

/-- The function that a call names; it takes the given number of arguments and no types. -/
def calledFunction (env : Env) (callee : Ident) (args : Nat) : Lowering Signature :=
  match env.function? callee.name with
  | none => Lowering.stop (.unknownFunction callee.name) callee.span
  | some f =>
    if !f.typeParams.isEmpty then Lowering.stop (.genericFunction f.name) callee.span
    else if f.params.length != args then
      Lowering.stop (.callArity f.name f.params.length args) callee.span
    else pure f

mutual

/-- Lowers an expression at a depth of quantifiers, given how to lower values of declarations. -/
def lowerWith (cx : LoweringContext) (lowerBody : Expr → Lowering Lowered) (locals : List Local)
    (depth : Nat) : Expr → Lowering Lowered
  | .literal span v => lowerLiteral v span
  | .name _ id => lowerName cx lowerBody locals id
  | .variant span type variant => lowerVariant cx.env type variant span
  | .unary _ op e => do
    let t ← lowerWith cx lowerBody locals depth e
    lowerUnary op t e.span
  | .binary _ op l r => do
    let a ← lowerWith cx lowerBody locals depth l
    let b ← lowerWith cx lowerBody locals depth r
    lowerBinary op a b l.span r.span
  | .member _ base field => do
    let t ← lowerWith cx lowerBody locals depth base
    lowerMember cx.env t base.span field
  | .call _ callee args => do
    let f ← calledFunction cx.env callee args.length
    let terms ← lowerArgs cx lowerBody locals depth callee.span (f.params.map (·.2)) args
    let (result, _) ← sortOf cx.env callee.span f.result
    Lowering.addFunction ⟨f.name, terms.map (·.2), result⟩
    return (.apply f.name (terms.map (·.1)), result)
  | .record span name _ => Lowering.stop (.structLiteral name.name) span
  | .select _ place e arms => do
    let scrutinee ← lowerWith cx lowerBody locals depth e
    let (lowered, closed) ← lowerEachArm cx lowerBody locals depth scrutinee arms
    lowerArms place lowered closed
  | .satisfies _ e test => do
    let subject ← lowerWith cx lowerBody locals depth e
    return (← lowerTest cx.env test subject, .bool)
  | .quantified _ q var type body => do
    if cx.maxDepth < depth + 1 then Lowering.stop (.tooDeep (depth + 1) cx.maxDepth) var.span
    else
      let t ← Lowering.ofExcept (typeOf cx.env type)
      let (s, limits) ← sortOf cx.env type.span t
      if cx.isBound locals var.name then
        Lowering.warn s!"`{q.keyword} {var.name}` shadows an outer binding of `{var.name}`"
      let symbol ← Lowering.fresh var.name
      let (inner, bodySort) ←
        lowerWith cx lowerBody (⟨var.name, .var symbol, s⟩ :: locals) (depth + 1) body
      expectSort .bool bodySort body.span
      return (.quant q symbol s (guardBody q (withinLimits? (.var symbol) limits) inner), .bool)

/-- Lowers arguments at the sorts of the parameters. -/
def lowerArgs (cx : LoweringContext) (lowerBody : Expr → Lowering Lowered) (locals : List Local)
    (depth : Nat) (span : Span) : List Ty → List Expr → Lowering (List Lowered)
  | p :: params, e :: es => do
    let (s, _) ← sortOf cx.env span p
    let (t, source) ← lowerWith cx lowerBody locals depth e
    let t ← coerce t source s e.span
    let rest ← lowerArgs cx lowerBody locals depth span params es
    return (t, s) :: rest
  | _, _ => pure []

/-- Lowers arms up to the first that always applies, and says whether there is one. -/
def lowerEachArm (cx : LoweringContext) (lowerBody : Expr → Lowering Lowered) (locals : List Local)
    (depth : Nat) (scrutinee : Lowered) :
    List (Arm Expr Expr) → Lowering (List LoweredArm × Bool)
  | [] => pure ([], false)
  | ⟨_, p, none, body⟩ :: arms => do
    let (condition, bound) ← lowerPattern cx.env scrutinee p
    let (t, s) ← lowerWith cx lowerBody (bound ++ locals) depth body
    let arm : LoweredArm := ⟨condition, t, s, body.span⟩
    if condition.isNone then return ([arm], true)
    else
      let (rest, closed) ← lowerEachArm cx lowerBody locals depth scrutinee arms
      return (arm :: rest, closed)
  | ⟨_, p, some g, body⟩ :: arms => do
    let (condition, bound) ← lowerPattern cx.env scrutinee p
    let (c, cs) ← lowerWith cx lowerBody (bound ++ locals) depth g
    expectSort .bool cs g.span
    let (t, s) ← lowerWith cx lowerBody (bound ++ locals) depth body
    let arm : LoweredArm := ⟨bothConditions condition (some c), t, s, body.span⟩
    let (rest, closed) ← lowerEachArm cx lowerBody locals depth scrutinee arms
    return (arm :: rest, closed)

end

/-- Lowers an expression, with room to open `pending` declared values inside one another. Each is
opened at most once, so as much room as there are declared values is never used up. -/
def lowerIn (cx : LoweringContext) : Nat → List Local → Nat → Expr → Lowering Lowered
  | 0, locals, depth => lowerWith cx (fun e => Lowering.stop .openMatch e.span) locals depth
  | pending + 1, locals, depth =>
    lowerWith cx (fun e => lowerIn cx pending [] 0 e) locals depth

end Statute
