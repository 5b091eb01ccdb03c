import Statute.Check.Body

/-!
# Checking on one stack

`infer` and `checkStmt` are handed the scope they work in. Here the same checks are written for a
checker that has one `CheckState` for the whole run: the declarations, a stack of frames, the type
parameters of the function around and a stack of the aliases being expanded. It changes the state
as it goes: a frame is put on the stack before a block or an arm and taken off after it, and so is
an alias around its expansion.
-/

namespace Statute

/-- What a check works in, besides the report. -/
structure CheckState where
  env : Env
  scope : Scope
  typeParams : List String
  /-- The aliases being expanded. -/
  opened : List String

/-- A check that may change the state and add to the report. -/
abbrev Working := StateT CheckState Checking

namespace Working

open Checking

/-- Runs a check on a frame of its own. -/
def framed {β : Type} (x : Working β) : Working β := do
  modify fun st => { st with scope := st.scope.push }
  let b ← x
  modify fun st => { st with scope := st.scope.pop }
  return b

/-- Runs a check while an alias is being expanded. -/
def opening {β : Type} (name : String) (x : Working β) : Working β := do
  modify fun st => { st with opened := st.opened ++ [name] }
  let b ← x
  modify fun st => { st with opened := st.opened.dropLast }
  return b

/-- Runs a check that depends on the declarations and the type parameters. -/
def inContext {β : Type} (o : CheckOptions) (x : Context → Checking β) : Working β := do
  let st ← get
  x ⟨st.env, o, st.typeParams⟩

/-!
## Types
-/

/-- Resolves a name that is neither a type parameter nor a built-in type, its arguments being
resolved. -/
def resolveDeclared (expand : List String → TypeExpr → Working Ty) (span : Span) (name : Ident)
    (args : List Ty) : Working Ty := do
  let st ← get
  match st.env.lookup name.name with
  | none => do
    fault (if looksLikeTypeParam name.name then .unboundTypeVariable name.name
      else .unknownType name.name) name.span
    return .unknown
  | some d =>
    match st.env.instantiate name.name args with
    | .error a => do
      fault (.typeArity name.name a.expected a.got) span
      return .unknown
    | .ok binding =>
      match d.body with
      | .struct _ _ => pure (.struct name.name args)
      | .enum _ => pure (.enum name.name)
      | .synonym target =>
        if st.opened.contains name.name then do
          reportAliasCycle st.opened name
          return .unknown
        else do
          let t ← opening name.name (expand d.params target)
          return binding.apply t

mutual

/-- Resolves a type expression, given how to expand aliases. -/
def resolveWith (expand : List String → TypeExpr → Working Ty) (params : List String) :
    TypeExpr → Working Ty
  | .prim _ p => pure (.prim p)
  | .var _ v => do
    let st ← get
    if params.contains v.name || st.typeParams.contains v.name then pure (.var v.name)
    else do
      fault (.unboundTypeVariable v.name) v.span
      return .unknown
  | .named span name args => do
    let st ← get
    if args.isEmpty && (params.contains name.name || st.typeParams.contains name.name) then
      pure (.var name.name)
    else
      match Prim.ofName? name.name with
      | some p => pure (.prim p)
      | none => do
        let tys ← resolveAllWith expand params args
        resolveDeclared expand span name tys
  | .refine span base lo hi => do
    let t ← resolveWith expand params base
    faultIf (!t.isNumeric) (.rangeNotNumeric t) base.span
    match lo, hi with
    | some l, some h => faultIf (decide (h < l)) (.emptyRange l h) span
    | _, _ => pure ()
    return .refine t lo hi
  | .citation span c => do
    match c.problem? with
    | some p => fault (.badCitation p) span
    | none => pure ()
    return .citation c
  | .temporal span inner opens closes => do
    let t ← resolveWith expand params inner
    let lo ← readDate? opens span
    let hi ← readDate? closes span
    checkWindow lo hi .emptyPeriod span
    return .temporal t lo hi
  | .array _ inner => do
    let t ← resolveWith expand params inner
    return .array t
  | .positive _ inner => do
    let t ← resolveWith expand params inner
    faultIf (!t.isNumeric) (.positiveNotNumeric t) inner.span
    return .positive t
  | .nonEmpty _ inner => do
    let t ← resolveWith expand params inner
    faultIf (!isSized t) (.nonEmptyNotSized t) inner.span
    return .nonEmpty t
  | .validDate span after before => do
    let lo ← readDate? after span
    let hi ← readDate? before span
    checkWindow lo hi .emptyDateWindow span
    return .validDate lo hi
  | .union _ a b => do
    let l ← resolveWith expand params a
    let r ← resolveWith expand params b
    return .union l r
  | .moneyIn span code => do
    faultIf (!isCurrencyCode code) (.badCurrency code) span
    return .moneyIn code

/-- Resolves several type expressions in order. -/
def resolveAllWith (expand : List String → TypeExpr → Working Ty) (params : List String) :
    List TypeExpr → Working (List Ty)
  | [] => pure []
  | t :: ts => do
    let u ← resolveWith expand params t
    let us ← resolveAllWith expand params ts
    return u :: us

end

/-- Resolves a type expression with room for `depth` further expansions inside one another. -/
def resolveIn : Nat → List String → TypeExpr → Working Ty
  | 0, params => resolveWith (fun _ _ => pure .unknown) params
  | depth + 1, params => resolveWith (resolveIn depth) params

/-- Resolves a type written inside a body. -/
def resolve (t : TypeExpr) : Working Ty := do
  let st ← get
  resolveIn st.env.size st.typeParams t

/-!
## Expressions
-/

/-- Defines a name in the innermost frame of the state. -/
def define (b : Bound) : Working Defined :=
  modifyGet fun st => ((st.scope.define b).2, { st with scope := (st.scope.define b).1 })

/-- Defines a name and reports what became of it. -/
def bindName (o : CheckOptions) (name : Ident) (type : Ty) (kind : BindingKind) :
    Working Unit := do
  match ← define ⟨name.name, type, name.span, kind⟩ with
  | .fresh => pure ()
  | .shadows _ => if o.shadowing then warn (.shadows name.name) name.span
  | .duplicate _ => fault (.alreadyDefined name.name) name.span

/-- Checks a pattern against the type of the scrutinee; a name is bound in the innermost frame. -/
def checkPattern (o : CheckOptions) (scrutinee : Ty) : Pattern → Working Unit
  | .wildcard _ => pure ()
  | .literal span value => do
    let t ← literalType value span
    faultIf (!scrutinee.accepts t && !t.accepts scrutinee) (.mismatch scrutinee t) span
  | .variant span type variant => inContext o fun cx => do
    let t ← variantType cx.env type variant span
    expectFits cx scrutinee t span
  | .binding name => bindName o name scrutinee .variable
  | .satisfies _ test => inContext o fun cx => checkTest cx.env test

mutual

/-- The type of an expression. -/
def infer (o : CheckOptions) (want : Option Ty) : Expr → Working Ty
  | .literal span v => literalType v span
  | .name _ id => do
    let st ← get
    match st.scope.lookup id.name with
    | some b => pure b.type
    | none => do
      fault (.unknownName id.name) id.span
      return .unknown
  | .variant span type variant => inContext o fun cx => variantType cx.env type variant span
  | .unary _ op e => do
    let t ← infer o none e
    unaryType op t e.span
  | .binary _ op l r => do
    let a ← infer o none l
    let b ← infer o none r
    binaryType op a b l.span r.span
  | .member _ base field => do
    let t ← infer o none base
    inContext o fun cx => memberType cx.env t base.span field
  | .call _ callee args => do
    let tys ← inferArgs o args
    inContext o fun cx => callType cx callee tys
  | .record _ type fields => do
    let st ← get
    match recordShape? st.env type.name with
    | none => do
      fault (.unknownStruct type.name) type.span
      inferValues o fields
      return .unknown
    | some shape => do
      let (b, given) ← inferFields o shape (shape.expectedBinding want) [] fields
      faults ((shape.missing given).map fun f => ⟨.fieldMissing type.name f, type.span⟩)
      return shape.type b
  | .select _ place e arms => do
    let t ← infer o none e
    faults (exhaustivenessFault? place (arms.map Arm.head)).toList
    faults (unreachableArms (arms.map Arm.head))
    let tys ← inferArms o want t arms
    inContext o fun cx => joinArms cx .unknown tys
  | .satisfies _ e test => do
    let _ ← infer o none e
    inContext o fun cx => checkTest cx.env test
    return .bool
  | .quantified _ q var type body => do
    let bound ← resolve type
    let t ← framed do
      bindName o var bound .quantified
      infer o none body
    faultIf (!t.isBool) (.quantifiedNotBool q t) body.span
    return .bool

/-- The types and places of arguments. -/
def inferArgs (o : CheckOptions) : List Expr → Working (List (Ty × Span))
  | [] => pure []
  | e :: es => do
    let t ← infer o none e
    let ts ← inferArgs o es
    return (t, e.span) :: ts

/-- Checks the values of fields of a struct that does not exist. -/
def inferValues (o : CheckOptions) : List (Ident × Expr) → Working Unit
  | [] => pure ()
  | (_, e) :: fs => do
    let _ ← infer o none e
    inferValues o fs

/-- Checks the fields of a struct literal in order, given the types of parameters found so far and
the names given so far. -/
def inferFields (o : CheckOptions) (s : RecordShape) (b : Binding) (given : List String) :
    List (Ident × Expr) → Working (Binding × List String)
  | [] => pure (b, given)
  | (name, e) :: fs =>
    if given.contains name.name then do
      fault (.fieldGivenTwice s.name name.name) name.span
      inferFields o s b given fs
    else
      match s.field? name.name with
      | none => do
        fault (.noSuchField s.name name.name) name.span
        let _ ← infer o none e
        inferFields o s b (given ++ [name.name]) fs
      | some f => do
        let want := b.apply f.type
        let got ← infer o (some want) e
        let b' ← inContext o fun cx => fieldBinding cx s b want got e.span
        faults (constantFaults want e)
        faults (fieldConditionFaults f e)
        inferFields o s b' (given ++ [name.name]) fs

/-- The types and places of the bodies of arms, each on a frame of its own. -/
def inferArms (o : CheckOptions) (want : Option Ty) (scrutinee : Ty) :
    List (Arm Expr Expr) → Working (List (Ty × Span))
  | [] => pure []
  | ⟨_, p, none, body⟩ :: arms => do
    let t ← framed do
      checkPattern o scrutinee p
      infer o want body
    let ts ← inferArms o want scrutinee arms
    return (t, body.span) :: ts
  | ⟨_, p, some g, body⟩ :: arms => do
    let t ← framed do
      checkPattern o scrutinee p
      let c ← infer o none g
      faultIf (!c.isBool) (.siteNotBool .matchGuard c) g.span
      infer o want body
    let ts ← inferArms o want scrutinee arms
    return (t, body.span) :: ts

end

/-- Checks a condition, which has to be a truth value. -/
def expectBool (o : CheckOptions) (site : ConditionSite) (e : Expr) : Working Unit := do
  let t ← infer o none e
  faultIf (!t.isBool) (.siteNotBool site t) e.span

/-- Checks a value that is put where a type is declared. -/
def expectValue (o : CheckOptions) (declared : Ty) (e : Expr) : Working Unit := do
  let got ← infer o (some declared) e
  inContext o fun cx => expectFits cx declared got e.span
  faults (constantFaults declared e)

/-!
## Statements
-/

/-- Checks a declaration and brings its name into scope. -/
def checkDeclaration (o : CheckOptions) (d : Declaration) : Working Unit := do
  let declared ← resolve d.type
  expectValue o declared d.value
  bindName o d.name declared .variable

/-- Checks an assignment. -/
def checkAssign (o : CheckOptions) (target : Ident) (value : Expr) : Working Unit := do
  let st ← get
  match st.scope.lookup target.name with
  | none => do
    fault (.assignUndeclared target.name) target.span
    let _ ← infer o none value
  | some b => expectValue o b.type value

mutual

/-- Checks a statement of a function that returns `result`. -/
def checkStmt (o : CheckOptions) (result : Ty) : Stmt → Working Unit
  | .declare d => checkDeclaration o d
  | .assign _ target value => checkAssign o target value
  | .ret _ value => expectValue o result value
  | .branch _ cond yes no => do
    expectBool o .ifCondition cond
    framed (checkStmts o result yes)
    match no with
    | none => pure ()
    | some b => framed (checkStmts o result b)
  | .select span e arms => do
    let t ← infer o none e
    faults (exhaustivenessFault? span (arms.map Arm.head)).toList
    faults (unreachableArms (arms.map Arm.head))
    checkArms o result t arms
  | .eval e => do
    let _ ← infer o none e
  | .pass _ => pure ()

/-- Checks statements one after the other. -/
def checkStmts (o : CheckOptions) (result : Ty) : List Stmt → Working Unit
  | [] => pure ()
  | s :: rest => do
    checkStmt o result s
    checkStmts o result rest

/-- Checks the arms of a `match` statement, each on a frame of its own. -/
def checkArms (o : CheckOptions) (result scrutinee : Ty) :
    List (Arm Expr (List Stmt)) → Working Unit
  | [] => pure ()
  | ⟨_, p, g, body⟩ :: arms => do
    framed do
      checkPattern o scrutinee p
      match g with
      | none => pure ()
      | some g => expectBool o .matchGuard g
      framed (checkStmts o result body)
    checkArms o result scrutinee arms

end

end Working

end Statute
