import Statute.Check.Infer
import Statute.Match.Exclusivity

/-!
# Checking bodies

Statements, functions and principles. A block is checked in a frame of its own; a declaration adds
its name to the frame it stands in.
-/

namespace Statute

open Checking

/-- Checks a declaration and brings its name into scope. -/
def checkDeclaration (cx : Context) (scope : Scope) (d : Declaration) : Checking Scope := do
  let declared ← cx.resolve d.type
  expectValue cx scope declared d.value
  bindName cx scope d.name declared .variable

/-- Checks an assignment. -/
def checkAssign (cx : Context) (scope : Scope) (target : Ident) (value : Expr) : Checking Unit :=
  match scope.lookup target.name with
  | none => do
    fault (.assignUndeclared target.name) target.span
    let _ ← infer cx scope none value
  | some b => expectValue cx scope b.type value

mutual

/-- Checks a statement of a function that returns `result`, and gives the scope after it. -/
def checkStmt (cx : Context) (result : Ty) (scope : Scope) : Stmt → Checking Scope
  | .declare d => checkDeclaration cx scope d
  | .assign _ target value => do
    checkAssign cx scope target value
    return scope
  | .ret _ value => do
    expectValue cx scope result value
    return scope
  | .branch _ cond yes no => do
    expectBool cx scope .ifCondition cond
    checkStmts cx result scope.push yes
    match no with
    | none => pure ()
    | some b => checkStmts cx result scope.push b
    return scope
  | .select span e arms => do
    let t ← infer cx scope none e
    faults (exhaustivenessFault? span (arms.map Arm.head)).toList
    faults (unreachableArms (arms.map Arm.head))
    checkArms cx result scope t arms
    return scope
  | .eval e => do
    let _ ← infer cx scope none e
    return scope
  | .pass _ => pure scope

/-- Checks statements one after the other. -/
def checkStmts (cx : Context) (result : Ty) (scope : Scope) : List Stmt → Checking Unit
  | [] => pure ()
  | s :: rest => do
    let scope' ← checkStmt cx result scope s
    checkStmts cx result scope' rest

/-- Checks the arms of a `match` statement, each in a frame of its own. -/
def checkArms (cx : Context) (result : Ty) (scope : Scope) (scrutinee : Ty) :
    List (Arm Expr (List Stmt)) → Checking Unit
  | [] => pure ()
  | ⟨_, p, g, body⟩ :: arms => do
    let inside ← checkPattern cx scope.push scrutinee p
    match g with
    | none => pure ()
    | some g => expectBool cx inside .matchGuard g
    checkStmts cx result inside.push body
    checkArms cx result scope scrutinee arms

end

/-- Brings the parameters of a function into scope. -/
def bindParams (cx : Context) : Scope → List (Ident × Ty) → Checking Scope
  | scope, [] => pure scope
  | scope, (name, t) :: rest => do
    let scope' ← bindName cx scope name t .parameter
    bindParams cx scope' rest

/-- Checks the body of a function against its signature. Of several functions of one name only the
one whose signature was taken is checked. -/
def checkFunction (cx : Context) (scope : Scope) (f : FunctionDecl) : Checking Unit :=
  match cx.env.function? f.name.name with
  | none => pure ()
  | some sig =>
    if sig.span != f.span then pure ()
    else do
      let inner := { cx with typeParams := sig.typeParams }
      let inside ← bindParams inner scope.push
        ((f.params.map (·.name)).zip (sig.params.map (·.2)))
      checkStmts inner sig.result inside.push f.body
      if cx.options.exclusivity then
        match sig.result.core with
        | .enum name =>
          match cx.env.enum? name with
          | some info => if info.exclusive then faults (exclusivityFault? f.body info).toList
          | none => pure ()
        | _ => pure ()

/-- Checks that a principle is a statement. -/
def checkPrinciple (cx : Context) (scope : Scope) (p : Principle) : Checking Unit := do
  let t ← infer cx scope.push none p.body
  faultIf (!t.isBool) (.principleNotBool p.name.name t) p.body.span

mutual

/-- Checks the body of an item, and gives the scope after it. -/
def checkItem (cx : Context) (scope : Scope) : Item → Checking Scope
  | .value d => checkDeclaration cx scope d
  | .function f => do
    checkFunction cx scope f
    return scope
  | .principle p => do
    checkPrinciple cx scope p
    return scope
  | .scope _ _ items => do
    checkItems cx scope.push items
    return scope
  | .struct _ => pure scope
  | .enum _ => pure scope
  | .synonym _ => pure scope
  | .test _ => pure scope

/-- Checks the bodies of items one after the other. -/
def checkItems (cx : Context) (scope : Scope) : List Item → Checking Unit
  | [] => pure ()
  | i :: rest => do
    let scope' ← checkItem cx scope i
    checkItems cx scope' rest

end

end Statute
