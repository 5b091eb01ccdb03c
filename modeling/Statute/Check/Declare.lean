import Statute.Check.Infer
import Statute.Program.Item

/-!
# Collecting declarations

Before any body is checked, the declarations of a program are gathered: first the names of types,
then the fields and parents of structs, then legal tests and the signatures of functions. Items
inside scopes count like all others.
-/

namespace Statute

open Checking

/-- Adds a type definition unless its name is taken, and gives its place. -/
def declareType (env : Env) (d : TypeDef) (span : Span) : Checking (Env × Option Nat) :=
  if (Prim.ofName? d.name).isSome then do
    fault (.builtinRedefined d.name) span
    return (env, none)
  else
    match env.declare d with
    | .ok (id, env') => pure (env', some id)
    | .error _ => do
      fault (.typeRedefined d.name) span
      return (env, none)

/-- Reports variants that occur again, given those that came before. -/
def checkVariants (enum : String) : List String → List Ident → Checking Unit
  | _, [] => pure ()
  | seen, v :: rest => do
    faultIf (seen.contains v.name) (.variantRepeated enum v.name) v.span
    checkVariants enum (seen ++ [v.name]) rest

/-- A struct of the program and the place of its definition. -/
structure DeclaredStruct where
  id : Nat
  decl : StructDecl

/-- Collects the type names of items; structs get their fields later. -/
def collectTypes : Env → List Item → Checking (Env × List DeclaredStruct)
  | env, [] => pure (env, [])
  | env, .struct s :: rest => do
    let (env', id?) ← declareType env
      ⟨s.name.name, s.span, s.params.map (·.name), .struct none []⟩ s.name.span
    let (env'', structs) ← collectTypes env' rest
    return (env'', (id?.map fun id => ⟨id, s⟩).toList ++ structs)
  | env, .enum e :: rest => do
    checkVariants e.name.name [] e.variants
    let (env', _) ← declareType env
      ⟨e.name.name, e.span, [], .enum ⟨e.name.name, e.variants.map (·.name), e.exclusive⟩⟩
      e.name.span
    collectTypes env' rest
  | env, .synonym a :: rest => do
    let (env', _) ← declareType env
      ⟨a.name.name, a.span, a.params.map (·.name), .synonym a.target⟩ a.name.span
    collectTypes env' rest
  | env, _ :: rest => collectTypes env rest

/-- Resolves the fields of a struct. -/
def resolveFields (env : Env) (owner : String) (params : List String) :
    List FieldDecl → Checking (List Field)
  | [] => pure []
  | f :: rest => do
    let t ← resolve env [] params f.type
    let fs ← resolveFields env owner params rest
    return ⟨f.name.name, t, f.span, f.condition, owner⟩ :: fs

/-- Sets the parent of a struct, which has to be a struct without type parameters. -/
def linkParent (env : Env) (s : DeclaredStruct) : Checking Env :=
  match s.decl.parent with
  | none => pure env
  | some parent =>
    match env.structId? parent.name with
    | none => do
      fault (.unknownParent s.decl.name.name parent.name) parent.span
      return env
    | some pid => do
      let params := ((env.def? pid).map (·.params.length)).getD 0
      faultIf (params != 0) (.genericParent parent.name params) parent.span
      return env.setParent s.id pid

/-- Gives the structs their fields and parents. -/
def resolveStructs : Env → List DeclaredStruct → Checking Env
  | env, [] => pure env
  | env, s :: rest => do
    let fields ← resolveFields env s.decl.name.name (s.decl.params.map (·.name)) s.decl.fields
    let env' ← linkParent (env.setFields s.id fields) s
    resolveStructs env' rest

/-- What is wrong with the requirements of a legal test, given the names that came before: they have
to be distinct and to be truth values. -/
def requirementFaults (test : String) : List String → List Requirement → List Finding
  | _, [] => []
  | seen, r :: rest =>
    (if seen.contains r.name then [⟨.requirementRepeated test r.name, r.span⟩] else []) ++
      (if r.type.isBool then [] else [⟨.requirementNotBool test r.name r.type, r.span⟩]) ++
      requirementFaults test (seen ++ [r.name]) rest

/-- What is wrong with a legal test. -/
def LegalTest.faults (t : LegalTest) : List Finding := requirementFaults t.name [] t.requirements

/-- Resolves the requirements of a legal test. -/
def resolveRequirements (env : Env) : List TypedName → Checking (List Requirement)
  | [] => pure []
  | r :: rest => do
    let t ← resolve env [] [] r.type
    let rs ← resolveRequirements env rest
    return ⟨r.name.name, t, r.span⟩ :: rs

/-- Collects a legal test. -/
def collectTest (env : Env) (d : TestDecl) : Checking Env := do
  let requirements ← resolveRequirements env d.requirements
  let test : LegalTest := ⟨d.name.name, d.span, requirements⟩
  faults test.faults
  match env.addTest test with
  | some env' => return env'
  | none =>
    fault (.testRedefined d.name.name) d.name.span
    return env

/-- Resolves the parameters of a function. -/
def resolveParams (env : Env) (typeParams : List String) :
    List TypedName → Checking (List (String × Ty))
  | [] => pure []
  | p :: rest => do
    let t ← resolve env [] typeParams p.type
    let ps ← resolveParams env typeParams rest
    return (p.name.name, t) :: ps

/-- Collects the signature of a function. -/
def collectFunction (env : Env) (d : FunctionDecl) : Checking Env := do
  let typeParams := d.typeParams.map (·.name)
  let params ← resolveParams env typeParams d.params
  let result ← resolve env [] typeParams d.result
  match env.addFunction ⟨d.name.name, d.span, typeParams, params, result⟩ with
  | some env' => return env'
  | none =>
    fault (.functionRedefined d.name.name) d.name.span
    return env

/-- Reports what is wrong with the target of an alias, used or not. -/
def checkAlias (env : Env) (d : AliasDecl) : Checking Unit := do
  let _ ← resolveIn env [] env.size [d.name.name] (d.params.map (·.name)) d.target

/-- Collects legal tests and functions, and looks at the targets of aliases. -/
def collectSignatures : Env → List Item → Checking Env
  | env, [] => pure env
  | env, .test d :: rest => do
    let env' ← collectTest env d
    collectSignatures env' rest
  | env, .function d :: rest => do
    let env' ← collectFunction env d
    collectSignatures env' rest
  | env, .synonym d :: rest => do
    checkAlias env d
    collectSignatures env rest
  | env, _ :: rest => collectSignatures env rest

end Statute
