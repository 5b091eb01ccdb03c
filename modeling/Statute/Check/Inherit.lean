import Statute.Check.Declare

/-!
# Inheritance

A struct extends at most one other, which has to be declared before it, and no struct may come to
extend itself. A field may be declared only once along the chain. The condition of a field may read
nothing but the field itself.
-/

namespace Statute

open Checking

/-- The members of the loop at the end of a chain, from where it is entered, and that entry. -/
def Env.Chain.loop? (c : Env.Chain) : Option (Nat × List Nat) :=
  c.repeated.map fun id => (id, c.members.dropWhile (· != id))

/-- Reports each loop of parents once; `known` lists the members of reported loops. -/
def checkCycles (env : Env) : List Nat → List DeclaredStruct → Checking Unit
  | _, [] => pure ()
  | known, s :: rest =>
    match (env.chain s.id).loop? with
    | none => checkCycles env known rest
    | some (id, members) =>
      if members.any known.contains then checkCycles env known rest
      else do
        let span := ((env.def? id).map (·.span)).getD {}
        fault (.inheritanceCycle (env.nameOf id) ((members ++ [id]).map env.nameOf)) span
        checkCycles env (known ++ members) rest

/-- The chain of a struct loops. -/
def Env.loops (env : Env) (id : Nat) : Bool := (env.chain id).repeated.isSome

/-- The fields declared by the ancestors of a struct with the struct that declares each, the
farthest ancestor first. -/
def Env.inheritedOwners (env : Env) (id : Nat) : List (String × String) :=
  ((env.chain id).members.drop 1).reverse.flatMap fun a =>
    (env.ownFields a).map fun f => (f.name, f.owner)

/-- Reports fields that are declared already, given which struct declares which field. -/
def checkOwnFields (struct : String) : List (String × String) → List FieldDecl → Checking Unit
  | _, [] => pure ()
  | owners, f :: rest =>
    match owners.lookup f.name.name with
    | some owner => do
      fault (if owner == struct then .fieldRepeated struct f.name.name
        else .fieldInherited struct f.name.name owner) f.name.span
      checkOwnFields struct owners rest
    | none => checkOwnFields struct (owners ++ [(f.name.name, struct)]) rest

/-- Checks the parent of a struct and its fields against those inherited; a struct without parent
passes. -/
def checkParent (env : Env) (s : DeclaredStruct) : Checking Unit :=
  match env.parent? s.id with
  | none => pure ()
  | some pid => do
    faultIf (decide (s.id ≤ pid)) (.parentDeclaredLater s.decl.name.name (env.nameOf pid))
      ((s.decl.parent.map (·.span)).getD s.decl.span)
    checkOwnFields s.decl.name.name (env.inheritedOwners s.id) s.decl.fields

/-- Checks the condition of a field of type `t`. -/
def checkCondition (cx : Context) (f : FieldDecl) (t : Ty) : Checking Unit :=
  match f.condition with
  | none => pure ()
  | some condition =>
    match condition.freeNames.find? fun id => id.name != f.name.name with
    | some other => fault (.conditionReads f.name.name other.name) other.span
    | none => do
      let inside ← bindName cx (Scope.push {}) f.name t .variable
      let got ← infer cx inside none condition
      faultIf (!got.isBool) (.conditionNotBool f.name.name got) condition.span

/-- Checks the conditions of fields, given their types. -/
def checkConditions (cx : Context) : List FieldDecl → List Ty → Checking Unit
  | f :: fs, t :: ts => do
    checkCondition cx f t
    checkConditions cx fs ts
  | _, _ => pure ()

/-- Does something for each struct whose chain does not loop. -/
def forEachSound (env : Env) (act : DeclaredStruct → Checking Unit) :
    List DeclaredStruct → Checking Unit
  | [] => pure ()
  | s :: rest => do
    if env.loops s.id then pure () else act s
    forEachSound env act rest

/-- Checks parents, fields and field conditions of all structs. -/
def checkInheritance (cx : Context) (structs : List DeclaredStruct) : Checking Unit := do
  checkCycles cx.env [] structs
  forEachSound cx.env (checkParent cx.env) structs
  forEachSound cx.env
    (fun s => checkConditions cx s.decl.fields ((cx.env.ownFields s.id).map (·.type))) structs

end Statute
