import Statute.Program.Expr
import Statute.Types.Binding

/-!
# Declared types, legal tests and functions

The environment of a program: its type definitions in order of declaration, its legal tests and the
signatures of its functions. A definition is referred to by its place in that order. A struct may
extend another one; its effective fields are those of its ancestors, the farthest first, and then
its own.
-/

namespace Statute

/-- A field of a declared struct. -/
structure Field where
  name : String
  type : Ty
  span : Span
  /-- A condition on the field's own value, which it refers to by the field's name. -/
  condition : Option Expr
  /-- The struct that declares the field. -/
  owner : String

/-- A declared enum. -/
structure EnumInfo where
  name : String
  variants : List String
  /-- No path may lead to two of the variants. -/
  exclusive : Bool
  deriving DecidableEq, Repr, Inhabited

def EnumInfo.hasVariant (e : EnumInfo) (variant : String) : Bool := e.variants.contains variant

/-- What a type name stands for. -/
inductive TypeBody where
  | struct (parent : Option Nat) (fields : List Field)
  | enum (info : EnumInfo)
  /-- Another type; it is resolved at each use, where its parameters are known. -/
  | synonym (target : TypeExpr)

/-- A type definition. -/
structure TypeDef where
  name : String
  span : Span
  params : List String
  body : TypeBody

/-- A requirement of a legal test. -/
structure Requirement where
  name : String
  type : Ty
  span : Span

/-- A legal test: something passes it when it meets all the requirements. -/
structure LegalTest where
  name : String
  span : Span
  requirements : List Requirement

/-- The names of the requirements in order of declaration. -/
def LegalTest.requirementNames (t : LegalTest) : List String := t.requirements.map (·.name)

/-- The type of a function. -/
structure Signature where
  name : String
  span : Span
  typeParams : List String
  params : List (String × Ty)
  result : Ty

/-- The declarations of a program. -/
structure Env where
  defs : List TypeDef := []
  tests : List LegalTest := []
  functions : List Signature := []

namespace Env

/-- Number of type definitions. -/
def size (env : Env) : Nat := env.defs.length

def isEmpty (env : Env) : Bool := env.defs.isEmpty

/-- The place of the definition of a name. -/
def idOf? (env : Env) (name : String) : Option Nat := env.defs.findIdx? fun d => d.name == name

/-- The definition at a place. -/
def def? (env : Env) (id : Nat) : Option TypeDef := env.defs[id]?

/-- The definition of a name. -/
def lookup (env : Env) (name : String) : Option TypeDef :=
  env.defs.find? fun d => d.name == name

/-- Adds a definition at the end. A name that is already defined keeps its definition: then its
place is the error. -/
def declare (env : Env) (d : TypeDef) : Except Nat (Nat × Env) :=
  match env.idOf? d.name with
  | some id => .error id
  | none => .ok (env.size, { env with defs := env.defs ++ [d] })

/-- The name of the definition at a place. -/
def nameOf (env : Env) (id : Nat) : String := ((env.def? id).map (·.name)).getD ""

/-- The parent and the own fields of the struct at a place. -/
def struct? (env : Env) (id : Nat) : Option (Option Nat × List Field) :=
  match env.def? id with
  | some { body := .struct parent fields, .. } => some (parent, fields)
  | _ => none

/-- The enum of a name. -/
def enum? (env : Env) (name : String) : Option EnumInfo :=
  match env.lookup name with
  | some { body := .enum info, .. } => some info
  | _ => none

/-- The place of the struct of a name. -/
def structId? (env : Env) (name : String) : Option Nat :=
  (env.idOf? name).filter fun id => (env.struct? id).isSome

def isStruct (env : Env) (name : String) : Bool := (env.structId? name).isSome

/-- The parent of the struct at a place. -/
def parent? (env : Env) (id : Nat) : Option Nat := (env.struct? id).bind (·.1)

/-- The own fields of the struct at a place. -/
def ownFields (env : Env) (id : Nat) : List Field := ((env.struct? id).map (·.2)).getD []

/-- Changes the definition at a place. -/
def modify (env : Env) (id : Nat) (f : TypeDef → TypeDef) : Env :=
  { env with defs := env.defs.modify id f }

/-- Makes a struct extend another definition; other definitions have no parent. -/
def setParent (env : Env) (child parent : Nat) : Env :=
  env.modify child fun d =>
    match d.body with
    | .struct _ fields => { d with body := .struct (some parent) fields }
    | _ => d

/-- Gives a struct its fields. -/
def setFields (env : Env) (id : Nat) (fields : List Field) : Env :=
  env.modify id fun d =>
    match d.body with
    | .struct parent _ => { d with body := .struct parent fields }
    | _ => d

/-- An inheritance chain from a struct upwards. -/
structure Chain where
  /-- The struct and its ancestors, nearest first, each once. -/
  members : List Nat
  /-- The member that the chain comes back to, if it loops. -/
  repeated : Option Nat
  deriving DecidableEq, Repr, Inhabited

/-- Follows the parents from `next`, after `members`, until there is none or one comes again. As
many steps as there are definitions, and one to notice a loop, are enough. -/
def climb (env : Env) : Nat → List Nat → Option Nat → Chain
  | _, members, none => ⟨members, none⟩
  | 0, members, some _ => ⟨members, none⟩
  | steps + 1, members, some id =>
    if members.contains id then ⟨members, some id⟩
    else env.climb steps (members ++ [id]) (env.parent? id)

/-- The inheritance chain of the struct at a place. -/
def chain (env : Env) (id : Nat) : Chain := env.climb (env.size + 1) [] (some id)

/-- The fields of the ancestors, the farthest first, and then the own fields. -/
def effectiveFields (env : Env) (id : Nat) : List Field :=
  (env.chain id).members.reverse.flatMap env.ownFields

/-- The type of a field, own or inherited, of a struct with the given type arguments. Of two fields
of one name the one declared nearer to the struct counts. -/
def fieldType? (env : Env) (struct : String) (args : List Ty) (field : String) : Option Ty := do
  let id ← env.idOf? struct
  let d ← env.def? id
  let f ← (env.effectiveFields id).reverse.find? fun f => f.name == field
  return (Binding.ofLists d.params args).apply f.type

/-- `child` is `ancestor` or extends it, directly or through others. -/
def isSubtype (env : Env) (child ancestor : String) : Bool :=
  match env.idOf? child, env.idOf? ancestor with
  | some c, some a => (env.chain c).members.contains a
  | _, _ => false

/-- The wrong number of type arguments. -/
structure Arity where
  expected : Nat
  got : Nat
  deriving DecidableEq, Repr

/-- The binding of a type's parameters to arguments. A name without definition has no parameters
and takes any arguments. -/
def instantiate (env : Env) (name : String) (args : List Ty) : Except Arity Binding :=
  match env.lookup name with
  | none => .ok {}
  | some d =>
    if d.params.length == args.length then .ok (Binding.ofLists d.params args)
    else .error ⟨d.params.length, args.length⟩

/-- The legal test of a name. -/
def test? (env : Env) (name : String) : Option LegalTest :=
  env.tests.find? fun t => t.name == name

/-- Adds a legal test, unless there is one of that name. -/
def addTest (env : Env) (t : LegalTest) : Option Env :=
  if (env.test? t.name).isSome then none else some { env with tests := env.tests ++ [t] }

/-- The legal tests in the order of their names. -/
def sortedTests (env : Env) : List LegalTest :=
  env.tests.mergeSort fun a b => a.name ≤ b.name

/-- The signature of the function of a name. -/
def function? (env : Env) (name : String) : Option Signature :=
  env.functions.find? fun f => f.name == name

/-- Adds a function, unless there is one of that name. -/
def addFunction (env : Env) (f : Signature) : Option Env :=
  if (env.function? f.name).isSome then none
  else some { env with functions := env.functions ++ [f] }

end Env

end Statute
