import Statute.Program.Expr

/-!
# Programs

A program is a named list of items: type declarations, legal tests, principles, functions, named
values and nested scopes.
-/

namespace Statute

/-- A named value with its declared type. -/
structure Declaration where
  span : Span
  name : Ident
  type : TypeExpr
  value : Expr

/-- A statement of a function body. A block is a list of statements. -/
inductive Stmt where
  | declare (d : Declaration)
  | assign (span : Span) (target : Ident) (value : Expr)
  | ret (span : Span) (value : Expr)
  | branch (span : Span) (cond : Expr) (yes : List Stmt) (no : Option (List Stmt))
  | select (span : Span) (scrutinee : Expr) (arms : List (Arm Expr (List Stmt)))
  | eval (e : Expr)
  | pass (span : Span)

/-- A field of a struct, with an optional condition on its own value. -/
structure FieldDecl where
  span : Span
  name : Ident
  type : TypeExpr
  condition : Option Expr

structure StructDecl where
  span : Span
  name : Ident
  params : List Ident
  parent : Option Ident
  fields : List FieldDecl

structure EnumDecl where
  span : Span
  name : Ident
  variants : List Ident
  /-- No path may lead to two of the variants. -/
  exclusive : Bool

structure AliasDecl where
  span : Span
  name : Ident
  params : List Ident
  target : TypeExpr

/-- A name with a type: a requirement of a legal test or a parameter of a function. -/
structure TypedName where
  span : Span
  name : Ident
  type : TypeExpr

structure TestDecl where
  span : Span
  name : Ident
  requirements : List TypedName

/-- A statement about the law, to be verified. -/
structure Principle where
  span : Span
  name : Ident
  body : Expr

structure FunctionDecl where
  span : Span
  name : Ident
  typeParams : List Ident
  params : List TypedName
  result : TypeExpr
  body : List Stmt

/-- An item of a program. -/
inductive Item where
  | struct (d : StructDecl)
  | enum (d : EnumDecl)
  | synonym (d : AliasDecl)
  | test (d : TestDecl)
  | principle (d : Principle)
  | function (d : FunctionDecl)
  | value (d : Declaration)
  | scope (span : Span) (name : Ident) (items : List Item)

namespace Item

def span : Item → Span
  | struct d => d.span
  | enum d => d.span
  | synonym d => d.span
  | test d => d.span
  | principle d => d.span
  | function d => d.span
  | value d => d.span
  | scope s _ _ => s

def name : Item → Ident
  | struct d => d.name
  | enum d => d.name
  | synonym d => d.name
  | test d => d.name
  | principle d => d.name
  | function d => d.name
  | value d => d.name
  | scope _ n _ => n

mutual

/-- The item itself, or the items of a scope at any depth, in order. -/
def leaves : Item → List Item
  | .scope _ _ items => leavesOf items
  | .struct d => [.struct d]
  | .enum d => [.enum d]
  | .synonym d => [.synonym d]
  | .test d => [.test d]
  | .principle d => [.principle d]
  | .function d => [.function d]
  | .value d => [.value d]

/-- All items but scopes, at any depth, in order. -/
def leavesOf : List Item → List Item
  | [] => []
  | i :: is => i.leaves ++ leavesOf is

end

end Item

/-- A program, named after the text it was read from. -/
structure Program where
  name : String
  items : List Item

namespace Program

/-- The items at any depth, in order of declaration. -/
def leaves (p : Program) : List Item := Item.leavesOf p.items

/-- The principles at any depth, in order of declaration. -/
def principles (p : Program) : List Principle :=
  p.leaves.filterMap fun
    | .principle d => some d
    | _ => none

/-- The named values at any depth, in order of declaration. -/
def values (p : Program) : List Declaration :=
  p.leaves.filterMap fun
    | .value d => some d
    | _ => none

/-- The functions at any depth, in order of declaration. -/
def functions (p : Program) : List FunctionDecl :=
  p.leaves.filterMap fun
    | .function d => some d
    | _ => none

/-- The first principle of this name. -/
def principle? (p : Program) (name : String) : Option Principle :=
  p.principles.find? fun d => d.name.name == name

end Program

end Statute
