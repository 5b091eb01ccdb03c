import Statute.Check.Program
import Statute.NameMap

/-!
# Conflicts between programs

Two programs conflict when a struct, an enum or a legal test of one name is declared differently in
them, or when a name is a struct in one and an enum in the other. Aliases do not take part.
-/

namespace Statute

/-- What a conflict is about, in the order in which conflicts are listed. -/
inductive ConflictKind where
  | struct
  | enum
  | legalTest
  deriving DecidableEq, Repr, Inhabited

namespace ConflictKind

def text : ConflictKind → String
  | .struct => "struct"
  | .enum => "enum"
  | .legalTest => "legal test"

/-- The kind with its article. -/
def described : ConflictKind → String
  | .enum => "an enum"
  | k => "a " ++ k.text

end ConflictKind

/-- A name declared differently in two programs. -/
structure Conflict where
  kind : ConflictKind
  name : String
  first : Span
  second : Span
  description : String
  deriving DecidableEq, Repr

/-- The conflict as a finding in the first program. -/
def Conflict.finding (c : Conflict) : Finding := ⟨.conflict c.name c.description, c.first⟩

/-- The conflicts between two programs, which are called by their labels. -/
structure ConflictReport where
  first : String
  second : String
  conflicts : List Conflict
  deriving DecidableEq, Repr

/-- What is compared of a declaration: the texts of its parts. -/
structure DeclaredShape where
  span : Span
  members : List String
  deriving DecidableEq, Repr

/-- A name and its type. -/
def typedText (name : String) (t : Ty) : String := name ++ ": " ++ t.text

/-- The shape of a struct: type parameters, parent and fields. -/
def structShape (env : Env) (d : TypeDef) (parent : Option Nat) (fields : List Field) :
    DeclaredShape :=
  ⟨d.span,
    (if d.params.isEmpty then [] else ["<" ++ ", ".intercalate d.params ++ ">"]) ++
      (parent.map fun p => "extends " ++ env.nameOf p).toList ++
      fields.map fun f => typedText f.name f.type⟩

/-- The structs of a program by name. -/
def structShapes (env : Env) : NameMap DeclaredShape :=
  NameMap.ofList (env.defs.filterMap fun d =>
    match d.body with
    | .struct parent fields => some (d.name, structShape env d parent fields)
    | _ => none)

/-- The enums of a program by name. -/
def enumShapes (env : Env) : NameMap DeclaredShape :=
  NameMap.ofList (env.defs.filterMap fun d =>
    match d.body with
    | .enum info => some (d.name, ⟨d.span, info.variants⟩)
    | _ => none)

/-- The legal tests of a program by name. -/
def testShapes (env : Env) : NameMap DeclaredShape :=
  NameMap.ofList (env.tests.map fun t =>
    (t.name, ⟨t.span, t.requirements.map fun r => typedText r.name r.type⟩))

/-- The names of one kind that two programs declare differently. -/
def differing (kind : ConflictKind) (first second : String) (a b : NameMap DeclaredShape) :
    List Conflict :=
  a.entries.filterMap fun (name, x) => do
    let y ← b.get? name
    if x.members == y.members then none
    else
      let has (label : String) (s : DeclaredShape) : String :=
        label ++ " has [" ++ ", ".intercalate s.members ++ "]"
      some ⟨kind, name, x.span, y.span,
        s!"{kind.text} `{name}` is declared differently: " ++ has first x ++ ", " ++ has second y⟩

/-- The names that are of kind `ka` in the first program and of kind `kb` in the second. Such a
conflict counts as one of structs. -/
def crossing (ka kb : ConflictKind) (first second : String) (a b : NameMap DeclaredShape) :
    List Conflict :=
  a.entries.filterMap fun (name, x) => do
    let y ← b.get? name
    some ⟨.struct, name, x.span, y.span,
      s!"`{name}` is declared as {ka.described} in {first} but as {kb.described} in {second}"⟩

/-- The conflicts between two environments. -/
def conflictsBetween (first second : String) (a b : Env) : List Conflict :=
  differing .struct first second (structShapes a) (structShapes b) ++
    differing .enum first second (enumShapes a) (enumShapes b) ++
    differing .legalTest first second (testShapes a) (testShapes b) ++
    crossing .struct .enum first second (structShapes a) (enumShapes b) ++
    crossing .enum .struct first second (enumShapes a) (structShapes b)

/-- The report on two programs under the given labels, if they conflict. -/
def compareAs (first second : String) (a b : CheckedProgram) : Option ConflictReport :=
  match conflictsBetween first second a.env b.env with
  | [] => none
  | conflicts => some ⟨first, second, conflicts⟩

/-- The report on two programs under their names, if they conflict. -/
def conflictReport? (a b : CheckedProgram) : Option ConflictReport :=
  compareAs a.program.name b.program.name a b

/-- The pairs of different members of a list, in order. -/
def pairs {α : Type} : List α → List (α × α)
  | [] => []
  | a :: rest => rest.map (fun b => (a, b)) ++ pairs rest

/-- Checked programs by file. -/
structure Registry where
  programs : NameMap CheckedProgram := {}

namespace Registry

/-- Adds a program, in place of an earlier one of the same file. -/
def add (r : Registry) (file : String) (p : CheckedProgram) : Registry :=
  ⟨r.programs.insert file p⟩

def size (r : Registry) : Nat := r.programs.size

def isEmpty (r : Registry) : Bool := r.programs.isEmpty

/-- The report on two files, if both are known and conflict. -/
def checkPair (r : Registry) (a b : String) : Option ConflictReport := do
  let x ← r.programs.get? a
  let y ← r.programs.get? b
  compareAs a b x y

/-- The reports on all pairs of files that conflict, in order of the files. -/
def checkAll (r : Registry) : List ConflictReport :=
  (pairs r.programs.entries).filterMap fun (a, b) => compareAs a.1 b.1 a.2 b.2

end Registry

end Statute
