import Statute.Logic.Term

/-!
# Vocabularies, forms and queries

A vocabulary declares sorts, functions and constants. A form is a lowered principle: a vocabulary,
what is assumed about its constants, and the formula itself. A query asks whether some
interpretation of a vocabulary makes all its assertions true.
-/

namespace Statute.Logic

/-- A declared sort. -/
inductive SortDecl where
  | free (name : String)
  | enum (name : String) (variants : List String)
  deriving DecidableEq, Repr, Inhabited

def SortDecl.name : SortDecl → String
  | .free n => n
  | .enum n _ => n

/-- A declared constant. -/
structure ConstDecl where
  symbol : String
  /-- The name as written in the principle. -/
  name : String
  sort : SmtSort
  /-- Limits that the declared type puts on the value. -/
  lower : Option Int := none
  upper : Option Int := none
  deriving DecidableEq, Repr, Inhabited

/-- A declared function. -/
structure FunDecl where
  name : String
  params : List SmtSort
  result : SmtSort
  deriving DecidableEq, Repr, Inhabited

/-- Declared sorts, functions and constants, each in order of declaration. -/
structure Vocabulary where
  sorts : List SortDecl := []
  functions : List FunDecl := []
  constants : List ConstDecl := []
  deriving DecidableEq, Repr, Inhabited

namespace Vocabulary

/-- Declares a sort, unless there is one of that name. -/
def addSort (v : Vocabulary) (d : SortDecl) : Vocabulary :=
  if v.sorts.any fun s => s.name == d.name then v else { v with sorts := v.sorts ++ [d] }

/-- The function of a name. -/
def function? (v : Vocabulary) (name : String) : Option FunDecl :=
  v.functions.find? fun f => f.name == name

/-- Declares a function, unless there is one of that name. -/
def addFunction (v : Vocabulary) (d : FunDecl) : Vocabulary :=
  if (v.function? d.name).isSome then v else { v with functions := v.functions ++ [d] }

/-- Declares a constant, unless there is one of that symbol. -/
def addConstant (v : Vocabulary) (d : ConstDecl) : Vocabulary :=
  if v.constants.any fun c => c.symbol == d.symbol then v
  else { v with constants := v.constants ++ [d] }

/-- The variants of a declared enum. -/
def variants? (v : Vocabulary) (sort : String) : Option (List String) :=
  v.sorts.findSome? fun
    | .enum n vs => if n == sort then some vs else none
    | .free _ => none

/-- The declaration of a sort as a command. -/
def sortCommand : SortDecl → Sexpr
  | .free n => .app "declare-sort" [.atom n, .atom "0"]
  | .enum n vs =>
    .app "declare-datatype"
      [.atom n, .list (vs.map fun v => .list [.atom (Term.constructor n v)])]

/-- The declaration of a function as a command. -/
def funCommand (f : FunDecl) : Sexpr :=
  .app "declare-fun"
    [.atom f.name, .list (f.params.map fun s => .atom s.text), .atom f.result.text]

/-- The declaration of a constant as a command. -/
def constCommand (c : ConstDecl) : Sexpr :=
  .app "declare-const" [.atom c.symbol, .atom c.sort.text]

/-- All declarations: sorts, then functions, then constants. -/
def commands (v : Vocabulary) : List Sexpr :=
  v.sorts.map sortCommand ++ v.functions.map funCommand ++ v.constants.map constCommand

end Vocabulary

/-- The command that asserts a term. -/
def assertCommand (t : Term) : Sexpr := .app "assert" [t.sexpr]

/-- Commands on a line each. -/
def scriptLines (commands : List Sexpr) : String :=
  String.join (commands.map fun c => c.text ++ "\n")

/-- A lowered principle. -/
structure Form where
  principle : String
  vocabulary : Vocabulary
  /-- What is assumed about the constants. -/
  assumptions : List Term
  formula : Term
  /-- Notes on names that hide outer ones. -/
  warnings : List String := []

/-- The form as a script, for auditing. -/
def Form.script (f : Form) : String :=
  "; principle " ++ f.principle ++ "\n" ++
    scriptLines
      (f.vocabulary.commands ++ f.assumptions.map assertCommand ++ [assertCommand f.formula])

/-- Is there an interpretation that makes all assertions true? -/
structure Query where
  vocabulary : Vocabulary
  assertions : List Term

/-- The query as a complete script for a solver. -/
def Query.script (q : Query) : String :=
  scriptLines (q.vocabulary.commands ++ q.assertions.map assertCommand) ++
    "(check-sat)\n(get-model)\n"

end Statute.Logic
