import Statute.Proofs.Check.Formed

/-!
# Where values are put

A value is put where a type is declared: by a declaration, an assignment, a return or a field of a
struct literal. `Program.placements` lists these in the order in which a program is checked, each
with its type as it is resolved there, whether the program is accepted or not.

If the value is a constant it is held against the constraints of the type.
-/

namespace Statute

open Checking

/-- A value that is put where a type is declared. -/
structure Placement where
  declared : Ty
  value : Expr

/-- What is wrong with the value if it is a constant. -/
def Placement.faults (p : Placement) : List Finding := constantFaults p.declared p.value

/-!
## All placements
-/

mutual

/-- The placements inside an expression: the fields of struct literals. -/
def placements (cx : Context) (scope : Scope) (want : Option Ty) : Expr → List Placement
  | .literal _ _ => []
  | .name _ _ => []
  | .variant _ _ _ => []
  | .unary _ _ e => placements cx scope none e
  | .binary _ _ l r => placements cx scope none l ++ placements cx scope none r
  | .member _ base _ => placements cx scope none base
  | .call _ _ args => argsPlacements cx scope args
  | .record _ type fields =>
    match recordShape? cx.env type.name with
    | none => valuesPlacements cx scope fields
    | some shape => fieldsPlacements cx scope shape (shape.expectedBinding want) [] fields
  | .select _ _ e arms =>
    placements cx scope none e ++
      armsPlacements cx scope want (infer cx scope none e).value arms
  | .satisfies _ e _ => placements cx scope none e
  | .quantified _ _ var type body =>
    placements cx (bindName cx scope.push var (cx.resolve type).value .quantified).value none body

def argsPlacements (cx : Context) (scope : Scope) : List Expr → List Placement
  | [] => []
  | e :: es => placements cx scope none e ++ argsPlacements cx scope es

def valuesPlacements (cx : Context) (scope : Scope) : List (Ident × Expr) → List Placement
  | [] => []
  | (_, e) :: fs => placements cx scope none e ++ valuesPlacements cx scope fs

/-- A field is given once; its type is the declared one with what is known about the parameters. -/
def fieldsPlacements (cx : Context) (scope : Scope) (s : RecordShape) (b : Binding)
    (given : List String) : List (Ident × Expr) → List Placement
  | [] => []
  | (name, e) :: fs =>
    if given.contains name.name then fieldsPlacements cx scope s b given fs
    else
      match s.field? name.name with
      | none =>
        placements cx scope none e ++ fieldsPlacements cx scope s b (given ++ [name.name]) fs
      | some f =>
        placements cx scope (some (b.apply f.type)) e ++
          ⟨b.apply f.type, e⟩ ::
            fieldsPlacements cx scope s
              (fieldBinding cx s b (b.apply f.type)
                (infer cx scope (some (b.apply f.type)) e).value e.span).value
              (given ++ [name.name]) fs

def armsPlacements (cx : Context) (scope : Scope) (want : Option Ty) (scrutinee : Ty) :
    List (Arm Expr Expr) → List Placement
  | [] => []
  | ⟨_, p, none, body⟩ :: arms =>
    placements cx (checkPattern cx scope.push scrutinee p).value want body ++
      armsPlacements cx scope want scrutinee arms
  | ⟨_, p, some g, body⟩ :: arms =>
    placements cx (checkPattern cx scope.push scrutinee p).value none g ++
      (placements cx (checkPattern cx scope.push scrutinee p).value want body ++
        armsPlacements cx scope want scrutinee arms)

end

/-- A value with the placements inside it, which come first. -/
def valuePlacements (cx : Context) (scope : Scope) (declared : Ty) (e : Expr) : List Placement :=
  placements cx scope (some declared) e ++ [⟨declared, e⟩]

def declarationPlacements (cx : Context) (scope : Scope) (d : Declaration) : List Placement :=
  valuePlacements cx scope (cx.resolve d.type).value d.value

def assignPlacements (cx : Context) (scope : Scope) (target : Ident) (value : Expr) :
    List Placement :=
  match scope.lookup target.name with
  | none => placements cx scope none value
  | some b => valuePlacements cx scope b.type value

mutual

/-- The placements of a statement of a function that returns `result`. -/
def stmtPlacements (cx : Context) (result : Ty) (scope : Scope) : Stmt → List Placement
  | .declare d => declarationPlacements cx scope d
  | .assign _ target value => assignPlacements cx scope target value
  | .ret _ value => valuePlacements cx scope result value
  | .branch _ cond yes no =>
    placements cx scope none cond ++
      (stmtsPlacements cx result scope.push yes ++
        match no with
        | none => []
        | some b => stmtsPlacements cx result scope.push b)
  | .select _ e arms =>
    placements cx scope none e ++
      blocksPlacements cx result scope (infer cx scope none e).value arms
  | .eval e => placements cx scope none e
  | .pass _ => []

def stmtsPlacements (cx : Context) (result : Ty) (scope : Scope) : List Stmt → List Placement
  | [] => []
  | s :: rest =>
    stmtPlacements cx result scope s ++
      stmtsPlacements cx result (checkStmt cx result scope s).value rest

def blocksPlacements (cx : Context) (result : Ty) (scope : Scope) (scrutinee : Ty) :
    List (Arm Expr (List Stmt)) → List Placement
  | [] => []
  | ⟨_, p, g, body⟩ :: arms =>
    (match g with
      | none => []
      | some g => placements cx (checkPattern cx scope.push scrutinee p).value none g) ++
      (stmtsPlacements cx result (checkPattern cx scope.push scrutinee p).value.push body ++
        blocksPlacements cx result scope scrutinee arms)

end

/-- The placements of a function; of several of one name only the one that is taken has any. -/
def functionPlacements (cx : Context) (scope : Scope) (f : FunctionDecl) : List Placement :=
  match cx.env.function? f.name.name with
  | none => []
  | some sig =>
    if sig.span != f.span then []
    else
      stmtsPlacements { cx with typeParams := sig.typeParams } sig.result
        (bindParams { cx with typeParams := sig.typeParams } scope.push
          ((f.params.map (·.name)).zip (sig.params.map (·.2)))).value.push f.body

mutual

def itemPlacements (cx : Context) (scope : Scope) : Item → List Placement
  | .value d => declarationPlacements cx scope d
  | .function f => functionPlacements cx scope f
  | .principle p => placements cx scope.push none p.body
  | .scope _ _ items => itemsPlacements cx scope.push items
  | .struct _ => []
  | .enum _ => []
  | .synonym _ => []
  | .test _ => []

def itemsPlacements (cx : Context) (scope : Scope) : List Item → List Placement
  | [] => []
  | i :: rest =>
    itemPlacements cx scope i ++ itemsPlacements cx (checkItem cx scope i).value rest

end

/-- The placements in the condition of a field of type `t`. -/
def conditionPlacements (cx : Context) (f : FieldDecl) (t : Ty) : List Placement :=
  match f.condition with
  | none => []
  | some condition =>
    match condition.freeNames.find? fun id => id.name != f.name.name with
    | some _ => []
    | none => placements cx (bindName cx (Scope.push {}) f.name t .variable).value none condition

def conditionsPlacements (cx : Context) : List FieldDecl → List Ty → List Placement
  | f :: fs, t :: ts => conditionPlacements cx f t ++ conditionsPlacements cx fs ts
  | _, _ => []

def structsPlacements (cx : Context) : List DeclaredStruct → List Placement
  | [] => []
  | s :: rest =>
    (if cx.env.loops s.id then []
      else conditionsPlacements cx s.decl.fields ((cx.env.ownFields s.id).map (·.type))) ++
      structsPlacements cx rest

/-- All placements of the program. -/
def Program.placements (p : Program) (options : CheckOptions) : List Placement :=
  structsPlacements ⟨p.typed, options, []⟩ p.placed ++
    itemsPlacements ⟨p.declared, options, []⟩ {} p.items

end Statute
