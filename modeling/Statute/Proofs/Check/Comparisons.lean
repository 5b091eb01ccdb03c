import Statute.Proofs.Check.Placements

/-!
# The comparisons that checking makes

Wherever a value is put where a type is asked for, the two types are compared: the value of a
declaration, an assignment or a return, the argument of a call, the field of a struct literal, the
body of an arm and a variant in a pattern. `Program.comparisons` lists the comparisons made when a
program is checked, whether it is accepted or not, with the types that inference finds.

`Compares env x cs ps Q` says that the check `x` makes the comparisons `cs`, holds the constants at
the placements `ps` against the constraints there, and gives something that satisfies `Q`: what does
not fit is reported, whatever else is found. What steps that follow one another compare is put one
after the other, `Compares.bind`.
-/

namespace Statute

open Checking

/-- A type that is asked for, and the type of a value that is put there. -/
structure TypeComparison where
  expected : Ty
  got : Ty
  span : Span

/-- What is reported if the value does not fit. -/
def TypeComparison.finding (c : TypeComparison) : Finding := ⟨.mismatch c.expected c.got, c.span⟩

/-!
## Where types are compared
-/

/-- The type parameter of a function that takes the type of an argument for a parameter of type
`p`: it has none yet. -/
def argTaker? (typeParams : List String) (b : Binding) : Ty → Option String
  | .var v => if typeParams.contains v && (b.get? v).isNone then some v else none
  | _ => none

/-- Comparisons of arguments with parameters. -/
def argComparisons (typeParams : List String) :
    Binding → List Ty → List (Ty × Span) → List TypeComparison
  | b, p :: params, (a, span) :: args =>
    match argTaker? typeParams b p with
    | some v => argComparisons typeParams (b.bind v a) params args
    | none => ⟨b.apply p, a, span⟩ :: argComparisons typeParams b params args
  | _, _, _ => []

def callComparisons (env : Env) (callee : Ident) (args : List (Ty × Span)) : List TypeComparison :=
  match env.function? callee.name with
  | none => []
  | some f =>
    if f.params.length != args.length then []
    else argComparisons f.typeParams {} (f.params.map (·.2)) args

def patternComparisons (env : Env) (scrutinee : Ty) : Pattern → List TypeComparison
  | .variant span type variant => [⟨scrutinee, (variantType env type variant span).value, span⟩]
  | _ => []

/-- Comparisons of later arms with the first that is known. -/
def joinComparisons (result : Ty) : List (Ty × Span) → List TypeComparison
  | [] => []
  | (t, span) :: rest =>
    if result.isUnknown then joinComparisons t rest
    else ⟨result, t, span⟩ :: joinComparisons result rest

/-- The type parameter of a struct that takes the type of the value for a field of type `want`. -/
def RecordShape.taker? (s : RecordShape) : Ty → Option String
  | .var v => if s.params.contains v then some v else none
  | _ => none

/-- The comparison of the value for a field. -/
def fieldComparisons (s : RecordShape) (want got : Ty) (span : Span) : List TypeComparison :=
  match s.taker? want with
  | some _ => []
  | none => [⟨want, got, span⟩]

mutual

/-- The comparisons made when the type of an expression is inferred. -/
def comparisons (cx : Context) (scope : Scope) (want : Option Ty) : Expr → List TypeComparison
  | .literal _ _ => []
  | .name _ _ => []
  | .variant _ _ _ => []
  | .unary _ _ e => comparisons cx scope none e
  | .binary _ _ l r => comparisons cx scope none l ++ comparisons cx scope none r
  | .member _ base _ => comparisons cx scope none base
  | .call _ callee args =>
    argsComparisons cx scope args ++
      callComparisons cx.env callee (inferArgs cx scope args).value
  | .record _ type fields =>
    match recordShape? cx.env type.name with
    | none => valuesComparisons cx scope fields
    | some shape => fieldsComparisons cx scope shape (shape.expectedBinding want) [] fields
  | .select _ _ e arms =>
    comparisons cx scope none e ++
      (armsComparisons cx scope want (infer cx scope none e).value arms ++
        joinComparisons .unknown
          (inferArms cx scope want (infer cx scope none e).value arms).value)
  | .satisfies _ e _ => comparisons cx scope none e
  | .quantified _ _ var type body =>
    comparisons cx (bindName cx scope.push var (cx.resolve type).value .quantified).value none body

def argsComparisons (cx : Context) (scope : Scope) : List Expr → List TypeComparison
  | [] => []
  | e :: es => comparisons cx scope none e ++ argsComparisons cx scope es

def valuesComparisons (cx : Context) (scope : Scope) : List (Ident × Expr) → List TypeComparison
  | [] => []
  | (_, e) :: fs => comparisons cx scope none e ++ valuesComparisons cx scope fs

def fieldsComparisons (cx : Context) (scope : Scope) (s : RecordShape) (b : Binding)
    (given : List String) : List (Ident × Expr) → List TypeComparison
  | [] => []
  | (name, e) :: fs =>
    if given.contains name.name then fieldsComparisons cx scope s b given fs
    else
      match s.field? name.name with
      | none =>
        comparisons cx scope none e ++
          fieldsComparisons cx scope s b (given ++ [name.name]) fs
      | some f =>
        comparisons cx scope (some (b.apply f.type)) e ++
          (fieldComparisons s (b.apply f.type) (infer cx scope (some (b.apply f.type)) e).value
              e.span ++
            fieldsComparisons cx scope s
              (fieldBinding cx s b (b.apply f.type)
                (infer cx scope (some (b.apply f.type)) e).value e.span).value
              (given ++ [name.name]) fs)

def armsComparisons (cx : Context) (scope : Scope) (want : Option Ty) (scrutinee : Ty) :
    List (Arm Expr Expr) → List TypeComparison
  | [] => []
  | ⟨_, p, none, body⟩ :: arms =>
    patternComparisons cx.env scrutinee p ++
      (comparisons cx (checkPattern cx scope.push scrutinee p).value want body ++
        armsComparisons cx scope want scrutinee arms)
  | ⟨_, p, some g, body⟩ :: arms =>
    patternComparisons cx.env scrutinee p ++
      (comparisons cx (checkPattern cx scope.push scrutinee p).value none g ++
        (comparisons cx (checkPattern cx scope.push scrutinee p).value want body ++
          armsComparisons cx scope want scrutinee arms))

end

/-- The comparisons made for a value that is put where a type is declared. -/
def valueComparisons (cx : Context) (scope : Scope) (declared : Ty) (e : Expr) :
    List TypeComparison :=
  comparisons cx scope (some declared) e ++
    [⟨declared, (infer cx scope (some declared) e).value, e.span⟩]

def declarationComparisons (cx : Context) (scope : Scope) (d : Declaration) : List TypeComparison :=
  valueComparisons cx scope (cx.resolve d.type).value d.value

def assignComparisons (cx : Context) (scope : Scope) (target : Ident) (value : Expr) :
    List TypeComparison :=
  match scope.lookup target.name with
  | none => comparisons cx scope none value
  | some b => valueComparisons cx scope b.type value

mutual

/-- The comparisons made when a statement of a function that returns `result` is checked. -/
def stmtComparisons (cx : Context) (result : Ty) (scope : Scope) : Stmt → List TypeComparison
  | .declare d => declarationComparisons cx scope d
  | .assign _ target value => assignComparisons cx scope target value
  | .ret _ value => valueComparisons cx scope result value
  | .branch _ cond yes no =>
    comparisons cx scope none cond ++
      (stmtsComparisons cx result scope.push yes ++
        match no with
        | none => []
        | some b => stmtsComparisons cx result scope.push b)
  | .select _ e arms =>
    comparisons cx scope none e ++
      blocksComparisons cx result scope (infer cx scope none e).value arms
  | .eval e => comparisons cx scope none e
  | .pass _ => []

def stmtsComparisons (cx : Context) (result : Ty) (scope : Scope) : List Stmt → List TypeComparison
  | [] => []
  | s :: rest =>
    stmtComparisons cx result scope s ++
      stmtsComparisons cx result (checkStmt cx result scope s).value rest

def blocksComparisons (cx : Context) (result : Ty) (scope : Scope) (scrutinee : Ty) :
    List (Arm Expr (List Stmt)) → List TypeComparison
  | [] => []
  | ⟨_, p, g, body⟩ :: arms =>
    patternComparisons cx.env scrutinee p ++
      ((match g with
        | none => []
        | some g => comparisons cx (checkPattern cx scope.push scrutinee p).value none g) ++
        (stmtsComparisons cx result (checkPattern cx scope.push scrutinee p).value.push body ++
          blocksComparisons cx result scope scrutinee arms))

end

def functionComparisons (cx : Context) (scope : Scope) (f : FunctionDecl) : List TypeComparison :=
  match cx.env.function? f.name.name with
  | none => []
  | some sig =>
    if sig.span != f.span then []
    else
      stmtsComparisons { cx with typeParams := sig.typeParams } sig.result
        (bindParams { cx with typeParams := sig.typeParams } scope.push
          ((f.params.map (·.name)).zip (sig.params.map (·.2)))).value.push f.body

mutual

/-- The comparisons made when the body of an item is checked. -/
def itemComparisons (cx : Context) (scope : Scope) : Item → List TypeComparison
  | .value d => declarationComparisons cx scope d
  | .function f => functionComparisons cx scope f
  | .principle p => comparisons cx scope.push none p.body
  | .scope _ _ items => itemsComparisons cx scope.push items
  | .struct _ => []
  | .enum _ => []
  | .synonym _ => []
  | .test _ => []

def itemsComparisons (cx : Context) (scope : Scope) : List Item → List TypeComparison
  | [] => []
  | i :: rest =>
    itemComparisons cx scope i ++ itemsComparisons cx (checkItem cx scope i).value rest

end

/-- The comparisons made in the condition of a field of type `t`. -/
def conditionComparisons (cx : Context) (f : FieldDecl) (t : Ty) : List TypeComparison :=
  match f.condition with
  | none => []
  | some condition =>
    match condition.freeNames.find? fun id => id.name != f.name.name with
    | some _ => []
    | none => comparisons cx (bindName cx (Scope.push {}) f.name t .variable).value none condition

def conditionsComparisons (cx : Context) : List FieldDecl → List Ty → List TypeComparison
  | f :: fs, t :: ts => conditionComparisons cx f t ++ conditionsComparisons cx fs ts
  | _, _ => []

/-- The comparisons made in the conditions of the fields of structs. -/
def structsComparisons (cx : Context) : List DeclaredStruct → List TypeComparison
  | [] => []
  | s :: rest =>
    (if cx.env.loops s.id then []
      else conditionsComparisons cx s.decl.fields ((cx.env.ownFields s.id).map (·.type))) ++
      structsComparisons cx rest

/-- All comparisons made when the program is checked. -/
def Program.comparisons (p : Program) (options : CheckOptions) : List TypeComparison :=
  structsComparisons ⟨p.typed, options, []⟩ p.placed ++
    itemsComparisons ⟨p.declared, options, []⟩ {} p.items

/-!
## Making comparisons
-/

/-- The check makes these comparisons, looks at these placements and gives something that satisfies
`Q`. -/
structure Compares {β : Type} (env : Env) (x : Checking β) (cs : List TypeComparison)
    (ps : List Placement) (Q : β → Prop) : Prop where
  onlyAdds : OnlyAdds x
  result : Q x.value
  apt : ∀ c ∈ cs, c.expected.Apt env ∧ c.got.Apt env
  reported : ∀ c ∈ cs, fits env c.expected c.got = false → ∀ r, c.finding ∈ (x.run r).2.errors
  placed : ∀ p ∈ ps, ∀ f ∈ p.faults, ∀ r, f ∈ (x.run r).2.errors

/-- An error that has been reported stays. -/
theorem OnlyAdds.mem_errors {β : Type} {x : Checking β} (hx : OnlyAdds x) {r : Report}
    {f : Finding} (hf : f ∈ r.errors) : f ∈ (x.run r).2.errors :=
  (hx.grows r).errors.subset hf

namespace Compares

variable {β γ : Type} {env : Env} {x : Checking β} {f : β → Checking γ} {P : β → Prop}
  {Q : γ → Prop} {cs ds : List TypeComparison} {ps qs : List Placement}

/-- A check that compares nothing. -/
theorem quiet (hx : OnlyAdds x) (h : P x.value) : Compares env x [] [] P :=
  ⟨hx, h, by simp, by simp, by simp⟩

theorem pure {b : β} (h : P b) : Compares env (pure b) [] [] P := quiet (.pure b) h

/-- What the first step reports stays, and the second reports the rest. -/
theorem bind (hx : Compares env x cs ps P) (hf : P x.value → Compares env (f x.value) ds qs Q) :
    Compares env (x >>= f) (cs ++ ds) (ps ++ qs) Q := by
  have hlast := hf hx.result
  refine ⟨hx.onlyAdds.bind_value hlast.onlyAdds, ?_, ?_, fun c hc hfits r => ?_,
    fun p hp g hg r => ?_⟩
  · rw [hlast.onlyAdds.value_bind]
    exact hlast.result
  · exact List.forall_mem_append.mpr ⟨hx.apt, hlast.apt⟩
  · rw [hx.onlyAdds.run_bind f r]
    rcases List.mem_append.mp hc with hc | hc
    · exact hlast.onlyAdds.mem_errors (hx.reported c hc hfits r)
    · exact hlast.reported c hc hfits _
  · rw [hx.onlyAdds.run_bind f r]
    rcases List.mem_append.mp hp with hp | hp
    · exact hlast.onlyAdds.mem_errors (hx.placed p hp g hg r)
    · exact hlast.placed p hp g hg _

/-- The second step only compares types. -/
theorem bind_types (hx : Compares env x cs ps P)
    (hf : P x.value → Compares env (f x.value) ds [] Q) :
    Compares env (x >>= f) (cs ++ ds) ps Q := by
  have h := hx.bind hf
  rwa [List.append_nil] at h

/-- The second step compares nothing. -/
theorem bind_quiet (hx : Compares env x cs ps P)
    (hf : P x.value → Compares env (f x.value) [] [] Q) : Compares env (x >>= f) cs ps Q := by
  have h := hx.bind_types hf
  rwa [List.append_nil] at h

/-- The first step only compares types. -/
theorem types_bind (hx : Compares env x cs [] P)
    (hf : P x.value → Compares env (f x.value) ds ps Q) : Compares env (x >>= f) (cs ++ ds) ps Q :=
  hx.bind hf

/-- The first step compares nothing. -/
theorem quiet_bind (hx : Compares env x [] [] P)
    (hf : P x.value → Compares env (f x.value) ds ps Q) : Compares env (x >>= f) ds ps Q :=
  hx.bind hf

end Compares

/-- A check about which no more is asked than that it only adds. -/
theorem OnlyAdds.compares {β : Type} {env : Env} {x : Checking β} (hx : OnlyAdds x) :
    Compares env x [] [] fun _ => True :=
  .quiet hx trivial

theorem compares_faults (env : Env) (p : Placement) :
    Compares env (faults p.faults) [] [p] fun _ => True := by
  refine ⟨.faults _, trivial, by simp, by simp, fun q hq f hf r => ?_⟩
  obtain rfl := List.mem_singleton.mp hq
  exact List.mem_append_right _ hf

/-- All types that the declarations hold are apt. -/
def Env.Apt (env : Env) : Prop := ∀ t ∈ env.types, t.Apt env

section Types

variable {env : Env}

@[simp] theorem apt_unknown : Ty.Apt env .unknown := .leaf rfl trivial

@[simp] theorem apt_prim (p : Prim) : Ty.Apt env (.prim p) := .leaf rfl trivial

@[simp] theorem apt_enum (name : String) : Ty.Apt env (.enum name) := .leaf rfl trivial

theorem Ty.Apt.core {t : Ty} (h : t.Apt env) : t.core.Apt env := Every.core h fun _ => trivial

/-- The type arguments of a struct are apt. -/
theorem Ty.Apt.args {t : Ty} {name args} (h : t.Apt env) (hcore : t.core = .struct name args) :
    ∀ a ∈ args, a.Apt env := by
  have hstruct := h.core
  rw [hcore] at hstruct
  exact (Every.struct_iff.mp hstruct).2

end Types

end Statute
