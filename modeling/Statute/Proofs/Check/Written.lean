import Mathlib.Data.List.Nodup
import Statute.Proofs.Check.Bodies
import Statute.Proofs.Check.Inheritance

/-!
# The types that are written in a program

`p.Writes ambient params t` says that the type expression `t` is written somewhere in the program:
in a declaration, with the type parameters `params`, or in the body of a function, whose type
parameters are the names of `ambient`. The rounds of the check resolve them one by one, each in the
declarations known by then. These have the outline of those in the end, and so all types that are
written in an accepted program resolve there with nothing reported, `resolves_of_writes`.

`p.Holds ambient e` says the same of expressions, those inside others included. All expressions of
an accepted program are typed, `typed_of_holds`.
-/

namespace Statute

open Checking List

/-- The type expression resolves with nothing reported. -/
def Env.Resolves (env : Env) (ambient params : List String) (t : TypeExpr) : Prop :=
  ∃ u, Gives (resolve env ambient params t) u

variable {ambient params : List String} {t : TypeExpr}

theorem Env.Resolves.congr {env env' : Env} (houtline : env.outline = env'.outline)
    (h : env.Resolves ambient params t) : env'.Resolves ambient params t := by
  unfold Resolves at h ⊢
  rwa [resolve_congr houtline] at h

/-!
## Where types and expressions are written
-/

/-- The expressions of a statement, without those in the blocks inside it. -/
def Stmt.exprs : Stmt → List Expr
  | .declare d => [d.value]
  | .assign _ _ value => [value]
  | .ret _ value => [value]
  | .branch _ cond _ _ => [cond]
  | .select _ e arms => e :: arms.filterMap (·.guard)
  | .eval e => [e]
  | .pass _ => []

/-- The statement declares a name of this type, or a quantifier in it ranges over the type. -/
inductive Stmt.Writes : Stmt → TypeExpr → Prop where
  | declared {d} : Stmt.Writes (.declare d) d.type
  | bound {s e t} (he : e ∈ s.exprs) (h : e.Binds t) : Stmt.Writes s t

/-- The type is written in the declaration that the item is, with these type parameters. -/
inductive Item.Declares : Item → List String → TypeExpr → Prop where
  | field {s f} (hf : f ∈ s.fields) : Item.Declares (.struct s) (s.params.map (·.name)) f.type
  | target {a} : Item.Declares (.synonym a) (a.params.map (·.name)) a.target
  | requirement {d r} (hr : r ∈ d.requirements) : Item.Declares (.test d) [] r.type
  | param {d r} (hr : r ∈ d.params) :
      Item.Declares (.function d) (d.typeParams.map (·.name)) r.type
  | result {d} : Item.Declares (.function d) (d.typeParams.map (·.name)) d.result

/-- The type is written in the program, where the names of both lists are type parameters: those of
the function around, and those of the declaration at hand. -/
inductive Program.Writes (p : Program) : List String → List String → TypeExpr → Prop where
  | declared {i params t} (hi : i ∈ p.leaves) (h : i.Declares params t) : p.Writes [] params t
  | condition {s f c t} (hs : s ∈ p.structs) (hf : f ∈ s.fields) (hc : f.condition = some c)
      (h : c.Binds t) : p.Writes [] [] t
  | value {d t} (hd : .value d ∈ p.leaves) (h : (Stmt.declare d).Writes t) : p.Writes [] [] t
  | principle {q t} (hq : .principle q ∈ p.leaves) (h : q.body.Binds t) : p.Writes [] [] t
  | body {f b s t} (hf : .function f ∈ p.leaves) (hb : Encloses f.body b) (hs : s ∈ b)
      (h : s.Writes t) : p.Writes (f.typeParams.map (·.name)) (f.typeParams.map (·.name)) t

/-- The expression stands in the program, at any depth, where the names of the list are the type
parameters of the function around. -/
inductive Program.Holds (p : Program) : List String → Expr → Prop where
  | condition {s f c} (hs : s ∈ p.structs) (hf : f ∈ s.fields) (hc : f.condition = some c) :
      p.Holds [] c
  | value {d} (hd : .value d ∈ p.leaves) : p.Holds [] d.value
  | principle {q} (hq : .principle q ∈ p.leaves) : p.Holds [] q.body
  | body {f b s e} (hf : .function f ∈ p.leaves) (hb : Encloses f.body b) (hs : s ∈ b)
      (he : e ∈ s.exprs) : p.Holds (f.typeParams.map (·.name)) e
  | inside {ambient e c} (h : p.Holds ambient e) (hc : c ∈ e.children) : p.Holds ambient c

/-!
## Bodies
-/

section Bodies

variable {cx : Context} {scope : Scope}

theorem passes_checkDeclaration_value (d : Declaration) :
    Passes (checkDeclaration cx scope d) fun _ => ∃ want t, Typed cx scope want d.value t := by
  refine (onlyAdds_resolve cx d.type).gives.bind fun declared => ?_
  refine (passes_expectValue declared d.value).bind fun _ => ?_
  refine (onlyAdds_bindName cx scope d.name declared .variable).passes fun _ _ hvalue _ => ?_
  obtain ⟨t, ht, -⟩ := hvalue
  exact ⟨some declared, t, ht⟩

theorem passes_checkAssign (target : Ident) (value : Expr) :
    Passes (checkAssign cx scope target value) fun _ => ∃ want t, Typed cx scope want value t := by
  unfold checkAssign
  split
  · exact .fault ((onlyAdds_infer none value).map _)
  next b _ =>
    refine (passes_expectValue b.type value).mono fun _ hvalue => ?_
    obtain ⟨t, ht, -⟩ := hvalue
    exact ⟨some b.type, t, ht⟩

/-- The expressions of a statement that goes through are typed. -/
theorem passes_checkStmt_exprs {result : Ty} (s : Stmt) :
    Passes (checkStmt cx result scope s) fun _ =>
      ∀ e ∈ s.exprs, ∃ scope' want t, Typed cx scope' want e t := by
  cases s with
  | declare d =>
    refine (passes_checkDeclaration_value d).mono fun _ hvalue => ?_
    exact forall_mem_singleton.mpr ⟨scope, hvalue⟩
  | assign span target value =>
    refine (passes_checkAssign target value).bind fun _ => .pure fun hvalue => ?_
    exact forall_mem_singleton.mpr ⟨scope, hvalue⟩
  | ret span value =>
    refine passes_checkStmt_ret.mono fun _ hvalue => ?_
    exact forall_mem_singleton.mpr ⟨scope, some result, hvalue⟩
  | branch span cond yes no =>
    refine passes_checkStmt_branch.mono fun _ h => ?_
    exact forall_mem_singleton.mpr ⟨scope, none, h.1⟩
  | select span e arms =>
    refine passes_checkStmt_select.mono fun _ h => forall_mem_cons.mpr ⟨⟨scope, none, h.1⟩, ?_⟩
    intro g hg
    obtain ⟨a, ha, hg⟩ := mem_filterMap.mp hg
    obtain ⟨inside, htyped, -⟩ := h.2.2 a ha
    exact ⟨inside, none, htyped g hg⟩
  | eval e =>
    refine (passes_infer cx scope none e).bind fun t => .pure fun ht => ?_
    exact forall_mem_singleton.mpr ⟨scope, none, t, ht⟩
  | pass span => exact .pure (by simp [Stmt.exprs])

end Bodies

/-!
## Structs
-/

section Structs

variable {cx : Context}

/-- The condition is a truth value, where the field that it is about has the type. -/
def Context.Admits (cx : Context) (field : String) (t : Ty) (c : Expr) : Prop :=
  ∃ scope u, Typed cx scope none c u ∧ u.isBool = true ∧
    ∀ b, scope.lookup field = some b → b.type = t

theorem passes_checkCondition (f : FieldDecl) (t : Ty) :
    Passes (checkCondition cx f t) fun _ =>
      ∀ c, f.condition = some c → cx.Admits f.name.name t c := by
  unfold checkCondition
  split
  next hnone => exact .pure (by simp [hnone])
  next c hsome =>
    split
    next other _ => exact .fault (g := pure) (.pure _)
    · refine (passes_bindName f.name t .variable).bind fun inside => ?_
      refine (passes_infer cx inside none c).bind fun u => ?_
      refine (Passes.faultIf _ _ _).mono fun _ hbool hu hinside c' hc' => ?_
      cases hsome.symm.trans hc'
      refine ⟨inside, u, hu, by simpa using hbool, fun b hb => ?_⟩
      rw [hinside, Scope.lookup_add, if_pos rfl] at hb
      cases hb
      rfl

theorem passes_checkConditions (fields : List FieldDecl) (types : List Ty) :
    Passes (checkConditions cx fields types) fun _ => ∀ q ∈ fields.zip types,
      ∀ c, q.1.condition = some c → cx.Admits q.1.name.name q.2 c := by
  induction fields generalizing types with
  | nil => exact .pure (by simp)
  | cons f fields ih =>
    cases types with
    | nil => exact .pure (by simp)
    | cons t types =>
      refine (passes_checkCondition f t).bind fun _ => (ih types).mono fun _ hrest hfirst => ?_
      exact forall_mem_cons.mpr ⟨hfirst, hrest⟩

theorem passes_checkInheritance_conditions (structs : List DeclaredStruct) :
    Passes (checkInheritance cx structs) fun _ => ∀ s ∈ structs,
      ∀ q ∈ s.decl.fields.zip ((cx.env.ownFields s.id).map (·.type)),
        ∀ c, q.1.condition = some c → cx.Admits q.1.name.name q.2 c := by
  refine (passes_checkCycles structs).bind fun _ => ?_
  refine (onlyAdds_forEachSound (fun s => (tame_checkParent s).onlyAdds) structs).gives.bind fun _ => ?_
  refine (passes_forEachSound (fun s => passes_checkConditions _ _) structs).mono ?_
  exact fun _ hsound _ hcycles s hs => hsound s hs (hcycles s hs)

end Structs

/-!
## Accepted programs
-/

section Accepted

variable {p : Program} {options : CheckOptions} {cp : CheckedProgram}

/-- Every alias of an accepted program is found under its name. -/
theorem isAlias_of_check (h : p.check options = .ok cp) {a : AliasDecl}
    (ha : .synonym a ∈ p.leaves) :
    cp.env.IsAlias a.name.name (a.params.map (·.name)) a.target := by
  obtain ⟨henv, h⟩ := Rounds.of_check h
  rw [henv]
  have hmem : a.typeDef ∈ p.named.defs := by
    rw [Program.named, ((settles_collectTypes _ _).through h.types).1]
    exact mem_filterMap.mpr ⟨_, ha, rfl⟩
  have hdistinct := p.collected.distinct nodup_nil
  have hfound : p.named.lookup a.name.name = some a.typeDef := by
    cases hfind : p.named.lookup a.name.name with
    | none => exact absurd (find?_eq_none.mp hfind _ hmem) (by simp [AliasDecl.typeDef])
    | some d =>
      have hname : d.name = a.name.name := by simpa using find?_some hfind
      rw [inj_on_of_nodup_map hdistinct (mem_of_find?_eq_some hfind) hmem hname]
  exact Env.IsAlias.congr p.outline_declared.symm ⟨a.typeDef, hfound, rfl, rfl⟩

theorem resolves_of_declares (h : p.check options = .ok cp) {i : Item} (hi : i ∈ p.leaves)
    (ht : i.Declares params t) : cp.env.Resolves [] params t := by
  obtain ⟨henv, hrounds⟩ := Rounds.of_check h
  -- the declarations known when the type was resolved have the outline of those in the end
  have hresolves {env : Env} (houtline : p.declared.outline = env.outline)
      (hgoes : GoesThrough (resolve env [] params t)) : cp.env.Resolves [] params t := by
    obtain ⟨r, -, hr⟩ := hgoes
    exact henv ▸ Env.Resolves.congr houtline.symm ⟨_, r, rfl, hr⟩
  have hsigned := (settles_collectSignatures _ _).through hrounds.signatures i hi
  cases ht with
  | @field s f hf =>
    have hs : s ∈ p.structs := mem_filterMap.mpr ⟨_, hi, rfl⟩
    rw [← hrounds.placed] at hs
    obtain ⟨s', hs', rfl⟩ := mem_map.mp hs
    have hfields := ((settles_resolveStructs _ _).through hrounds.structs s' hs').2
    exact hresolves p.outline_declared (hfields f hf)
  | @target a =>
    -- the target was looked at while the alias itself was being expanded
    have ha := isAlias_of_check h hi
    obtain ⟨r, -, hr⟩ := targetGoesThrough_of_check h ha
    have habove := (Env.Above.nil [a.name.name]).expand mem_cons_self ha
    have hsame : resolveIn cp.env [] cp.env.size [a.name.name] (a.params.map (·.name)) a.target =
        resolve cp.env [] (a.params.map (·.name)) a.target :=
      Env.resolveIn_of_above (acyclic_of_check h) habove (Env.Above.nil _)
    rw [hsame] at hr
    exact ⟨_, r, rfl, hr⟩
  | requirement hr => exact hresolves p.signs.outline (hsigned.2 _ hr)
  | param hr => exact hresolves p.signs.outline (hsigned.2.1 _ hr)
  | result => exact hresolves p.signs.outline hsigned.2.2

/-- The fields of a struct, own or inherited, are declared in the program. -/
theorem Program.exists_placed_of_field {id f} (hf : f ∈ p.declared.effectiveFields id) :
    ∃ s ∈ p.placed, f ∈ s.decl.fieldsIn p.declared := by
  obtain ⟨owner, -, hown⟩ := mem_flatMap.mp hf
  have hstruct : (p.declared.struct? owner).isSome = true := by
    rw [Env.ownFields] at hown
    cases hs : p.declared.struct? owner with
    | none => simp [hs] at hown
    | some s => rfl
  obtain ⟨s, hs, rfl⟩ := p.exists_placed hstruct
  rw [Env.ownFields_of_struct? (p.stored hs).2.struct] at hown
  exact ⟨s, hs, hown⟩

/-- The conditions of fields are truth values. -/
theorem Rounds.admits (h : Rounds p options) {s : DeclaredStruct} (hs : s ∈ p.placed) {f : Field}
    (hf : f ∈ s.decl.fieldsIn p.declared) {c : Expr} (hc : f.condition = some c) :
    Context.Admits ⟨p.typed, options, []⟩ f.name f.type c := by
  have hown : p.typed.ownFields s.id = s.decl.fieldsIn p.declared := by
    rw [← Env.ownFields_of_defs p.defs_declared, Env.ownFields_of_struct? (p.stored hs).2.struct]
  have hall := h.inheritance.result (passes_checkInheritance_conditions _) s hs
  rw [hown] at hall
  obtain ⟨d, hd, rfl⟩ := mem_map.mp hf
  refine hall (d, _) ?_ c hc
  rw [StructDecl.fieldsIn, map_map]
  nth_rewrite 1 [← map_id s.decl.fields]
  rw [zip_map']
  exact mem_map_of_mem hd

variable {ambient : List String}

/-- All expressions of an accepted program are typed, in declarations of the same types. -/
theorem typed_of_holds (h : p.check options = .ok cp) {e : Expr} (he : p.Holds ambient e) :
    ∃ env scope want t, env.defs = cp.env.defs ∧
      Typed ⟨env, options, ambient⟩ scope want e t := by
  induction he with
  | @condition s f c hs hf hc =>
    obtain ⟨henv, hrounds⟩ := Rounds.of_check h
    rw [← hrounds.placed] at hs
    obtain ⟨s', hs', rfl⟩ := mem_map.mp hs
    obtain ⟨scope, u, hu, -⟩ := hrounds.admits hs' (mem_map_of_mem hf) hc
    exact ⟨p.typed, scope, none, u, by rw [henv, p.defs_declared], hu⟩
  | @value d hd =>
    obtain ⟨scope, next, hgives⟩ := gives_checkItem h hd
    obtain ⟨want, t, ht⟩ := (passes_checkDeclaration_value d).result next hgives
    exact ⟨cp.env, scope, want, t, rfl, ht⟩
  | @principle q hq =>
    have hmem : q ∈ p.principles := mem_filterMap.mpr ⟨_, hq, rfl⟩
    rw [← p.principles_sites] at hmem
    obtain ⟨s, hs, rfl⟩ := mem_map.mp hmem
    obtain ⟨scope, -, -, t, ht, -⟩ := visited_of_check h s hs
    exact ⟨cp.env, _, _, t, rfl, ht⟩
  | @body f b s e hf hb hs he =>
    obtain ⟨result, inside, hbody⟩ := gives_checkStmts h hf
    obtain ⟨scope, hblock⟩ := hb.gives hbody
    obtain ⟨scope', next, hstmt⟩ := gives_of_mem_stmts hblock hs
    obtain ⟨scope'', want, t, ht⟩ := (passes_checkStmt_exprs s).result next hstmt e he
    exact ⟨cp.env, scope'', want, t, rfl, ht⟩
  | inside _ hc ih =>
    obtain ⟨env, scope, want, t, hdefs, ht⟩ := ih
    obtain ⟨scope', want', t', ht'⟩ := ht.children hc
    exact ⟨env, scope', want', t', hdefs, ht'⟩

theorem resolves_of_binds (h : p.check options = .ok cp) {e : Expr} (he : p.Holds ambient e)
    (ht : e.Binds t) : cp.env.Resolves ambient ambient t := by
  obtain ⟨env, scope, want, u, hdefs, hu⟩ := typed_of_holds h he
  have hresolves : env.Resolves ambient ambient t := hu.gives_of_binds ht
  exact hresolves.congr (by rw [Env.outline, Env.outline, hdefs])

/-- All types that are written in an accepted program resolve with nothing reported. -/
theorem resolves_of_writes (h : p.check options = .ok cp) (ht : p.Writes ambient params t) :
    cp.env.Resolves ambient params t := by
  cases ht with
  | declared hi hdeclares => exact resolves_of_declares h hi hdeclares
  | condition hs hf hc hbinds => exact resolves_of_binds h (.condition hs hf hc) hbinds
  | @value d _ hd hwrites =>
    cases hwrites with
    | declared => exact gives_of_mem_values h (Program.mem_values_iff.mpr hd)
    | bound he hbinds =>
      obtain rfl := mem_singleton.mp he
      exact resolves_of_binds h (.value hd) hbinds
  | principle hq hbinds => exact resolves_of_binds h (.principle hq) hbinds
  | @body f b s t hf hb hs hwrites =>
    cases hwrites with
    | @declared d =>
      obtain ⟨result, inside, hbody⟩ := gives_checkStmts h hf
      obtain ⟨scope, hblock⟩ := hb.gives hbody
      obtain ⟨scope', next, hstmt⟩ := gives_of_mem_stmts hblock hs
      obtain ⟨u, hu, -⟩ := (passes_checkDeclaration d).result next hstmt
      exact ⟨u, hu⟩
    | bound he hbinds => exact resolves_of_binds h (.body hf hb hs he) hbinds

end Accepted

end Statute
