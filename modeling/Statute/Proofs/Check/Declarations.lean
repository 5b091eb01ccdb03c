import Statute.Check.Program

/-!
# The declarations of a checked program

Declarations are gathered in rounds. What the first of them can do is said once: `Gathers` for the
names of types, of which each that is free gets a definition.
-/

namespace Statute

variable {options : CheckOptions}

/-- Whatever has been reported, the result of the check satisfies `P`. -/
def Returns {β : Type} (x : Checking β) (P : β → Prop) : Prop := ∀ r, P (x.run r).1

namespace Returns

variable {β γ : Type} {x : Checking β} {P : β → Prop}

theorem pure {b : β} (h : P b) : Returns (pure b) P := fun _ => h

theorem bind {f : β → Checking γ} {Q : γ → Prop} (hx : Returns x P)
    (hf : ∀ b, P b → Returns (f b) Q) : Returns (x >>= f) Q :=
  fun r => hf _ (hx r) (x.run r).2

/-- Where the result does not matter. -/
theorem any (x : Checking β) : Returns x fun _ => True := fun _ => trivial

end Returns

/-!
## Names of types
-/

/-- The definition of a struct before its parent and its fields are known. -/
def StructDecl.typeDef (s : StructDecl) : TypeDef :=
  ⟨s.name.name, s.span, s.params.map (·.name), .struct none []⟩

/-- The definition of an alias. -/
def AliasDecl.typeDef (a : AliasDecl) : TypeDef :=
  ⟨a.name.name, a.span, a.params.map (·.name), .synonym a.target⟩

/-- The struct that the item declares, if it is one. -/
def Item.struct? : Item → Option StructDecl
  | .struct d => some d
  | _ => none

/-- The definition that the item makes, if it declares a type. -/
def Item.typeDef? : Item → Option TypeDef
  | .struct s => some s.typeDef
  | .enum e => some
    ⟨e.name.name, e.span, [], .enum ⟨e.name.name, e.variants.map (·.name), e.exclusive⟩⟩
  | .synonym a => some a.typeDef
  | .test _ | .principle _ | .function _ | .value _ | .scope _ _ _ => none

theorem Env.idOf?_eq_none_iff {env : Env} {name : String} :
    env.idOf? name = none ↔ name ∉ env.defs.map (·.name) := by
  unfold idOf?
  simp [List.findIdx?_eq_none_iff]

/-- The name is free for a new type: it is neither taken nor built in. -/
def Env.Frees (env : Env) (name : String) : Prop :=
  name ∉ env.defs.map (·.name) ∧ (Prim.ofName? name).isSome = false

/-- A definition is added at the end under a free name, or not at all. -/
inductive Env.Declares (env : Env) (d : TypeDef) : Env × Option Nat → Prop where
  | taken (h : ¬env.Frees d.name) : env.Declares d (env, none)
  | added (h : env.Frees d.name) :
      env.Declares d ({ env with defs := env.defs ++ [d] }, some env.size)

/-- What collecting the names of items can do: `r` holds the declarations after it and the structs
that got a place. -/
inductive Gathers : Env → List Item → Env × List DeclaredStruct → Prop where
  | nil {env} : Gathers env [] (env, [])
  | skip {env i items r} (hi : i.typeDef? = none) (h : Gathers env items r) :
      Gathers env (i :: items) r
  | taken {env i items d r} (hi : i.typeDef? = some d) (htaken : ¬env.Frees d.name)
      (h : Gathers env items r) : Gathers env (i :: items) r
  | added {env i items d r} (hi : i.typeDef? = some d) (hfree : env.Frees d.name)
      (h : Gathers { env with defs := env.defs ++ [d] } items r) :
      Gathers env (i :: items) (r.1, (i.struct?.map (DeclaredStruct.mk env.size)).toList ++ r.2)

/-!
## Legal tests and functions
-/

variable {env : Env}

theorem Env.of_addTest {env env' : Env} {t : LegalTest} (h : env.addTest t = some env') :
    (∀ u ∈ env.tests, u.name ≠ t.name) ∧ env' = { env with tests := env.tests ++ [t] } := by
  unfold addTest at h
  split at h
  · cases h
  next hnone => exact ⟨by simpa [test?] using hnone, (Option.some.inj h).symm⟩

theorem Env.of_addFunction {env env' : Env} {f : Signature} (h : env.addFunction f = some env') :
    (∀ g ∈ env.functions, g.name ≠ f.name) ∧
      env' = { env with functions := env.functions ++ [f] } := by
  unfold addFunction at h
  split at h
  · cases h
  next hnone => exact ⟨by simpa [function?] using hnone, (Option.some.inj h).symm⟩

variable {p : Program}

/-!
## Accepted programs
-/

/-- A program is accepted if no error is reported about it. -/
theorem check_eq_ok_of_errors {report : Report} (h : (checkAll options p).run {} = (env, report))
    (herrors : report.errors = []) : p.check options = .ok ⟨p, env, report.warnings⟩ := by
  unfold Program.check
  rw [h]
  simp [herrors, Finding.inOrder, Finding.distinct]

/-- A program is accepted if nothing is reported about it. -/
theorem check_eq_ok (h : (checkAll options p).run {} = (env, {})) :
    p.check options = .ok ⟨p, env, []⟩ :=
  check_eq_ok_of_errors h rfl

/-- No finding is left out but for one reported the same way. -/
theorem Finding.distinct_eq_nil {fs} (h : distinct fs = []) : fs = [] := by
  -- a finding that is kept stays
  have hkept (gs kept : List Finding) : kept <+: gs.foldl (fun kept f =>
      if kept.any fun g => g.diagnostic == f.diagnostic then kept else kept ++ [f]) kept := by
    induction gs generalizing kept with
    | nil => exact List.prefix_refl kept
    | cons g gs ih =>
      rw [List.foldl_cons]
      refine List.IsPrefix.trans ?_ (ih _)
      split
      · exact List.prefix_refl kept
      · exact List.prefix_append kept _
  cases fs with
  | nil => rfl
  | cons f fs => grind [distinct]

/-- Nothing is reported about an accepted program. -/
theorem run_of_check {cp : CheckedProgram} (h : p.check options = .ok cp) :
    cp.program = p ∧
      ((checkAll options p).run {}).1 = cp.env ∧ ((checkAll options p).run {}).2.errors = [] := by
  unfold Program.check at h
  revert h
  generalize (checkAll options p).run {} = result
  obtain ⟨env, report⟩ := result
  intro h
  dsimp only at h
  split at h
  next horder =>
    cases h
    refine ⟨rfl, rfl, Finding.distinct_eq_nil ?_⟩
    have hperm := List.mergeSort_perm (Finding.distinct report.errors)
      fun a b => a.span.offset ≤ b.span.offset
    unfold Finding.inOrder at horder
    rw [horder] at hperm
    exact List.Perm.nil_eq hperm |>.symm
  · cases h

end Statute
