import Statute.Lowering.Types
import Statute.Proofs.Program.Types

/-!
# Types of bound variables

The types that lowering finds are those that the expressions stand for, `Stands.eq_of_typeOf` and
`stands_of_typeOf`: the limit on the nesting of aliases can stop it, but never gives another type.
-/

namespace Statute

variable {env : Env}

/-- How lowering expands aliases with room for `depth` of them inside one another. -/
def expansion (env : Env) : Nat → AliasTarget
  | 0 => fun name _ _ => .error ⟨.unknownType name.name, name.span⟩
  | depth + 1 => fun _ params target => typeIn env depth params target

theorem typeIn_eq (env : Env) (depth : Nat) (params : List String) (t : TypeExpr) :
    typeIn env depth params t = typeWith env (expansion env depth) params t := by
  cases depth <;> rfl

theorem exists_of_bind_eq_ok {ε β γ : Type} {x} {f : β → Except ε γ} {c} (h : (x >>= f) = .ok c) :
    ∃ b, x = .ok b ∧ f b = .ok c := by
  cases x with
  | error e => cases h
  | ok b => exact ⟨b, rfl, h⟩

variable {expand : AliasTarget} {params : List String} {span : Span} {name : Ident} {d : TypeDef}
  {ty : Ty}

/-- The name of a declared type: neither a parameter nor built in. -/
theorem typeWith_declared {args : List TypeExpr} (hname : ¬(args = [] ∧ name.name ∈ params))
    (hp : Prim.ofName? name.name = none) (hd : env.lookup name.name = some d)
    (h : typeWith env expand params (.named span name args) = .ok ty) :
    ∃ tys, typesWith env expand params args = .ok tys ∧
      declaredType env expand span name d tys = .ok ty := by
  have hcond : (args.isEmpty && params.contains name.name) = false := by
    simpa [← Bool.not_eq_true] using hname
  rw [typeWith, hcond, if_neg Bool.false_ne_true] at h
  simp only [hp, hd] at h
  exact exists_of_bind_eq_ok h

theorem declaredType_of_length {env : Env} {expand : AliasTarget} {span : Span} {name : Ident}
    {d : TypeDef} {tys : List Ty} {ty : Ty} (hd : env.lookup name.name = some d)
    (hlen : d.params.length = tys.length) (h : declaredType env expand span name d tys = .ok ty) :
    match d.body with
    | .struct _ _ => ty = .struct name.name tys
    | .enum _ => ty = .enum name.name
    | .synonym target =>
      ∃ t, expand name d.params target = .ok t ∧ ty = (Binding.ofLists d.params tys).apply t := by
  have hinst : env.instantiate name.name tys = .ok (Binding.ofLists d.params tys) := by
    simp [Env.instantiate, hd, hlen]
  simp only [declaredType, hinst] at h
  split
  next hbody => simpa [hbody] using h.symm
  next hbody => simpa [hbody] using h.symm
  next target hbody =>
    rw [hbody] at h
    obtain ⟨t, ht, h⟩ := exists_of_bind_eq_ok h
    exact ⟨t, ht, (Except.ok.inj h).symm⟩

/-- A declared type is given as many arguments as it takes. -/
theorem length_of_declaredType {tys : List Ty} (hd : env.lookup name.name = some d)
    (h : declaredType env expand span name d tys = .ok ty) : d.params.length = tys.length := by
  by_contra hlen
  simp [declaredType, Env.instantiate, hd, hlen] at h

mutual

/-- Expressions stand for the types that they are lowered to, however much room there is. -/
theorem stands_of_typeWith {env params} {t : TypeExpr} {ty depth}
    (h : typeWith env (expansion env depth) params t = .ok ty) : Stands env params t ty := by
  cases t with
  | prim span p =>
    cases h
    exact .prim
  | citation span c =>
    cases h
    exact .citation
  | validDate span after before =>
    cases h
    exact .validDate
  | moneyIn span code =>
    cases h
    exact .moneyIn
  | var span v =>
    rw [typeWith] at h
    split at h
    next hv =>
      cases h
      exact .var (by simpa using hv)
    · cases h
  | named span name args =>
    by_cases hname : args = [] ∧ name.name ∈ params
    · obtain ⟨rfl, hmem⟩ := hname
      obtain rfl : Ty.var name.name = ty := by simpa [typeWith, hmem] using h
      exact .param hmem
    cases hp : Prim.ofName? name.name with
    | some p =>
      obtain rfl : Ty.prim p = ty := by simpa [typeWith, hname, hp] using h
      exact .builtin hname hp
    | none =>
      cases hd : env.lookup name.name with
      | none => simp [typeWith, hname, hp, hd] at h
      | some d =>
        obtain ⟨tys, htys, h⟩ := typeWith_declared hname hp hd h
        have hargs := standEach_of_typesWith htys
        have hlen := length_of_declaredType hd h
        have hty := declaredType_of_length hd hlen h
        cases hbody : d.body with
        | struct parent fields =>
          rw [hbody] at hty
          exact hty ▸ .struct hname hp hd hbody hargs hlen
        | enum info =>
          rw [hbody] at hty
          exact hty ▸ .enum hname hp hd hbody hargs hlen
        | synonym target =>
          rw [hbody] at hty
          obtain ⟨u, hu, rfl⟩ := hty
          -- the target may hold aliases too, with one less inside one another
          cases depth with
          | zero => cases hu
          | succ depth =>
            have hu := stands_of_typeWith ((typeIn_eq env depth _ _).symm.trans hu)
            exact .synonym hname hp hd hbody hargs hlen hu
  | refine | temporal | array | positive | nonEmpty =>
    obtain ⟨u, hu, h⟩ := exists_of_bind_eq_ok h
    cases h
    constructor
    exact stands_of_typeWith hu
  | union span a b =>
    obtain ⟨u, hu, h⟩ := exists_of_bind_eq_ok h
    obtain ⟨w, hw, h⟩ := exists_of_bind_eq_ok h
    cases h
    exact .union (stands_of_typeWith hu) (stands_of_typeWith hw)
termination_by (depth, sizeOf t)

theorem standEach_of_typesWith {env params} {ts : List TypeExpr} {tys depth}
    (h : typesWith env (expansion env depth) params ts = .ok tys) :
    StandEach env params ts tys := by
  cases ts with
  | nil =>
    cases h
    exact .nil
  | cons t ts =>
    obtain ⟨u, hu, h⟩ := exists_of_bind_eq_ok h
    obtain ⟨us, hus, h⟩ := exists_of_bind_eq_ok h
    cases h
    exact .cons (stands_of_typeWith hu) (standEach_of_typesWith hus)
termination_by (depth, sizeOf ts)

end

variable {t : TypeExpr}

theorem stands_of_typeOf (h : typeOf env t = .ok ty) : Stands env [] t ty :=
  stands_of_typeWith ((typeIn_eq env maxAliases [] t).symm.trans h)

theorem Stands.eq_of_typeOf {ty' : Ty} (h : Stands env [] t ty) (h' : typeOf env t = .ok ty') :
    ty' = ty :=
  (stands_of_typeOf h').unique h

/-!
## Types that are not found
-/

theorem error_of_bind_eq_error {ε β γ : Type} {x} {f : β → Except ε γ} {o}
    (h : (x >>= f) = .error o) : x = .error o ∨ ∃ b, x = .ok b ∧ f b = .error o := by
  cases x with
  | error e =>
    cases h
    exact .inl rfl
  | ok b => exact .inr ⟨b, rfl, h⟩

/-- The obstacle is a type that is not found. -/
def Obstacle.MissesType (o : Obstacle) : Prop := ∃ name, o.fault.kind = .unboundQuantifierType name

section MissingTypes

variable {env : Env} {expand : AliasTarget}

theorem missesType_declaredType {td : TypeDef} {args : List Ty} {o : Obstacle}
    (hexpand : ∀ id ps target o, expand id ps target = .error o → o.MissesType)
    (h : declaredType env expand span name td args = .error o) : o.MissesType := by
  unfold declaredType at h
  split at h
  · cases h
    exact ⟨_, rfl⟩
  split at h
  · cases h
  · cases h
  next target hbody =>
    rcases error_of_bind_eq_error h with htarget | ⟨t, -, ht⟩
    · exact hexpand _ _ _ _ htarget
    · cases ht

mutual

/-- All that can go wrong with a type is that one of its names is not found. -/
theorem missesType_typeWith {params : List String} {t : TypeExpr} {o : Obstacle}
    (hexpand : ∀ id ps target o, expand id ps target = .error o → o.MissesType)
    (h : typeWith env expand params t = .error o) : o.MissesType := by
  match t with
  | .prim _ _ | .citation _ _ | .validDate _ _ _ | .moneyIn _ _ => cases h
  | .var _ v =>
    rw [typeWith] at h
    split at h
    · cases h
    · cases h
      exact ⟨_, rfl⟩
  | .named span name args =>
    rw [typeWith] at h
    split at h
    · cases h
    split at h
    · cases h
    split at h
    · cases h
      exact ⟨_, rfl⟩
    rcases error_of_bind_eq_error h with hargs | ⟨tys, -, hdeclared⟩
    · exact missesType_typesWith hexpand hargs
    · exact missesType_declaredType hexpand hdeclared
  | .refine _ inner _ _ | .temporal _ inner _ _ | .array _ inner | .positive _ inner
  | .nonEmpty _ inner =>
    rw [typeWith] at h
    rcases error_of_bind_eq_error h with hinner | ⟨u, -, h⟩
    · exact missesType_typeWith hexpand hinner
    · cases h
  | .union _ a b =>
    rw [typeWith] at h
    rcases error_of_bind_eq_error h with ha | ⟨l, -, h⟩
    · exact missesType_typeWith hexpand ha
    rcases error_of_bind_eq_error h with hb | ⟨r, -, h⟩
    · exact missesType_typeWith hexpand hb
    · cases h

theorem missesType_typesWith {params : List String} {ts : List TypeExpr} {o : Obstacle}
    (hexpand : ∀ id ps target o, expand id ps target = .error o → o.MissesType)
    (h : typesWith env expand params ts = .error o) : o.MissesType := by
  match ts with
  | [] => cases h
  | t :: ts =>
    rw [typesWith] at h
    rcases error_of_bind_eq_error h with ht | ⟨u, -, h⟩
    · exact missesType_typeWith hexpand ht
    rcases error_of_bind_eq_error h with hts | ⟨us, -, h⟩
    · exact missesType_typesWith hexpand hts
    · cases h

end

end MissingTypes

theorem missesType_typeIn {depth : Nat} {o : Obstacle} (h : typeIn env depth params t = .error o) :
    o.MissesType := by
  induction depth generalizing params t o with
  | zero =>
    refine missesType_typeWith (fun id ps target o' ho' => ?_) h
    cases ho'
    exact ⟨_, rfl⟩
  | succ depth ih => exact missesType_typeWith (fun id ps target o' ho' => ih ho') h

end Statute
