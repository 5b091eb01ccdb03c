import Mathlib.Data.List.Basic
import Statute.Check.Resolve

/-!
# Expansions of aliases

Of the declared types, resolution looks up no others than the expression mentions: where these are
looked up alike, expressions resolve alike, `resolveWith_eq`.

An alias is never expanded inside itself, so the room that resolution has for expansions inside one
another is never used up, whatever the definitions are. `resolveWithin` resolves with as much room
and leaves what lies deeper to its argument `beyond`: the result does not depend on it,
`resolveWithin_eq`. Resolution is therefore the plain recursion along expressions and targets,
`resolveIn_unfold`.
-/

namespace Statute

open Checking List

variable {opened : List String}

/-!
## What is looked up
-/

mutual

/-- The names of declared types that an expression mentions, where the names in `params` are type
parameters. The arguments of a built-in name do not matter. -/
def TypeExpr.mentions (params : List String) : TypeExpr → List String
  | .named _ name args =>
    if args.isEmpty && params.contains name.name then []
    else if (Prim.ofName? name.name).isSome then []
    else name.name :: mentionsAll params args
  | .refine _ base _ _ => base.mentions params
  | .temporal _ inner _ _ => inner.mentions params
  | .array _ inner => inner.mentions params
  | .positive _ inner => inner.mentions params
  | .nonEmpty _ inner => inner.mentions params
  | .union _ a b => a.mentions params ++ b.mentions params
  | .prim _ _ | .var _ _ | .citation _ _ | .validDate _ _ _ | .moneyIn _ _ => []

/-- The names that several expressions mention. -/
def mentionsAll (params : List String) : List TypeExpr → List String
  | [] => []
  | t :: ts => t.mentions params ++ mentionsAll params ts

end

/-- The name is that of an alias with these parameters and this target. -/
def Env.IsAlias (env : Env) (name : String) (params : List String) (target : TypeExpr) : Prop :=
  ∃ d, env.lookup name = some d ∧ d.params = params ∧ d.body = .synonym target

section LookUp

variable {env env' : Env} {ambient opened opened' params : List String} {expand expand' : Expansion}

/-- A name that is neither a type parameter nor built in is mentioned, and so is whatever its
arguments mention. -/
theorem mentions_named {span : Span} {name : Ident} {args : List TypeExpr}
    (hparam : ¬(args = [] ∧ name.name ∈ params)) (hprim : Prim.ofName? name.name = none) :
    (TypeExpr.named span name args).mentions params = name.name :: mentionsAll params args := by
  rw [TypeExpr.mentions, if_neg (by simpa using hparam), hprim]
  rfl

/-- An alias has to be expanded alike, unless it is being expanded already. -/
theorem resolveDeclared_eq {name : Ident}
    (h : ∀ ps target, env.IsAlias name.name ps target →
      (name.name ∈ opened → opened' = opened) ∧ (name.name ∉ opened → name.name ∉ opened' ∧
        expand name.name ps target = expand' name.name ps target))
    (span : Span) (args : List Ty) : resolveDeclared env expand opened span name args =
      resolveDeclared env expand' opened' span name args := by
  unfold resolveDeclared
  cases hd : env.lookup name.name with
  | none => rfl
  | some d =>
    cases env.instantiate name.name args with
    | error a => rfl
    | ok binding =>
      cases hbody : d.body with
      | struct parent fields | enum info => simp only [hbody]
      | synonym target =>
        obtain ⟨hcycle, hexpand⟩ := h _ _ ⟨d, hd, rfl, hbody⟩
        by_cases hmem : name.name ∈ opened
        · grind
        · grind

/-- The types among `names` are looked up alike. -/
def LookedUpAlike (env env' : Env) (expand expand' : Expansion) (opened opened' : List String)
    (names : List String) : Prop :=
  ∀ name : Ident, name.name ∈ names → ∀ span tys,
    resolveDeclared env expand opened span name tys =
      resolveDeclared env' expand' opened' span name tys

theorem LookedUpAlike.mono {names names' : List String}
    (h : LookedUpAlike env env' expand expand' opened opened' names) (hsub : names' ⊆ names) :
    LookedUpAlike env env' expand expand' opened opened' names' :=
  fun name hname => h name (hsub hname)

mutual

theorem resolveWith_eq {t : TypeExpr}
    (h : LookedUpAlike env env' expand expand' opened opened' (t.mentions params)) :
    resolveWith env ambient expand opened params t =
      resolveWith env' ambient expand' opened' params t := by
  match t with
  | .prim .. | .var .. | .citation .. | .validDate .. | .moneyIn .. => rfl
  | .named span name args =>
    rw [resolveWith, resolveWith]
    split
    · rfl
    next hparam =>
      cases hprim : Prim.ofName? name.name with
      | some p => rfl
      | none =>
        have hown : ¬(args = [] ∧ name.name ∈ params) := by grind
        rw [mentions_named hown hprim] at h
        rw [resolveAllWith_eq (h.mono (subset_cons_self _ _))]
        simp only [h name mem_cons_self]
  | .refine span inner _ _ | .temporal span inner _ _ | .array span inner | .positive span inner
  | .nonEmpty span inner =>
    have hinner := resolveWith_eq (t := inner) h
    rw [resolveWith, resolveWith, hinner]
  | .union span a b =>
    rw [TypeExpr.mentions] at h
    rw [resolveWith, resolveWith, resolveWith_eq (h.mono (subset_append_left _ _)),
      resolveWith_eq (h.mono (subset_append_right _ _))]

theorem resolveAllWith_eq {ts : List TypeExpr}
    (h : LookedUpAlike env env' expand expand' opened opened' (mentionsAll params ts)) :
    resolveAllWith env ambient expand opened params ts =
      resolveAllWith env' ambient expand' opened' params ts := by
  match ts with
  | [] => rfl
  | t :: ts =>
    rw [mentionsAll] at h
    rw [resolveAllWith, resolveAllWith, resolveWith_eq (h.mono (subset_append_left _ _)),
      resolveAllWith_eq (h.mono (subset_append_right _ _))]

end

end LookUp

variable {name : String}

/-!
## Room for expansions
-/

namespace Env

variable {env : Env}

/-- The names of definitions that are not being expanded. -/
def unopened (env : Env) (opened : List String) : List String :=
  (env.defs.map (·.name)).filter fun name => !opened.contains name

theorem unopened_nil : (env.unopened []).length = env.size := by
  simp [unopened, size]

theorem length_unopened_le (opened : List String) : (env.unopened opened).length ≤ env.size := by
  rw [← env.unopened_nil]
  exact (monotone_filter_right _ (by simp)).length_le

theorem length_unopened_lt (hname : name ∈ env.defs.map (·.name)) (hnew : name ∉ opened) :
    (env.unopened (opened ++ [name])).length < (env.unopened opened).length := by
  have hsplit : env.unopened (opened ++ [name]) = (env.unopened opened).filter (· != name) := by
    unfold unopened
    rw [filter_filter]
    congr 1
    funext n
    simp [Bool.and_comm, bne, Bool.beq_eq_decide_eq]
  rw [hsplit, length_filter_lt_length_iff_exists]
  exact ⟨name, mem_filter.mpr ⟨hname, by simpa using hnew⟩, by simp⟩

theorem mem_names_of_lookup {d : TypeDef} (h : env.lookup name = some d) :
    name ∈ env.defs.map (·.name) := by
  refine mem_map.mpr ⟨d, mem_of_find?_eq_some h, ?_⟩
  simpa using find?_some h

/-- What holds while the aliases of `opened` are being expanded, if it holds after the expansion of
any other one. -/
theorem opened_induction {P : List String → Prop}
    (h : ∀ opened, (∀ name ∈ env.defs.map (·.name), name ∉ opened → P (opened ++ [name])) →
      P opened) (opened : List String) : P opened := by
  induction hn : (env.unopened opened).length using Nat.strongRecOn generalizing opened with
  | _ n ih =>
    refine h opened fun name hname hnew => ?_
    exact ih _ (hn ▸ length_unopened_lt hname hnew) _ rfl

end Env

/-- Both expand the aliases that are not being expanded in the same way. -/
def Expansion.Agree (env : Env) (opened : List String) (expand expand' : Expansion) : Prop :=
  ∀ name ps target, name ∈ env.defs.map (·.name) → name ∉ opened →
    expand name ps target = expand' name ps target

/-- Only expansions of aliases that are not being expanded are asked for. -/
theorem Expansion.Agree.resolveWith {env ambient params expand expand'}
    (h : Agree env opened expand expand') (t : TypeExpr) :
    resolveWith env ambient expand opened params t =
      resolveWith env ambient expand' opened params t := by
  refine resolveWith_eq fun name _ => resolveDeclared_eq fun ps target ha => ?_
  refine ⟨fun _ => rfl, fun hnew => ⟨hnew, h _ _ _ ?_ hnew⟩⟩
  exact Env.mem_names_of_lookup ha.choose_spec.1

/-- Resolution with room for `depth` expansions inside one another. Aliases that lie deeper are
resolved in the way that `beyond` gives for the aliases being expanded there. -/
def resolveWithin (env : Env) (ambient : List String) (beyond : List String → Expansion) :
    Nat → List String → List String → TypeExpr → Checking Ty
  | 0, opened, params => resolveWith env ambient (beyond opened) opened params
  | depth + 1, opened, params =>
    resolveWith env ambient
      (fun name ps target => resolveWithin env ambient beyond depth (opened ++ [name]) ps target)
      opened params

section Room

variable {env : Env} {ambient : List String}

theorem resolveIn_eq (depth : Nat) (opened params : List String) (t : TypeExpr) :
    resolveIn env ambient depth opened params t =
      resolveWithin env ambient (fun _ _ _ _ => pure .unknown) depth opened params t := by
  induction depth generalizing opened params t with
  | zero => rfl
  | succ depth ih =>
    rw [resolveIn, resolveWithin]
    simp only [ih]

/-- Room for the aliases that are not being expanded is enough: nothing lies deeper. -/
theorem resolveWithin_congr {beyond beyond' : List String → Expansion} {depth depth' : Nat}
    (h : (env.unopened opened).length ≤ depth) (h' : (env.unopened opened).length ≤ depth')
    (params : List String) (t : TypeExpr) :
    resolveWithin env ambient beyond depth opened params t =
      resolveWithin env ambient beyond' depth' opened params t := by
  induction opened using env.opened_induction generalizing depth depth' params t with
  | _ opened ih =>
    cases depth with
    | zero =>
      -- all definitions are being expanded, so no expansion is asked for
      have hnone (expand expand' : Expansion) : expand.Agree env opened expand' := by
        intro name ps target hname hnew
        have hlt := Env.length_unopened_lt hname hnew
        omega
      cases depth' with
      | zero | succ depth' => exact (hnone _ _).resolveWith t
    | succ depth =>
      cases depth' with
      | zero =>
        refine Expansion.Agree.resolveWith (fun name ps target hname hnew => ?_) t
        have hlt := Env.length_unopened_lt hname hnew
        omega
      | succ depth' =>
        refine Expansion.Agree.resolveWith (fun name ps target hname hnew => ?_) t
        have hlt := Env.length_unopened_lt hname hnew
        exact ih name hname hnew (by omega) (by omega) ps target

/-- Whatever is to be done beyond the room for expansions, it is never done. -/
theorem resolveWithin_eq (beyond : List String → Expansion) (opened params : List String)
    (t : TypeExpr) : resolveWithin env ambient beyond env.size opened params t =
      resolveIn env ambient env.size opened params t := by
  have hroom := env.length_unopened_le opened
  rw [resolveIn_eq, resolveWithin_congr hroom hroom]

/-- Resolution as a recursion without limit: the target of an alias is resolved like any other
expression, while the alias is being expanded. -/
theorem resolveIn_unfold (opened params : List String) (t : TypeExpr) :
    resolveIn env ambient env.size opened params t =
      resolveWith env ambient
        (fun name ps target => resolveIn env ambient env.size (opened ++ [name]) ps target)
        opened params t := by
  have hroom := env.length_unopened_le opened
  have hmore : resolveIn env ambient env.size opened params t =
      resolveIn env ambient (env.size + 1) opened params t := by
    rw [resolveIn_eq, resolveIn_eq, resolveWithin_congr hroom (Nat.le_succ_of_le hroom)]
  rw [hmore, resolveIn]

end Room

end Statute
