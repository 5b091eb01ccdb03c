import Statute.Proofs.Check.Aliases

/-!
# Resolution finds what types stand for

`Stands` says by rules what a type expression stands for, without any bookkeeping of the aliases
being expanded. In an accepted program resolution agrees with it: a type that resolves with nothing
reported is what the expression stands for, `Env.Orderly.passes_resolveIn`, and what an expression
stands for is what it resolves to, whatever is reported about it, `Env.Orderly.returns_resolveIn`.

No alias of an accepted program leads back to itself, so that no expansion is cut short: the aliases
being expanded all lie `Above` those that are mentioned, and do not matter, `Env.resolve_unfold`.
-/

namespace Statute

open Checking List

variable {name : String} {t : TypeExpr} {ty : Ty} {names : List String}

/-!
## More type parameters
-/

/-- The name is neither that of a declared nor that of a built-in type. -/
def Env.Fresh (env : Env) (name : String) : Prop :=
  env.lookup name = none ∧ Prim.ofName? name = none

variable {args : List TypeExpr} {ambient : List String}

section Weaken

variable {env : Env} {params params' : List String}

/-- A reference to a type is none to a parameter that is added, if that is fresh. -/
theorem not_param_of_fresh (hfresh : ∀ v ∈ params', v ∉ params → env.Fresh v)
    (h : ¬(args = [] ∧ name ∈ params)) (hname : ¬ env.Fresh name) :
    ¬(args = [] ∧ name ∈ params') := by
  rintro ⟨hargs, hmem⟩
  exact hname (hfresh name hmem fun hold => h ⟨hargs, hold⟩)

theorem not_fresh_of_lookup {d : TypeDef} (h : env.lookup name = some d) : ¬ env.Fresh name := by
  rintro ⟨hnone, -⟩
  cases h.symm.trans hnone

theorem not_fresh_of_builtin {p : Prim} (h : Prim.ofName? name = some p) : ¬ env.Fresh name := by
  rintro ⟨-, hnone⟩
  cases h.symm.trans hnone

/-- Further type parameters with fresh names change nothing. -/
theorem Stands.weaken (h : Stands env params t ty) (hsub : ∀ v ∈ params, v ∈ params')
    (hfresh : ∀ v ∈ params', v ∉ params → env.Fresh v) : Stands env params' t ty := by
  induction t using TypeExpr.induction generalizing ty with
  | h t ih =>
    cases t with
    | var span v =>
      cases h with
      | var hv => exact .var (hsub _ hv)
    | named span name args =>
      have hargs {tys : List Ty} (h : StandEach env params args tys) : StandEach env params' args tys :=
        h.imp fun a ha ty hty => ih a ha hty
      cases h with
      | param hname => exact .param (hsub _ hname)
      | builtin hname hp =>
        exact .builtin (not_param_of_fresh hfresh hname (not_fresh_of_builtin hp)) hp
      | struct hname hp hd hbody htys hlen =>
        exact .struct (not_param_of_fresh hfresh hname (not_fresh_of_lookup hd)) hp hd hbody
          (hargs htys) hlen
      | enum hname hp hd hbody htys hlen =>
        exact .enum (not_param_of_fresh hfresh hname (not_fresh_of_lookup hd)) hp hd hbody
          (hargs htys) hlen
      | synonym hname hp hd hbody htys hlen ht =>
        exact .synonym (not_param_of_fresh hfresh hname (not_fresh_of_lookup hd)) hp hd hbody
          (hargs htys) hlen ht
    | _ =>
      obtain ⟨tys, htys, rfl⟩ := h.exists_build rfl
      exact .build rfl (htys.imp fun u hu ty hty => ih u hu hty)

theorem Stands.append (h : Stands env params t ty) (hfresh : ∀ v ∈ ambient, env.Fresh v) :
    Stands env (params ++ ambient) t ty := by
  refine h.weaken (fun v hv => mem_append_left _ hv) fun v hv hnew => ?_
  rcases mem_append.mp hv with hv | hv
  · exact absurd hv hnew
  · exact hfresh v hv

end Weaken

variable {names' opened' : List String}

/-!
## One level of resolution
-/

section Level

variable {env : Env} {ambient opened params : List String} {expand : Expansion}

/-- What is known of the aliases among `names`: none of them is being expanded, and `P` holds of
their expansions. -/
def Expansion.Serves (env : Env) (opened : List String) (names : List String)
    (P : String → List String → TypeExpr → Prop) : Prop :=
  ∀ name ∈ names, ∀ ps target, env.IsAlias name ps target → name ∉ opened ∧ P name ps target

theorem Expansion.Serves.mono {P : String → List String → TypeExpr → Prop}
    (h : Serves env opened names P) (hsub : names' ⊆ names) : Serves env opened names' P :=
  fun name hname => h name (hsub hname)

/-- Where nothing is reported, an alias expands to what its target stands for. -/
abbrev Expansion.Finds (env : Env) (opened : List String) (expand : Expansion)
    (names : List String) : Prop :=
  Serves env opened names fun name ps target =>
    Passes (expand name ps target) (Stands env ps target)

/-- An alias expands to what its target stands for. -/
abbrev Expansion.Reaches (env : Env) (opened : List String) (expand : Expansion)
    (names : List String) : Prop :=
  Serves env opened names fun name ps target =>
    ∀ t, Stands env ps target t → Returns (expand name ps target) (· = t)

theorem passes_resolveDeclared {span} {name : Ident} {tys}
    (hexpand : Expansion.Finds env opened expand [name.name])
    (hparam : ¬(args = [] ∧ name.name ∈ params)) (hprim : Prim.ofName? name.name = none) :
    Passes (resolveDeclared env expand opened span name tys) fun t =>
      StandEach env params args tys → Stands env params (.named span name args) t := by
  unfold resolveDeclared Env.instantiate
  cases hd : env.lookup name.name with
  | none => exact .fault (.pure _)
  | some d =>
    by_cases harity : (d.params.length == tys.length) = true
    · simp only [if_pos harity]
      have hlen := beq_iff_eq.mp harity
      cases hbody : d.body with
      | struct parent fields =>
        exact .pure fun hargs => .struct hparam hprim hd hbody hargs hlen
      | enum info => exact .pure fun hargs => .enum hparam hprim hd hbody hargs hlen
      | synonym target =>
        obtain ⟨hnew, htarget⟩ := hexpand _ mem_cons_self _ _ ⟨d, hd, rfl, hbody⟩
        simp only [contains_eq_mem, hnew, decide_false]
        refine htarget.bind fun t => .pure fun ht hargs => ?_
        exact .synonym hparam hprim hd hbody hargs hlen ht
    · simp only [if_neg harity]
      exact .fault (.pure _)

/-- What resolves with nothing reported is what the expression stands for. -/
theorem passes_resolveWith (hexpand : Expansion.Finds env opened expand (t.mentions params)) :
    Passes (resolveWith env ambient expand opened params t) (Stands env (params ++ ambient) t) := by
  induction t using TypeExpr.induction with
  | h t ih =>
    have hall {ts : List TypeExpr} (hts : ts ⊆ t.components)
        (hexpand : Expansion.Finds env opened expand (mentionsAll params ts)) :
        Passes (resolveAllWith env ambient expand opened params ts)
          (StandEach env (params ++ ambient) ts) := by
      induction ts with
      | nil => exact .pure .nil
      | cons u us ihs =>
        obtain ⟨hu, hus⟩ := cons_subset.mp hts
        refine (ih u hu (hexpand.mono (subset_append_left _ _))).bind fun ty => ?_
        refine (ihs hus (hexpand.mono (subset_append_right _ _))).bind fun tys => ?_
        exact .pure fun htys hty => .cons hty htys
    cases t with
    | var span v =>
      rw [resolveWith]
      split
      next hv => exact .pure (.var (by simpa using hv))
      · exact .fault (.pure _)
    | named span name args =>
      rw [resolveWith]
      split
      next hparam =>
        obtain ⟨hargs, hname⟩ := Bool.and_eq_true_iff.mp hparam
        cases isEmpty_iff.mp hargs
        exact .pure (.param (by simpa using hname))
      next hparam =>
        have hparam' : ¬(args = [] ∧ name.name ∈ params ++ ambient) := by simpa using hparam
        cases hprim : Prim.ofName? name.name with
        | some p => exact .pure (.builtin hparam' hprim)
        | none =>
          have hown : ¬(args = [] ∧ name.name ∈ params) :=
            fun h => hparam' ⟨h.1, mem_append_left _ h.2⟩
          rw [mentions_named hown hprim] at hexpand
          have hargs := hall (List.Subset.refl _) (hexpand.mono (subset_cons_self _ _))
          exact hargs.bind fun tys => passes_resolveDeclared (hexpand.mono (by simp)) hparam' hprim
    | _ =>
      rw [TypeExpr.mentions_compound rfl] at hexpand
      rw [resolveWith_compound rfl]
      refine (hall (List.Subset.refl _) hexpand).bind fun tys => ?_
      exact (tame_review _ tys).onlyAdds.gives.bind fun _ => .pure fun _ htys => .build rfl htys

/-- What an expression stands for is what it resolves to, whatever is reported. -/
theorem returns_resolveWith (h : Stands env (params ++ ambient) t ty)
    (hexpand : Expansion.Reaches env opened expand (t.mentions params)) :
    Returns (resolveWith env ambient expand opened params t) (· = ty) := by
  induction t using TypeExpr.induction generalizing ty with
  | h t ih =>
    have hall {ts : List TypeExpr} {tys : List Ty} (hts : ts ⊆ t.components)
        (htys : StandEach env (params ++ ambient) ts tys)
        (hexpand : Expansion.Reaches env opened expand (mentionsAll params ts)) :
        Returns (resolveAllWith env ambient expand opened params ts) (· = tys) := by
      induction ts generalizing tys with
      | nil =>
        cases htys
        exact .pure rfl
      | cons u us ihs =>
        obtain ⟨hu, hus⟩ := cons_subset.mp hts
        cases htys with
        | cons hty htys =>
          refine (ih u hu hty (hexpand.mono (subset_append_left _ _))).bind ?_
          rintro _ rfl
          refine (ihs hus htys (hexpand.mono (subset_append_right _ _))).bind ?_
          rintro _ rfl
          exact .pure rfl
    cases t with
    | var span v =>
      cases h with
      | var hv =>
        rw [resolveWith, if_pos (by simpa using hv)]
        exact .pure rfl
    | named span name args =>
      -- what is looked up under the name
      have hdeclared {tys : List Ty} (hname : ¬(args = [] ∧ name.name ∈ params ++ ambient))
          (hp : Prim.ofName? name.name = none) (htys : StandEach env (params ++ ambient) args tys)
          (hty : Expansion.Reaches env opened expand [name.name] →
            Returns (resolveDeclared env expand opened span name tys) (· = ty)) :
          Returns (resolveWith env ambient expand opened params (.named span name args))
            (· = ty) := by
        rw [resolveWith, if_neg (by simpa using hname), hp]
        rw [mentions_named (fun h => hname ⟨h.1, mem_append_left _ h.2⟩) hp] at hexpand
        refine (hall (List.Subset.refl _) htys (hexpand.mono (subset_cons_self _ _))).bind ?_
        rintro _ rfl
        exact hty (hexpand.mono (by simp))
      cases h with
      | param hname =>
        rw [resolveWith, if_pos (by simpa using hname)]
        exact .pure rfl
      | builtin hname hp =>
        rw [resolveWith, if_neg (by simpa using hname), hp]
        exact .pure rfl
      | struct hname hp hd hbody htys hlen | enum hname hp hd hbody htys hlen =>
        refine hdeclared hname hp htys fun _ => ?_
        simp only [resolveDeclared, Env.instantiate, hd, hbody, hlen, BEq.rfl, if_true]
        exact .pure rfl
      | synonym hname hp hd hbody htys hlen ht =>
        refine hdeclared hname hp htys fun hexpand => ?_
        obtain ⟨hnew, htarget⟩ := hexpand _ mem_cons_self _ _ ⟨_, hd, rfl, hbody⟩
        simp only [resolveDeclared, Env.instantiate, hd, hbody, hlen, BEq.rfl, if_true,
          contains_eq_mem, hnew, decide_false]
        refine (htarget _ ht).bind ?_
        rintro _ rfl
        exact .pure rfl
    | _ =>
      obtain ⟨tys, htys, rfl⟩ := h.exists_build rfl
      rw [TypeExpr.mentions_compound rfl] at hexpand
      rw [resolveWith_compound rfl]
      refine (hall (List.Subset.refl _) htys hexpand).bind ?_
      rintro _ rfl
      exact (Returns.any _).bind fun _ _ => .pure rfl

/-- Both expansions are the same, and none of the aliases among `names` is being expanded for either
of them. -/
abbrev Expansion.Same (env : Env) (opened opened' : List String) (expand expand' : Expansion)
    (names : List String) : Prop :=
  Serves env (opened ++ opened') names fun name ps target =>
    expand name ps target = expand' name ps target

/-- As long as no alias is met inside itself, those being expanded do not matter. -/
theorem resolveWith_of_same {expand' : Expansion}
    (h : Expansion.Same env opened opened' expand expand' (t.mentions params)) :
    resolveWith env ambient expand opened params t =
      resolveWith env ambient expand' opened' params t := by
  refine resolveWith_eq fun name hname => resolveDeclared_eq fun ps target ha => ?_
  obtain ⟨hnew, hsame⟩ := h name.name hname ps target ha
  rw [mem_append, not_or] at hnew
  exact ⟨fun hmem => absurd hmem hnew.1, fun _ => ⟨hnew.2, hsame⟩⟩

end Level

variable {ps : List String} {target : TypeExpr}

/-!
## Resolution
-/

namespace Env

variable {env : Env} {opened params : List String}

/-- Each of the aliases `opened` leads to each alias among `names`. -/
def Above (env : Env) (opened names : List String) : Prop :=
  ∀ a ∈ opened, ∀ b ∈ names, (∃ ps target, env.IsAlias b ps target) →
    Relation.TransGen env.Refers a b

namespace Above

theorem nil (names : List String) : env.Above [] names := fun _ ha => nomatch ha

/-- What lies beneath an alias that leads nowhere back is not being expanded. -/
theorem not_mem (h : env.Above opened names) (hacyclic : env.Acyclic) (hname : name ∈ names)
    (ha : env.IsAlias name ps target) : name ∉ opened :=
  fun hopen => hacyclic name (h name hopen name hname ⟨ps, target, ha⟩)

/-- The expansion of an alias that is mentioned. -/
theorem expand (h : env.Above opened names) (hname : name ∈ names) (ha : env.IsAlias name ps target)
    :
    env.Above (opened ++ [name]) (target.mentions ps) := by
  intro a hmem b hb halias
  have hstep : env.Refers name b := ⟨ps, target, ha, hb, halias⟩
  rcases mem_append.mp hmem with hmem | hmem
  · exact (h a hmem name hname ⟨ps, target, ha⟩).tail hstep
  · grind

end Above

section Acyclic

variable (hacyclic : env.Acyclic) {ambient params : List String} {t : TypeExpr}

include hacyclic

/-- It does not matter which aliases above are being expanded. -/
theorem resolveIn_of_above (h : env.Above opened (t.mentions params))
    (h' : env.Above opened' (t.mentions params)) :
    resolveIn env ambient env.size opened params t =
      resolveIn env ambient env.size opened' params t := by
  induction opened using env.opened_induction generalizing opened' params t with
  | _ opened ih =>
    rw [resolveIn_unfold, resolveIn_unfold]
    refine resolveWith_of_same fun name hname ps target ha => ?_
    have hnew := h.not_mem hacyclic hname ha
    have hnew' := h'.not_mem hacyclic hname ha
    refine ⟨fun hmem => (mem_append.mp hmem).elim hnew hnew', ?_⟩
    exact ih name (mem_names_of_lookup ha.choose_spec.1) hnew (h.expand hname ha)
      (h'.expand hname ha)

/-- Without cycles, an expression is resolved with the targets of aliases resolved by themselves. -/
theorem resolve_unfold : resolve env ambient params t =
    resolveWith env ambient (fun _ ps target => resolve env ambient ps target) [] params t := by
  refine (resolveIn_unfold [] params t).trans ?_
  refine resolveWith_of_same fun name hname ps target ha => ⟨not_mem_nil, ?_⟩
  exact resolveIn_of_above hacyclic ((Above.nil _).expand hname ha) (Above.nil _)

end Acyclic

/-- The definitions can be resolved: aliases do not lead back to themselves and stand for something,
and no definition has the name of a built-in type. -/
structure Orderly (env : Env) : Prop where
  acyclic : env.Acyclic
  targets : ∀ name ps target, env.IsAlias name ps target → ∃ t, Stands env ps target t
  declared : ∀ name d, env.lookup name = some d → Prim.ofName? name = none

/-- Resolution with nothing reported, if what the targets of aliases stand for does not depend on
the parameters `ambient`. -/
theorem passes_resolveIn_of_acyclic (hacyclic : env.Acyclic) (hambient : ∀
      name ps target t, env.IsAlias name ps target → Stands env (ps ++ ambient) target t → Stands
      env ps target t) (h : env.Above opened (t.mentions params)) :
    Passes (resolveIn env ambient env.size opened params t) (Stands env (params ++ ambient) t) := by
  induction opened using env.opened_induction generalizing params t with
  | _ opened ih =>
    rw [resolveIn_unfold]
    refine passes_resolveWith fun name hname ps target ha => ?_
    have hnew := h.not_mem hacyclic hname ha
    have hdefined : name ∈ env.defs.map (·.name) := mem_names_of_lookup ha.choose_spec.1
    have htarget := ih name hdefined hnew (h.expand hname ha)
    exact ⟨hnew, htarget.mono fun t ht => hambient name ps target t ha ht⟩

namespace Orderly

variable (henv : env.Orderly) {ambient : List String} (hfresh : ∀ v ∈ ambient, env.Fresh v)

include henv hfresh

/-- A type that resolves with nothing reported is what the expression stands for. -/
theorem passes_resolveIn (h : env.Above opened (t.mentions params)) :
    Passes (resolveIn env ambient env.size opened params t) (Stands env (params ++ ambient) t) := by
  refine passes_resolveIn_of_acyclic henv.acyclic (fun name ps target t ha ht => ?_) h
  obtain ⟨u, hu⟩ := henv.targets name ps target ha
  rw [ht.unique (hu.append hfresh)]
  exact hu

/-- What an expression stands for is what it resolves to. -/
theorem returns_resolveIn (h : env.Above opened (t.mentions params))
    (ht : Stands env (params ++ ambient) t ty) :
    Returns (resolveIn env ambient env.size opened params t) (· = ty) := by
  induction opened using env.opened_induction generalizing params t ty with
  | _ opened ih =>
    rw [resolveIn_unfold]
    refine returns_resolveWith ht fun name hname ps target ha => ?_
    have hnew := h.not_mem henv.acyclic hname ha
    have hdefined : name ∈ env.defs.map (·.name) := mem_names_of_lookup ha.choose_spec.1
    refine ⟨hnew, fun u hu => ?_⟩
    exact ih name hdefined hnew (h.expand hname ha) (hu.append hfresh)

omit hfresh

/-- What a type outside of functions resolves to with nothing reported is what it stands for. -/
theorem stands_of_gives (h : Gives (resolve env [] [] t) ty) : Stands env [] t ty := by
  have hfresh : ∀ v ∈ ([] : List String), env.Fresh v := by simp
  exact (henv.passes_resolveIn hfresh (Above.nil (t.mentions []))).result ty h

/-- What a type outside of functions stands for is what it resolves to. -/
theorem returns_resolve (h : Stands env [] t ty) : Returns (resolve env [] [] t) (· = ty) := by
  have hfresh : ∀ v ∈ ([] : List String), env.Fresh v := by simp
  exact henv.returns_resolveIn hfresh (Above.nil (t.mentions [])) h

end Orderly

end Env

/-- The definitions of an accepted program are orderly. -/
theorem orderly_of_check {p : Program} {options} {cp : CheckedProgram}
    (h : p.check options = .ok cp) : cp.env.Orderly := by
  have hacyclic := acyclic_of_check h
  refine ⟨hacyclic, fun name ps target ha => ?_, fun name d hd => (lookup_of_check h hd).2.2⟩
  -- the alias itself leads to whatever its target mentions
  have habove : cp.env.Above [name] (target.mentions ps) :=
    (Env.Above.nil [name]).expand mem_cons_self ha
  have hpasses : Passes (resolveIn cp.env [] cp.env.size [name] ps target)
      (Stands cp.env (ps ++ []) target) :=
    Env.passes_resolveIn_of_acyclic hacyclic
      (fun _ ps target t _ ht => by rwa [append_nil] at ht) habove
  have hstands := (targetGoesThrough_of_check h ha).result hpasses
  rw [append_nil] at hstands
  exact ⟨_, hstands⟩

end Statute
