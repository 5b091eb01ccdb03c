import Statute.Proofs.Check.Resolution

/-!
# Aliases are transparent

Resolution turns the target of an alias into a type first and puts the types of the arguments in
place of the parameters afterwards. One may as well replace the parameters in the target as it is
written, all at once, by the arguments as they are written, and resolve what comes out:
`Stands.substitute`. The argument lists may permute the type parameters at hand, and the target may
use other aliases with arguments of its own, which is where substitutions are composed,
`Binding.apply_apply_ofLists`.

So unfolding aliases in a type expression, anywhere and any number of times, does not change what it
resolves to, `resolve_unfolds`.
-/

namespace Statute

open Checking List

/-!
## Substitution in types
-/

/-- The type has no other parameters than these. -/
def Ty.Over (params : List String) (t : Ty) : Prop := t.Every fun u => ∀ v, u = .var v → v ∈ params

variable {params : List String} {args : List Ty} {v : String} {t : Ty}

namespace Binding

/-- Each parameter has a type, if there are enough. -/
theorem exists_get?_ofLists (hlen : params.length = args.length) (hv : v ∈ params) :
    ∃ t, (ofLists params args).get? v = some t := by
  rw [get?_ofLists]
  refine Option.ne_none_iff_exists'.mp fun hnone => ?_
  rw [lookup_eq_none_iff] at hnone
  have hkeys : v ∈ (params.zip args).map Prod.fst := by rwa [map_fst_zip hlen.le]
  obtain ⟨e, he, rfl⟩ := mem_map.mp hkeys
  simpa using hnone e (mem_reverse.mpr he)

theorem get?_ofLists_applyAll (b : Binding) (params : List String) (args : List Ty) (v : String) :
    (ofLists params (b.applyAll args)).get? v = ((ofLists params args).get? v).map b.apply := by
  have hmap (es : List (String × Ty)) :
      (es.map (Prod.map id b.apply)).lookup v = (es.lookup v).map b.apply := by
    induction es with
    | nil => rfl
    | cons e es ih => grind
  rw [get?_ofLists, get?_ofLists, applyAll_eq_map, ← hmap, zip_map_right, map_reverse]

/-- A substitution after one for all parameters of a type: it acts on what was put in. -/
theorem apply_apply_ofLists (b : Binding) (hlen : params.length = args.length) (ht : t.Over params)
    :
    b.apply ((ofLists params args).apply t) = (ofLists params (b.applyAll args)).apply t := by
  induction t using Ty.induction with
  | h t ih =>
    have hcomps : ∀ u ∈ t.components, b.apply ((ofLists params args).apply u) =
        (ofLists params (b.applyAll args)).apply u :=
      fun u hu => ih u hu ((Ty.Every.iff_components.mp ht).2 u hu)
    cases t with
    | var v =>
      obtain ⟨u, hu⟩ := exists_get?_ofLists hlen (ht.self v rfl)
      rw [apply, apply, get?_ofLists_applyAll, hu]
      rfl
    | struct n ts =>
      have hts : (ts.map (ofLists params args).apply).map b.apply =
          ts.map (ofLists params (b.applyAll args)).apply :=
        map_map.trans (map_congr_left hcomps)
      rw [apply, apply, apply, applyAll_eq_map b, applyAll_eq_map, applyAll_eq_map (ofLists _ _), hts]
    | refine | temporal | array | positive | nonEmpty =>
      rw [apply, apply, apply, hcomps _ mem_cons_self]
    | union l r =>
      rw [apply, apply, apply, hcomps l mem_cons_self,
        hcomps r (mem_cons_of_mem _ mem_cons_self)]
    | _ => rfl

end Binding

/-- Parameters that are replaced leave no others than what is put in has, apart from those of
`ambient`. -/
theorem Ty.Over.apply_ofLists_append {ps ambient : List String} (ht : t.Over (ps ++ ambient))
    (hlen : ps.length = args.length) (hargs : ∀ a ∈ args, a.Over (params ++ ambient)) :
    ((Binding.ofLists ps args).apply t).Over (params ++ ambient) := by
  refine Ty.Every.replace (fun u _ hvar v hv => ?_) (fun v hv => ?_) ht
  · -- a part that is no parameter does not become one
    cases u with
    | var w => exact absurd rfl (hvar w)
    | _ => cases hv
  · rw [Binding.apply]
    cases hget : (Binding.ofLists ps args).get? v with
    | some u => exact Binding.every_ofLists hargs v u hget
    | none =>
      rcases mem_append.mp (hv v rfl) with hps | hambient
      · grind [Binding.exists_get?_ofLists]
      refine Ty.Every.leaf rfl fun w hw => ?_
      cases hw
      exact mem_append_right _ hambient

/-- Parameters that are all replaced leave no others than what is put in has. -/
theorem Ty.Over.apply_ofLists {ps : List String} (ht : t.Over ps) (hlen : ps.length = args.length)
    (hargs : ∀ a ∈ args, a.Over params) : ((Binding.ofLists ps args).apply t).Over params := by
  rw [← append_nil ps] at ht
  rw [← append_nil params] at hargs ⊢
  exact ht.apply_ofLists_append hlen hargs

mutual

theorem Stands.over {env params} {t : TypeExpr} {ty : Ty} (h : Stands env params t ty) :
    ty.Over params := by
  match h with
  | .prim | .enum .. | .citation | .validDate | .moneyIn | .builtin .. =>
    exact .leaf rfl fun v hv => nomatch hv
  | .var hv => exact .leaf rfl fun w hw => by cases hw; exact hv
  | .param hname => exact .leaf rfl fun w hw => by cases hw; exact hname
  | .struct _ _ _ _ hargs _ => exact Ty.Every.struct_iff.mpr ⟨fun _ hv => (nomatch hv), hargs.over⟩
  | .synonym _ _ _ _ hargs hlen ht => exact ht.over.apply_ofLists hlen hargs.over
  | .refine h | .temporal h | .array h | .positive h | .nonEmpty h =>
    exact Ty.Every.iff_components.mpr ⟨fun _ hv => (nomatch hv), fun u hu =>
      mem_singleton.mp hu ▸ h.over⟩
  | .union hl hr => exact Ty.Every.union_iff.mpr ⟨fun _ hv => (nomatch hv), hl.over, hr.over⟩

theorem StandEach.over {env params} {ts : List TypeExpr} {tys} (h : StandEach env params ts tys) :
    ∀ ty ∈ tys, ty.Over params := by
  match h with
  | .nil => exact fun ty hty => nomatch hty
  | .cons ht hts => exact forall_mem_cons.mpr ⟨ht.over, hts.over⟩

end

/-!
## Substitution in type expressions
-/

mutual

/-- The expression with type parameters replaced by other expressions, all at once. -/
def TypeExpr.substitute (σ : List (String × TypeExpr)) : TypeExpr → TypeExpr
  | .var span v => (σ.lookup v.name).getD (.var span v)
  | .named span name [] => (σ.lookup name.name).getD (.named span name [])
  | .named span name (a :: args) => .named span name (a.substitute σ :: substituteAll σ args)
  | .refine span base lo hi => .refine span (base.substitute σ) lo hi
  | .temporal span inner opens closes => .temporal span (inner.substitute σ) opens closes
  | .array span inner => .array span (inner.substitute σ)
  | .positive span inner => .positive span (inner.substitute σ)
  | .nonEmpty span inner => .nonEmpty span (inner.substitute σ)
  | .union span a b => .union span (a.substitute σ) (b.substitute σ)
  | .prim span p => .prim span p
  | .citation span c => .citation span c
  | .validDate span after before => .validDate span after before
  | .moneyIn span code => .moneyIn span code

/-- Substitution in several expressions. -/
def substituteAll (σ : List (String × TypeExpr)) : List TypeExpr → List TypeExpr
  | [] => []
  | t :: ts => t.substitute σ :: substituteAll σ ts

end

section Substitute

variable {env : Env} {params context : List String} {args : List TypeExpr} {tys : List Ty}

/-- A reference to a declared or built-in type stays one. -/
theorem substitute_named {span : Span} {name : Ident} {ts : List TypeExpr}
    (h : ¬(ts = [] ∧ name.name ∈ params)) :
    (TypeExpr.named span name ts).substitute (params.zip args) =
      .named span name (substituteAll (params.zip args) ts) := by
  cases ts with
  | cons t ts => rfl
  | nil =>
    have hnone : (params.zip args).lookup name.name = none := by
      refine lookup_eq_none_iff.mpr fun e he => ?_
      have hmem := (of_mem_zip he).1
      have hne : name.name ≠ e.1 := fun heq => h ⟨rfl, heq ▸ hmem⟩
      simpa using hne
    rw [TypeExpr.substitute, hnone]
    rfl

/-- The expression and the type that take the place of a parameter belong together. -/
theorem StandEach.exists_lookup (hdistinct : params.Nodup) (h : StandEach env context args tys)
    (hlen : params.length = tys.length) (hv : v ∈ params) :
    ∃ a t, (params.zip args).lookup v = some a ∧
      (Binding.ofLists params tys).get? v = some t ∧ Stands env context a t := by
  rw [Binding.get?_ofLists]
  induction params generalizing args tys with
  | nil => cases hv
  | cons p params ih =>
    match args, tys, h with
    | _, _, .nil => cases hlen
    | a :: args, ty :: tys, .cons ha hargs =>
      obtain ⟨hp, hdistinct⟩ := nodup_cons.mp hdistinct
      rw [zip_cons_cons, zip_cons_cons, reverse_cons, lookup_append,
        lookup_cons, lookup_cons]
      by_cases heq : v = p
      · -- the parameter occurs only once
        have hnone : (params.zip tys).reverse.lookup v = none := by
          refine lookup_eq_none_iff.mpr fun e he => ?_
          have hmem := (of_mem_zip (mem_reverse.mp he)).1
          have hne : v ≠ e.1 := fun hve => hp (heq ▸ hve ▸ hmem)
          simpa using hne
        rw [hnone, heq, BEq.rfl]
        exact ⟨a, ty, rfl, rfl, ha⟩
      · grind

mutual

/-- Substitution before resolution does the same as substitution after it. -/
theorem Stands.substitute {t : TypeExpr} {ty : Ty} (h : Stands env params t ty)
    (hdistinct : params.Nodup) (hfresh : ∀ v ∈ context, env.Fresh v)
    (hargs : StandEach env context args tys) (hlen : params.length = tys.length) :
    Stands env context (t.substitute (params.zip args)) ((Binding.ofLists params tys).apply ty) := by
  have hput {v : String} (hv : v ∈ params) (other : TypeExpr) :
      Stands env context (((params.zip args).lookup v).getD other)
        ((Binding.ofLists params tys).apply (.var v)) := by
    obtain ⟨a, t, ha, ht, hstands⟩ := hargs.exists_lookup hdistinct hlen hv
    rw [ha, Binding.apply, ht]
    exact hstands
  -- a reference to a type is none to a parameter at hand, as those are fresh
  have href {name : String} (ts : List TypeExpr) (hname : ¬ env.Fresh name) :
      ¬(ts = [] ∧ name ∈ context) := fun h => hname (hfresh name h.2)
  match h with
  | .prim => exact .prim
  | .var hv => exact hput hv _
  | .param hname => exact hput hname _
  | .builtin hname hp =>
    rw [substitute_named hname]
    exact .builtin (href _ (not_fresh_of_builtin hp)) hp
  | .struct hname hp hd hbody hts hsame =>
    rw [substitute_named hname]
    refine .struct (href _ (not_fresh_of_lookup hd)) hp hd hbody
      (hts.substitute hdistinct hfresh hargs hlen) ?_
    rwa [Binding.length_applyAll]
  | .enum hname hp hd hbody hts hsame =>
    rw [substitute_named hname]
    refine .enum (href _ (not_fresh_of_lookup hd)) hp hd hbody
      (hts.substitute hdistinct hfresh hargs hlen) ?_
    rwa [Binding.length_applyAll]
  | .synonym hname hp hd hbody hts hsame ht =>
    rw [substitute_named hname, Binding.apply_apply_ofLists _ hsame ht.over]
    refine .synonym (href _ (not_fresh_of_lookup hd)) hp hd hbody
      (hts.substitute hdistinct hfresh hargs hlen) ?_ ht
    rwa [Binding.length_applyAll]
  | .refine h => exact .refine (h.substitute hdistinct hfresh hargs hlen)
  | .citation => exact .citation
  | .temporal h => exact .temporal (h.substitute hdistinct hfresh hargs hlen)
  | .array h => exact .array (h.substitute hdistinct hfresh hargs hlen)
  | .positive h => exact .positive (h.substitute hdistinct hfresh hargs hlen)
  | .nonEmpty h => exact .nonEmpty (h.substitute hdistinct hfresh hargs hlen)
  | .validDate => exact .validDate
  | .union hl hr =>
    exact .union (hl.substitute hdistinct hfresh hargs hlen)
      (hr.substitute hdistinct hfresh hargs hlen)
  | .moneyIn => exact .moneyIn

theorem StandEach.substitute {ts : List TypeExpr} {us : List Ty} (h : StandEach env params ts us)
    (hdistinct : params.Nodup) (hfresh : ∀ v ∈ context, env.Fresh v)
    (hargs : StandEach env context args tys) (hlen : params.length = tys.length) :
    StandEach env context (substituteAll (params.zip args) ts)
      ((Binding.ofLists params tys).applyAll us) := by
  match h with
  | .nil => exact .nil
  | .cons ht hts =>
    exact .cons (ht.substitute hdistinct hfresh hargs hlen)
      (hts.substitute hdistinct hfresh hargs hlen)

end

end Substitute

/-!
## Unfolding
-/

/-- The second expression is the first one with one reference to an alias, anywhere in it, replaced
by the target of the alias with the arguments in place of the parameters. -/
inductive Unfolds (env : Env) : TypeExpr → TypeExpr → Prop where
  | here {span name args params target} (ha : env.IsAlias name.name params target) :
      Unfolds env (.named span name args) (target.substitute (params.zip args))
  | arg {span name before a a' after} (h : Unfolds env a a') :
      Unfolds env (.named span name (before ++ a :: after)) (.named span name (before ++ a' :: after))
  | refine {span base base' lo hi} (h : Unfolds env base base') :
      Unfolds env (.refine span base lo hi) (.refine span base' lo hi)
  | temporal {span inner inner' opens closes} (h : Unfolds env inner inner') :
      Unfolds env (.temporal span inner opens closes) (.temporal span inner' opens closes)
  | array {span inner inner'} (h : Unfolds env inner inner') :
      Unfolds env (.array span inner) (.array span inner')
  | positive {span inner inner'} (h : Unfolds env inner inner') :
      Unfolds env (.positive span inner) (.positive span inner')
  | nonEmpty {span inner inner'} (h : Unfolds env inner inner') :
      Unfolds env (.nonEmpty span inner) (.nonEmpty span inner')
  | left {span a a' b} (h : Unfolds env a a') : Unfolds env (.union span a b) (.union span a' b)
  | right {span a b b'} (h : Unfolds env b b') : Unfolds env (.union span a b) (.union span a b')

theorem StandEach.replace {env} {before after : List TypeExpr} {a a' : TypeExpr} {tys}
    (h : StandEach env params (before ++ a :: after) tys)
    (ha : ∀ ty, Stands env params a ty → Stands env params a' ty) :
    StandEach env params (before ++ a' :: after) tys := by
  induction before generalizing tys with
  | nil =>
    cases h with
    | cons ht hts => exact .cons (ha _ ht) hts
  | cons b before ih =>
    cases h with
    | cons ht hts => exact .cons ht (ih hts)

/-- Unfolding an alias does not change what an expression stands for. -/
theorem Unfolds.stands {env : Env} (henv : env.Orderly)
    (hdistinct : ∀ name ps target, env.IsAlias name ps target → ps.Nodup) {context}
    (hfresh : ∀ v ∈ context, env.Fresh v) {t t' : TypeExpr} (h : Unfolds env t t') {ty}
    (ht : Stands env context t ty) : Stands env context t' ty := by
  induction h generalizing ty with
  | here ha =>
    have hnodup := hdistinct _ _ _ ha
    obtain ⟨d, hd, rfl, hbody⟩ := ha
    cases ht with
    | param hname => exact absurd (hfresh _ hname) (not_fresh_of_lookup hd)
    | builtin _ hp => cases hp.symm.trans (henv.declared _ _ hd)
    | struct _ _ hd' hbody' | enum _ _ hd' hbody' => grind
    | synonym _ _ hd' hbody' hargs hlen htarget =>
      cases hd.symm.trans hd'
      cases hbody.symm.trans hbody'
      exact htarget.substitute hnodup hfresh hargs hlen
  | arg _ ih =>
    -- with arguments the name is no type parameter, before and after
    have hname {name : String} {before after : List TypeExpr} {a : TypeExpr} :
        ¬(before ++ a :: after = [] ∧ name ∈ context) := by simp
    generalize hts : _ ++ _ :: _ = ts at ht
    cases ht with
    | param => simp at hts
    | builtin _ hp => exact .builtin hname hp
    | struct _ hp hd hbody hargs hlen =>
      subst hts
      exact .struct hname hp hd hbody (hargs.replace fun _ => ih) hlen
    | enum _ hp hd hbody hargs hlen =>
      subst hts
      exact .enum hname hp hd hbody (hargs.replace fun _ => ih) hlen
    | synonym _ hp hd hbody hargs hlen htarget =>
      subst hts
      exact .synonym hname hp hd hbody (hargs.replace fun _ => ih) hlen htarget
  | refine _ ih =>
    cases ht with
    | refine ht => exact .refine (ih ht)
  | temporal _ ih =>
    cases ht with
    | temporal ht => exact .temporal (ih ht)
  | array _ ih =>
    cases ht with
    | array ht => exact .array (ih ht)
  | positive _ ih =>
    cases ht with
    | positive ht => exact .positive (ih ht)
  | nonEmpty _ ih =>
    cases ht with
    | nonEmpty ht => exact .nonEmpty (ih ht)
  | left _ ih =>
    cases ht with
    | union hl hr => exact .union (ih hl) hr
  | right _ ih =>
    cases ht with
    | union hl hr => exact .union hl (ih hr)

/-- In an accepted program whose aliases have distinct parameters, a type expression that resolves
without an error resolves to the same type after aliases in it have been unfolded, anywhere and any
number of times. The type parameters at hand must not be names of types. -/
theorem resolve_unfolds {p : Program} {options : CheckOptions} {cp : CheckedProgram}
    (h : p.check options = .ok cp)
    (hdistinct : ∀ name ps target, cp.env.IsAlias name ps target → ps.Nodup)
    {ambient params : List String} (hfresh : ∀ v ∈ params ++ ambient, cp.env.Fresh v)
    {t t' : TypeExpr} (hunfolds : Relation.ReflTransGen (Unfolds cp.env) t t') (r r' : Report)
    (ht : ((resolve cp.env ambient params t).run r).2.errors = []) :
    ((resolve cp.env ambient params t').run r').1 = ((resolve cp.env ambient params t).run r).1 := by
  have henv := orderly_of_check h
  have hambient : ∀ v ∈ ambient, cp.env.Fresh v := fun v hv => hfresh v (mem_append_right _ hv)
  have hstands : Stands cp.env (params ++ ambient) t
      ((resolve cp.env ambient params t).run r).1 :=
    (henv.passes_resolveIn hambient (Env.Above.nil _)).result _ ⟨r, rfl, ht⟩
  have hstands' : Stands cp.env (params ++ ambient) t'
      ((resolve cp.env ambient params t).run r).1 := by
    induction hunfolds with
    | refl => exact hstands
    | tail _ hstep ih => exact hstep.stands henv hdistinct hfresh ih
  exact henv.returns_resolveIn hambient (Env.Above.nil _) hstands' r'

/-- One alias that uses another with its parameters exchanged. -/
def exchanges : Program where
  name := "exchanges"
  items :=
    [.synonym ⟨{}, "Either", ["A", "B"],
        .union {} (.var {} "A") (.var {} "B")⟩,
      .synonym ⟨{}, "Flip", ["A", "B"],
        .named {} "Either" [.var {} "B", .var {} "A"]⟩]

def exchangesEnv : Env where
  defs := [⟨"Either", {}, ["A", "B"],
      .synonym (.union {} (.var {} "A") (.var {} "B"))⟩,
    ⟨"Flip", {}, ["A", "B"],
      .synonym (.named {} "Either" [.var {} "B", .var {} "A"])⟩]

theorem check_exchanges : exchanges.check = .ok ⟨exchanges, exchangesEnv, []⟩ := check_eq_ok rfl

/-- `Flip<B, Flip<B, A>>` -/
def flipped : TypeExpr :=
  .named {} "Flip"
    [.var {} "B", .named {} "Flip" [.var {} "B", .var {} "A"]]

/-- `A | B | B` -/
def flippedOut : TypeExpr :=
  .union {} (.union {} (.var {} "A") (.var {} "B")) (.var {} "B")

/-- Among type parameters that are called like those of the aliases, in the other order. -/
theorem resolve_unfolds_flipped :
    exchanges.check = .ok ⟨exchanges, exchangesEnv, []⟩ ∧
    Relation.ReflTransGen (Unfolds exchangesEnv) flipped flippedOut ∧
    ((resolve exchangesEnv [] ["B", "A"] flippedOut).run {}).1 =
      ((resolve exchangesEnv [] ["B", "A"] flipped).run {}).1 ∧
    ((resolve exchangesEnv [] ["B", "A"] flipped).run {}).1 =
      .union (.union (.var "A") (.var "B")) (.var "B") := by
  have heither : exchangesEnv.IsAlias "Either" ["A", "B"]
      (.union {} (.var {} "A") (.var {} "B")) := ⟨_, rfl, rfl, rfl⟩
  have hflip : exchangesEnv.IsAlias "Flip" ["A", "B"]
      (.named {} "Either" [.var {} "B", .var {} "A"]) := ⟨_, rfl, rfl, rfl⟩
  have hunfolds : Relation.ReflTransGen (Unfolds exchangesEnv) flipped flippedOut :=
    .head (.here hflip) (.head (.here heither)
      (.head (.left (.here hflip)) (.head (.left (.here heither)) .refl)))
  have hdistinct : ∀ name ps target, exchangesEnv.IsAlias name ps target → ps.Nodup := by
    rintro name ps target ⟨d, hd, rfl, -⟩
    have hall : ∀ d ∈ exchangesEnv.defs, d.params.Nodup := by simp [exchangesEnv]
    exact hall d (mem_of_find?_eq_some hd)
  have hfresh : ∀ v ∈ ["B", "A"] ++ [], exchangesEnv.Fresh v := by
    intro v hv
    rcases mem_pair.mp hv with rfl | rfl
    · exact ⟨rfl, by decide⟩
    · exact ⟨rfl, by decide⟩
  refine ⟨check_exchanges, hunfolds, ?_, rfl⟩
  exact resolve_unfolds check_exchanges hdistinct hfresh hunfolds {} {} rfl

end Statute
