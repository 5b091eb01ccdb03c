import Statute.Proofs.Check.Resolution
import Statute.Proofs.Lowering.Types

/-!
# Checking and lowering agree on types

Types are resolved twice: when a program is checked, with a list of the aliases being expanded and
all errors reported, and once more when a principle is lowered, where the nesting of aliases is
limited and the first error ends it. In an accepted program both find the same type for what a
quantifier ranges over and for what is declared, as long as the aliases keep within the limit,
`typeOf_eq_resolve`: both find what the expression `Stands` for.
-/

namespace Statute

open Checking List

/-!
## Lowering within the limit
-/

namespace Env

/-- The aliases that the expression mentions, those that their targets mention, and so on, are
nested at most so deep. -/
def NestsWithin (env : Env) : Nat → List String → TypeExpr → Prop
  | 0, params, t => ∀ name ∈ t.mentions params, env.alias? name = none
  | depth + 1, params, t =>
    ∀ name ∈ t.mentions params, ∀ a ∈ env.alias? name, env.NestsWithin depth a.1 a.2

instance decidableNestsWithin (env : Env) :
    ∀ depth params t, Decidable (env.NestsWithin depth params t)
  | 0, params, t =>
    inferInstanceAs (Decidable (∀ name ∈ t.mentions params, env.alias? name = none))
  | depth + 1, params, t =>
    have : ∀ a : List String × TypeExpr, Decidable (env.NestsWithin depth a.1 a.2) :=
      fun a => decidableNestsWithin env depth a.1 a.2
    inferInstanceAs (Decidable
      (∀ name ∈ t.mentions params, ∀ a ∈ env.alias? name, env.NestsWithin depth a.1 a.2))

end Env

variable {params : List String}

section TypeWith

variable {env : Env} {expand : AliasTarget}

/-- The aliases among `names` are expanded to what their targets stand for. -/
def AliasTarget.Finds (env : Env) (expand : AliasTarget) (names : List String) : Prop :=
  ∀ id : Ident, id.name ∈ names → ∀ ps target, env.IsAlias id.name ps target →
    ∀ t, Stands env ps target t → expand id ps target = .ok t

theorem AliasTarget.Finds.mono {names names' : List String} (h : Finds env expand names)
    (hsub : names' ⊆ names) : Finds env expand names' :=
  fun id hid => h id (hsub hid)

theorem typeWith_named {span} {name : Ident} {args : List TypeExpr} {d : TypeDef} {tys}
    (hname : ¬(args = [] ∧ name.name ∈ params)) (hp : Prim.ofName? name.name = none)
    (hd : env.lookup name.name = some d) (htys : typesWith env expand params args = .ok tys) :
    typeWith env expand params (.named span name args) =
      declaredType env expand span name d tys := by
  rw [typeWith, if_neg (by simpa using hname), hp, hd, htys]
  rfl

mutual

/-- What an expression stands for is the type that it is lowered to. -/
theorem typeWith_of_stands {params} {t : TypeExpr} {ty} (h : Stands env params t ty)
    (hexpand : expand.Finds env (t.mentions params)) : typeWith env expand params t = .ok ty := by
  match h with
  | .prim | .citation | .validDate | .moneyIn => rfl
  | .var hv =>
    rw [typeWith, if_pos (by simpa using hv)]
  | .param hname =>
    rw [typeWith, if_pos (by simpa using hname)]
  | .builtin hname hp =>
    rw [typeWith, if_neg (by simpa using hname), hp]
  | .struct hname hp hd hbody hargs hlen | .enum hname hp hd hbody hargs hlen =>
    rw [mentions_named hname hp] at hexpand
    have htys := typesWith_of_standEach hargs (hexpand.mono (subset_cons_self _ _))
    rw [typeWith_named hname hp hd htys]
    simp only [declaredType, Env.instantiate, hd, hbody, hlen, BEq.rfl, if_true]
  | .synonym hname hp hd hbody hargs hlen ht =>
    rw [mentions_named hname hp] at hexpand
    have htys := typesWith_of_standEach hargs (hexpand.mono (subset_cons_self _ _))
    have htarget := hexpand _ mem_cons_self _ _ ⟨_, hd, rfl, hbody⟩ _ ht
    rw [typeWith_named hname hp hd htys]
    simp only [declaredType, Env.instantiate, hd, hbody, hlen, BEq.rfl, if_true, htarget]
    rfl
  | .refine h | .temporal h | .array h | .positive h | .nonEmpty h =>
    rw [typeWith, typeWith_of_stands h hexpand]
    rfl
  | .union hl hr =>
    rw [TypeExpr.mentions] at hexpand
    rw [typeWith, typeWith_of_stands hl (hexpand.mono (subset_append_left _ _)),
      typeWith_of_stands hr (hexpand.mono (subset_append_right _ _))]
    rfl

theorem typesWith_of_standEach {params} {ts : List TypeExpr} {tys} (h : StandEach env params ts tys)
    (hexpand : expand.Finds env (mentionsAll params ts)) :
    typesWith env expand params ts = .ok tys := by
  match h with
  | .nil => rfl
  | .cons ht hts =>
    rw [mentionsAll] at hexpand
    rw [typesWith, typeWith_of_stands ht (hexpand.mono (subset_append_left _ _)),
      typesWith_of_standEach hts (hexpand.mono (subset_append_right _ _))]
    rfl

end

end TypeWith

variable {env : Env} {t : TypeExpr} {ty : Ty}

theorem typeIn_of_stands {depth : Nat} (h : Stands env params t ty)
    (hdepth : env.NestsWithin depth params t) : typeIn env depth params t = .ok ty := by
  induction depth generalizing params t ty with
  | zero =>
    refine typeWith_of_stands h fun id hid ps target ha => ?_
    cases (hdepth id.name hid).symm.trans (Env.isAlias_iff.mp ha)
  | succ depth ih =>
    refine typeWith_of_stands h fun id hid ps target ha u hu => ?_
    exact ih hu (hdepth id.name hid (ps, target) (Env.isAlias_iff.mp ha))

theorem typeOf_of_stands (h : Stands env [] t ty) (hdepth : env.NestsWithin maxAliases [] t) :
    typeOf env t = .ok ty :=
  typeIn_of_stands h hdepth

/-!
## The types that are used
-/

/-- A quantifier inside the expression, at any depth, ranges over this type. -/
inductive Expr.Binds : Expr → TypeExpr → Prop where
  | here {span q var type body} : Expr.Binds (.quantified span q var type body) type
  | inside {e c type} (hc : c ∈ e.children) (h : Expr.Binds c type) : Expr.Binds e type

variable {tys : List (Ty × Span)} {e c : Expr}

section Typed

variable {cx : Context} {scope : Scope} {want : Option Ty}

theorem TypedEach.typed {scope es} (h : TypedEach cx scope es tys) (he : e ∈ es) :
    ∃ t, Typed cx scope none e t := by
  induction es generalizing tys with
  | nil => cases he
  | cons e' es ih =>
    cases h with
    | cons hfirst hrest => grind

theorem TypedFields.typed {s b b' given given' fields}
    (h : TypedFields cx scope s b given fields b' given') {f} (hf : f ∈ fields) :
    ∃ want t, Typed cx scope want f.2 t := by
  induction fields generalizing b given with
  | nil => cases hf
  | cons f' fields ih =>
    cases h with
    | cons _ _ hfirst _ _ _ hrest => grind

theorem TypedArms.typed {s arms} (h : TypedArms cx scope want s arms tys) {a : Arm Expr Expr}
    (ha : a ∈ arms) (hc : c ∈ a.guard.toList ++ [a.body]) :
    ∃ scope' want' t, Typed cx scope' want' c t := by
  induction arms generalizing tys with
  | nil => cases ha
  | cons a' arms ih =>
    cases h with
    | plain _ hbody hrest | guarded _ hg _ hbody hrest => grind

/-- What is inside a typed expression is typed too. -/
theorem Typed.children {t : Ty} (h : Typed cx scope want e t) (hc : c ∈ e.children) :
    ∃ scope' want' t', Typed cx scope' want' c t' := by
  cases h with
  | literal | name | variant => cases hc
  | unary he | member he | satisfies he =>
    obtain rfl := mem_singleton.mp hc
    exact ⟨_, _, _, he⟩
  | quantified _ _ hbody =>
    obtain rfl := mem_singleton.mp hc
    exact ⟨_, _, _, hbody⟩
  | binary hl hr =>
    rcases mem_pair.mp hc with rfl | rfl
    · exact ⟨_, _, _, hl⟩
    · exact ⟨_, _, _, hr⟩
  | call hargs =>
    obtain ⟨t', ht'⟩ := hargs.typed hc
    exact ⟨_, _, _, ht'⟩
  | record _ hfields =>
    obtain ⟨f, hf, rfl⟩ := mem_map.mp hc
    obtain ⟨want', t', ht'⟩ := hfields.typed hf
    exact ⟨_, _, _, ht'⟩
  | select he _ _ harms =>
    rcases mem_cons.mp hc with rfl | hc
    · exact ⟨_, _, _, he⟩
    · obtain ⟨a, ha, hc⟩ := mem_flatMap.mp hc
      exact harms.typed ha hc

/-- The types that quantifiers of a typed expression range over resolve with nothing reported. -/
theorem Typed.gives_of_binds {type : TypeExpr} (hbinds : e.Binds type) {t : Ty}
    (h : Typed cx scope want e t) : ∃ u, Gives (cx.resolve type) u := by
  induction hbinds generalizing scope want t with
  | here =>
    cases h with
    | quantified hbound => exact ⟨_, hbound⟩
  | inside hc _ ih => grind [Typed.children]

end Typed

section Accepted

variable {p : Program} {options : CheckOptions} {cp : CheckedProgram}

theorem gives_of_mem_values (h : p.check options = .ok cp) {d : Declaration} (hd : d ∈ p.values) :
    ∃ t, Gives (Context.resolve ⟨cp.env, options, []⟩ d.type) t := by
  obtain ⟨scope, next, hgives⟩ := gives_checkItem h (Program.mem_values_iff.mp hd)
  obtain ⟨t, ht, -⟩ := (passes_checkDeclaration d).result next hgives
  exact ⟨t, ht⟩

theorem gives_of_binds (h : p.check options = .ok cp) {q : Principle} (hq : q ∈ p.principles)
    {type : TypeExpr} (hbinds : q.body.Binds type) :
    ∃ t, Gives (Context.resolve ⟨cp.env, options, []⟩ type) t := by
  rw [← p.principles_sites] at hq
  obtain ⟨s, hs, rfl⟩ := mem_map.mp hq
  obtain ⟨scope, -, -, t, ht, -⟩ := visited_of_check h s hs
  exact ht.gives_of_binds hbinds

end Accepted

/-- In an accepted program, lowering finds the type that was found when the program was checked: for
what a quantifier of a principle ranges over and for the type of a declared value, if aliases are
not nested beyond the limit. -/
theorem typeOf_eq_resolve {p : Program} {options : CheckOptions} {cp : CheckedProgram}
    (h : p.check options = .ok cp) {type : TypeExpr}
    (hused : (∃ q ∈ p.principles, q.body.Binds type) ∨ ∃ d ∈ p.values, d.type = type)
    (hdepth : cp.env.NestsWithin maxAliases [] type) (r : Report) :
    typeOf cp.env type = .ok ((resolve cp.env [] [] type).run r).1 := by
  have hgives : ∃ t, Gives (Context.resolve ⟨cp.env, options, []⟩ type) t := by
    rcases hused with ⟨q, hq, hbinds⟩ | ⟨d, hd, rfl⟩
    · exact gives_of_binds h hq hbinds
    · exact gives_of_mem_values h hd
  obtain ⟨t, ht⟩ := hgives
  have hstands : Stands cp.env [] type t := (orderly_of_check h).stands_of_gives ht
  have hresolved : ((resolve cp.env [] [] type).run r).1 = t :=
    (orderly_of_check h).returns_resolve hstands r
  rw [typeOf_of_stands hstands hdepth, hresolved]

/-- Quotas, which are shares under another name. -/
def quotas : Program where
  name := "quotas"
  items :=
    [.synonym ⟨{}, "Share", [], .refine {} (.prim {} .int) (some 0) (some 100)⟩,
      .synonym ⟨{}, "Same", ["T"], .named {} "T" []⟩,
      .synonym ⟨{}, "Quota", [], .named {} "Same" [.named {} "Share" []]⟩,
      .scope {} "Fisheries"
        [.value ⟨{}, "floor", .named {} "Quota" [], .literal {} (.int 5)⟩,
          .principle ⟨{}, "Bounded",
            .quantified {} .all "q" (.named {} "Same" [.named {} "Quota" []])
              (.binary {} .ge "q" (.literal {} (.int 0)))⟩]]

def quotasEnv : Env where
  defs := [⟨"Share", {}, [], .synonym (.refine {} (.prim {} .int) (some 0) (some 100))⟩,
    ⟨"Same", {}, ["T"], .synonym (.named {} "T" [])⟩,
    ⟨"Quota", {}, [], .synonym (.named {} "Same" [.named {} "Share" []])⟩]

theorem check_quotas : quotas.check = .ok ⟨quotas, quotasEnv, []⟩ := check_eq_ok rfl

/-- For what the principle ranges over and for the type of the floor. -/
theorem typeOf_eq_resolve_quotas :
    quotas.check = .ok ⟨quotas, quotasEnv, []⟩ ∧
    (∀ type ∈ [.named {} "Same" [.named {} "Quota" []], .named {} "Quota" []],
      quotasEnv.NestsWithin maxAliases [] type ∧
      typeOf quotasEnv type = .ok ((resolve quotasEnv [] [] type).run {}).1 ∧
      ((resolve quotasEnv [] [] type).run {}).1 = .refine .int (some 0) (some 100)) := by
  refine ⟨check_quotas, ?_⟩
  rw [forall_mem_cons, forall_mem_singleton]
  refine ⟨⟨by decide, ?_, rfl⟩, by decide, ?_, rfl⟩
  · refine typeOf_eq_resolve check_quotas (.inl ⟨_, mem_cons_self, .here⟩) (by decide) {}
  · exact typeOf_eq_resolve check_quotas (.inr ⟨_, mem_cons_self, rfl⟩) (by decide) {}

end Statute
