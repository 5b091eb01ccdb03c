import Statute.Proofs.Lowering.Agreement
import Statute.Proofs.Lowering.Scoping
import Statute.Proofs.Lowering.Steps

/-!
# What can hinder the lowering of a checked expression

The checker and the lowering each go through an expression, with scopes and types on one side and
locals and sorts on the other. `accounted` compares the two passes by induction on the expression:
what the checker accepts is lowered at the sort of its type, or an obstacle is met that is
`Excused`. The excuses are the depth of quantifiers, things that the logic has no counterpart for,
aliases nested beyond the limit, and the places where the checker asks for less than the logic,
`Lax`. So no name and no legal test is missing.

Two conditions are carried along. Names that nothing binds inside stand for values that are declared
with the types that the checker found, `DeclaredAlike`, and the struct types that occur have sorts
of their own, `SortsApart`.
-/

namespace Statute

open Logic Checking List

open Draft (Registers)

/-!
## Types that are not found
-/

/-- A type that stands for something is missed only where aliases are nested too deep. -/
theorem misses_typeOf {env : Env} {t : TypeExpr} {ty : Ty} {o : Obstacle} (hty : Stands env [] t ty)
    (h : typeOf env t = .error o) : o.MissesType ∧ ¬env.NestsWithin maxAliases [] t := by
  refine ⟨missesType_typeIn h, fun hdepth => ?_⟩
  rw [typeOf_of_stands hty hdepth] at h
  cases h

/-!
## Where the checker asks for less
-/

/-- The parts of an expression that are lowered in its own scope. -/
def Expr.operands : Expr → List Expr
  | .unary _ _ e | .member _ e _ | .satisfies _ e _ | .select _ _ e _ => [e]
  | .binary _ _ l r => [l, r]
  | .call _ _ args => args
  | _ => []

attribute [local simp] Expr.operands

/-- Somewhere in the expression the checker is content with operands that the logic keeps apart: the
first sort is expected, and the second one found. -/
inductive Lax (cx : Context) : Scope → Expr → String → String → Prop where
  /-- A remainder of numbers that are not both of type `int`. -/
  | modulo {scope span l r a b} (hl : Typed cx scope none l a) (hr : Typed cx scope none r b)
      (hint : ¬(a.core = .int ∧ b.core = .int)) :
      Lax cx scope (.binary span .mod l r) "Int" "Real"
  /-- Values of different struct types are compared. -/
  | equality {scope span op l r a b} (hop : op = .eq ∨ op = .ne) (hl : Typed cx scope none l a)
      (hr : Typed cx scope none r b) (hdiffer : a.StructsDiffer b) :
      Lax cx scope (.binary span op l r) (structSortName a.core) (structSortName b.core)
  /-- An argument is of another struct type than the parameter, such as one that extends it. -/
  | argument {scope span callee args f p e t} (hf : cx.env.function? callee.name = some f)
      (he : (p, e) ∈ (f.params.map (·.2)).zip args) (ht : Typed cx scope none e t)
      (hdiffer : p.StructsDiffer t) :
      Lax cx scope (.call span callee args) (structSortName p.core) (structSortName t.core)
  /-- An arm is of another struct type than the first one. -/
  | arms {scope want span place e s a t b u rest} (he : Typed cx scope none e s)
      (ha : Typed cx (a.pattern.enter scope.push s) want a.body t) (hmem : b ∈ rest)
      (hb : Typed cx (b.pattern.enter scope.push s) want b.body u) (hdiffer : t.StructsDiffer u) :
      Lax cx scope (.select span place e (a :: rest)) (structSortName t.core)
        (structSortName u.core)
  /-- A whole number is matched with a number of another kind. -/
  | pattern {scope span place e s arms a span' v} (he : Typed cx scope none e s)
      (hint : s.core = .int) (ha : a ∈ arms) (hp : a.pattern = .literal span' v)
      (hnumeric : (literalPrim v).isNumeric = true) (hne : literalPrim v ≠ .int) :
      Lax cx scope (.select span place e arms) "Int" "Real"
  | operand {scope e c expected got} (hc : c ∈ e.operands) (h : Lax cx scope c expected got) :
      Lax cx scope e expected got
  | arm {scope span place e s arms a c expected got} (he : Typed cx scope none e s) (ha : a ∈ arms)
      (hc : c ∈ a.guard.toList ++ [a.body])
      (h : Lax cx (a.pattern.enter scope.push s) c expected got) :
      Lax cx scope (.select span place e arms) expected got
  | quantified {scope span q var type bound body expected got}
      (hbound : Gives (cx.resolve type) bound)
      (h : Lax cx (scope.push.add ⟨var.name, bound, var.span, .quantified⟩) body expected got) :
      Lax cx scope (.quantified span q var type body) expected got

/-- The kinds of obstacle that there may be for an expression in a scope: too many quantifiers
inside one another, something that the logic has no counterpart for, aliases nested beyond the
limit, or sorts that differ where the checker is lax. -/
inductive Excused (cx : Context) (values : List Declaration) (scope : Scope) (e : Expr) :
    ObstacleKind → Prop where
  | depth {depth limit} : Excused cx values scope e (.quantifierDepthExceeded depth limit)
  | unsupported {what} : Excused cx values scope e (.unsupported what)
  | aliases {name type} (htype : e.Binds type ∨ ∃ l ∈ values, l.type = type)
      (hdeep : ¬cx.env.NestsWithin maxAliases [] type) :
      Excused cx values scope e (.unboundQuantifierType name)
  | lax {expected got} (h : Lax cx scope e expected got) :
      Excused cx values scope e (.sortMismatch expected got)

variable {type : TypeExpr}

section Excuses

variable {cx : Context} {values : List Declaration} {scope : Scope} {e c : Expr}
  {k : ObstacleKind}

/-- What excuses an obstacle inside an expression excuses it for the expression. -/
theorem Excused.inside {scope' : Scope} (hc : c ∈ e.children)
    (hlax : ∀ expected got, Lax cx scope' c expected got → Lax cx scope e expected got)
    (h : Excused cx values scope' c k) :
    Excused cx values scope e k := by
  cases h with
  | depth => exact .depth
  | unsupported => exact .unsupported
  | aliases htype hdeep => exact .aliases (htype.imp_left (.inside hc)) hdeep
  | lax h => exact .lax (hlax _ _ h)

theorem Expr.mem_children_of_mem_operands (h : c ∈ e.operands) : c ∈ e.children := by
  cases e with
  | select span place e arms =>
    rw [operands, mem_singleton] at h
    rw [h]
    exact mem_cons_self
  | unary | binary | member | call | satisfies => exact h
  | literal | name | variant | record | quantified => cases h

theorem Excused.operand (hc : c ∈ e.operands) (h : Excused cx values scope c k) :
    Excused cx values scope e k :=
  h.inside (Expr.mem_children_of_mem_operands hc) fun _ _ => .operand hc

/-- A type that the checker found, but lowering does not. -/
theorem Excused.of_typeOf {ty : Ty} {o : Obstacle}
    (htype : e.Binds type ∨ ∃ l ∈ values, l.type = type) (hty : Stands cx.env [] type ty)
    (h : typeOf cx.env type = .error o) : Excused cx values scope e o.fault.kind := by
  obtain ⟨⟨name, hname⟩, hdeep⟩ := misses_typeOf hty h
  rw [hname]
  exact .aliases htype hdeep

end Excuses

/-!
## Checked expressions
-/

/-- The context in which the checker sees what is lowered. -/
abbrev LoweringContext.checking (cx : LoweringContext) (options : CheckOptions) : Context :=
  ⟨cx.env, options, []⟩

/-- Names that are bound inside have the sorts of their types, and all others are looked up
outside. -/
structure Corresponds (T : String → List Ty → Prop) (d : Draft) (outer scope : Scope)
    (locals : List Local) : Prop where
  bound : ∀ x l, locals.find? (·.name == x) = some l →
    ∃ b, scope.lookup x = some b ∧ d.Sorted T b.type l.sort
  free : ∀ x, locals.find? (·.name == x) = none → scope.lookup x = outer.lookup x

namespace Corresponds

variable {T : String → List Ty → Prop} {d d' : Draft} {outer scope : Scope} {locals : List Local}

theorem mono (h : Corresponds T d outer scope locals) (hle : d.Extends d') :
    Corresponds T d' outer scope locals := by
  refine ⟨fun x l hl => ?_, h.free⟩
  obtain ⟨b, hb, hsorted⟩ := h.bound x l hl
  exact ⟨b, hb, hsorted.mono hle⟩

theorem bind (h : Corresponds T d outer scope locals) {b : Bound} {t : Term} {s : SmtSort}
    (hs : d.Sorted T b.type s) :
    Corresponds T d outer (scope.push.add b) (⟨b.name, t, s⟩ :: locals) := by
  refine ⟨fun x l hl => ?_, fun x hx => ?_⟩
  · rw [Scope.lookup_add]
    by_cases hname : b.name = x
    · grind
    rw [find?_cons_of_neg (by simpa using hname)] at hl
    rw [if_neg hname, Scope.lookup_push]
    exact h.bound x l hl
  · have hname : b.name ≠ x := by
      intro hname
      simp [hname] at hx
    rw [find?_cons_of_neg (by simpa using hname)] at hx
    rw [Scope.lookup_add, if_neg hname, Scope.lookup_push]
    exact h.free x hx

theorem bindPattern (h : Corresponds T d outer scope locals) {p : Pattern} {a r}
    (hr : d.Sorted T a r.2) :
    Corresponds T d outer (p.enter scope.push a) (p.boundLocals r ++ locals) := by
  cases p with
  | binding id => exact h.bind (b := ⟨id.name, a, id.span, .variable⟩) hr
  | _ =>
    refine ⟨fun x l hl => ?_, fun x hx => ?_⟩
    · rw [Pattern.enter, Scope.lookup_push]
      · exact h.bound x l hl
      · simp
    rw [Pattern.enter, Scope.lookup_push]
    · exact h.free x hx
    · simp

end Corresponds

/-- Where the checker finds the name, lowering finds a value that is declared with the same type. -/
def DeclaredAlike (cx : LoweringContext) (outer : Scope) (x : String) : Prop :=
  ∀ b, outer.lookup x = some b → ∃ l, cx.value? x = some l ∧ Stands cx.env [] l.type b.type

/-- Wherever the expression is checked, it is lowered at the sort of its type, unless an obstacle is
excused. -/
def Accounted (cx : LoweringContext) (options : CheckOptions) (T : String → List Ty → Prop)
    (outer : Scope) (lowerBody : Expr → Lowering Lowered) (e : Expr) : Prop :=
  ∀ scope want t, Typed (cx.checking options) scope want e t →
    ∀ locals depth d, d.Registers T → Corresponds T d outer scope locals →
      Unbound (DeclaredAlike cx outer) locals e.reads →
      Ends (Registers T) (Excused (cx.checking options) cx.values scope e)
        (lowerWith cx lowerBody locals depth e) d fun r d' => d'.Sorted T t r.2

section Accounted

variable {cx : LoweringContext} {options : CheckOptions} {T : String → List Ty → Prop}
  {outer scope : Scope} {lowerBody : Expr → Lowering Lowered} {locals : List Local} {depth : Nat}
  {E : ObstacleKind → Prop} {d : Draft} {span : Span} {tys : List (Ty × Span)}

theorem ends_lowerName (hclosed : Closes cx T)
    (hbody : ∀ l ∈ cx.values, Steady T (lowerBody l.value)) {span : Span} {id : Ident} {b : Bound}
    (hb : scope.lookup id.name = some b) (hcorresponds : Corresponds T d outer scope locals)
    (hreads : Unbound (DeclaredAlike cx outer) locals [id.name]) (hd : d.Registers T) :
    Ends (Registers T) (Excused (cx.checking options) cx.values scope (.name span id))
      (lowerName cx lowerBody locals id) d fun r d' => d'.Sorted T b.type r.2 := by
  unfold lowerName
  split
  next l hl =>
    obtain ⟨b', hb', hsorted⟩ := hcorresponds.bound id.name l hl
    cases hb.symm.trans hb'
    exact .pure hd hsorted
  next hnone =>
    rw [hcorresponds.free id.name hnone] at hb
    obtain ⟨l, hl, hstands⟩ := hreads id.name (mem_singleton_self _) hnone b hb
    have hmem := mem_of_find?_eq_some hl
    rw [hl]
    refine (ends_lowerValue hclosed (hbody l hmem) hmem (fun _ => .unsupported) ?_ hd).mono ?_
    · exact fun o ho => .of_typeOf (.inr ⟨l, hmem, rfl⟩) hstands ho
    intro r d' _ hr
    obtain ⟨ty, hty, hsorted⟩ := hr
    rwa [hstands.unique (stands_of_typeOf hty)]

theorem ends_lowerArgs {params : List Ty} {args : List Expr} (hE : ∀ what, E (.unsupported what))
    (hfits : List.Forall₂ (fun p a => fits cx.env p a.1 = true) params tys)
    (htyped : TypedEach (cx.checking options) scope args tys)
    (hparams : ∀ p ∈ params, (cx.setting T {}).Admits p)
    (hargs : ∀ e ∈ args, Accounted cx options T outer lowerBody e)
    (hinside : ∀ e ∈ args, ∀ k, Excused (cx.checking options) cx.values scope e k → E k) (hdiffer :
      ∀ p e t, (p, e) ∈ params.zip args → Typed (cx.checking options) scope none e t →
      p.StructsDiffer t → E (.sortMismatch (structSortName p.core) (structSortName t.core)))
    (hcorresponds : Corresponds T d outer scope locals)
    (hreads : Unbound (DeclaredAlike cx outer) locals (Expr.readsOfArgs args)) (hd : d.Registers T) :
    Ends (Registers T) E (lowerArgs cx lowerBody locals depth span params args) d
      fun _ _ => True := by
  induction hfits generalizing args d with
  | nil =>
    cases htyped
    exact .pure hd trivial
  | @cons p a params tys hfirst _ ih =>
    cases htyped with
    | @cons _ e t es _ he hes =>
    obtain ⟨hp, hparams⟩ := forall_mem_cons.mp hparams
    obtain ⟨hthis, hothers⟩ := forall_mem_cons.mp hargs
    obtain ⟨hinsideThis, hinsideOthers⟩ := forall_mem_cons.mp hinside
    obtain ⟨hreadsThis, hreadsOthers⟩ := hreads.append
    refine (ends_sortOf hE hp hd).bind fun r d₁ hd₁ hle₁ hr => ?_
    have hbound := hthis scope none t he locals depth d₁ hd₁ (hcorresponds.mono hle₁) hreadsThis
    refine (hbound.excuse hinsideThis).bind fun r' d₂ hd₂ hle₂ hr' => ?_
    have hcoerces : Coerces E r'.2 r.1 := by
      refine coerces_of_fits hr.1 hr'.1 hfirst fun hdiffers => ?_
      exact hdiffer p e t (by simp) he hdiffers
    refine (ends_coerce hcoerces hd₂).bind fun _ d₃ hd₃ hle₃ _ => ?_
    have hcorresponds₃ := hcorresponds.mono (hle₁.trans (hle₂.trans hle₃))
    refine (ih hes hparams hothers hinsideOthers ?_ hcorresponds₃ hreadsOthers hd₃).bind ?_
    · grind
    · exact fun _ d₄ hd₄ _ _ => .pure hd₄ trivial

variable {want : Option Ty} {arms : List (Arm Expr Expr)}

/-- Arms are lowered up to the first that always applies, each at the sort of its type. -/
theorem ends_lowerEachArm {s : Ty} {r : Lowered} (hE : ∀ what, E (.unsupported what))
    (htyped : TypedArms (cx.checking options) scope want s arms tys) (hchildren : ∀ a ∈ arms, ∀ c ∈
      a.guard.toList ++ [a.body], Accounted cx options T outer lowerBody c) (hinside : ∀ a ∈ arms, ∀
      c ∈ a.guard.toList ++ [a.body], ∀ k, Excused (cx.checking options) cx.values (a.pattern.enter
      scope.push s) c k → E k) (hliteral : ∀ a ∈ arms, ∀ span v, a.pattern = .literal span v →
      s.core = .int → (literalPrim v).isNumeric → literalPrim v ≠ .int → E (.sortMismatch
      "Int" "Real")) (hr : d.Sorted T s r.2) (hcorresponds : Corresponds T d outer scope locals)
    (hreads : Unbound (DeclaredAlike cx outer) locals (Expr.readsOfArms arms)) (hd : d.Registers T) :
    Ends (Registers T) E (lowerEachArm cx lowerBody locals depth r arms) d fun lowered d' =>
      ArmsSorted T d' lowered.1 tys ∧ (lowered.2 → lowered.1 ≠ []) := by
  induction arms generalizing tys d with
  | nil => exact .pure hd ⟨.nil, fun h => nomatch h⟩
  | cons a arms ih =>
    obtain ⟨hthis, hothers⟩ := forall_mem_cons.mp hchildren
    obtain ⟨hinsideThis, hinsideOthers⟩ := forall_mem_cons.mp hinside
    obtain ⟨hliteralThis, hliteralOthers⟩ := forall_mem_cons.mp hliteral
    cases htyped with
    | @plain _ _ _ span p body inside t _ tys hp hb harms =>
      obtain rfl := (passes_checkPattern _ _).result _ hp
      obtain ⟨hreadsThis, hreadsOthers⟩ := hreads.append
      refine (ends_lowerPattern hE hr (suits_of_checkPattern hp) hliteralThis hd).bind ?_
      intro c d₁ hd₁ hle₁ hc
      obtain ⟨c, bound⟩ := c
      subst hc
      have hr₁ := hr.mono hle₁
      have hcorresponds₁ := hcorresponds.mono hle₁
      have hlowered := hthis body (by simp) _ want t hb _ depth d₁ hd₁
        (hcorresponds₁.bindPattern hr₁) hreadsThis.bindPattern
      refine (hlowered.excuse (hinsideThis body (by simp))).bind ?_
      intro r' d₂ hd₂ hle₂ hr'
      dsimp only
      split
      · exact .pure hd₂ ⟨.cons hr' .nil, by simp⟩
      have hle : d.Extends d₂ := hle₁.trans hle₂
      refine (ih harms hothers hinsideOthers hliteralOthers (hr.mono hle) (hcorresponds.mono hle)
        hreadsOthers hd₂).bind fun rest d₃ hd₃ hle₃ hrest => ?_
      exact .pure hd₃ ⟨.cons (hr'.mono hle₃) hrest.1, by simp⟩
    | @guarded _ _ _ span p g body inside tg t _ tys hp hg hbool hb harms =>
      obtain rfl := (passes_checkPattern _ _).result _ hp
      obtain ⟨hreadsThis, hreadsOthers⟩ := hreads.append
      refine (ends_lowerPattern hE hr (suits_of_checkPattern hp) hliteralThis hd).bind ?_
      intro c d₁ hd₁ hle₁ hc
      obtain ⟨c, bound⟩ := c
      subst hc
      obtain ⟨hreadsGuard, hreadsBody⟩ := (hreadsThis.bindPattern (r := r)).append
      have hcorresponds₁ := (hcorresponds.mono hle₁).bindPattern (p := p) (hr.mono hle₁)
      have hguard := hthis g (by simp) _ none tg hg _ depth d₁ hd₁ hcorresponds₁ hreadsGuard
      refine (hguard.excuse (hinsideThis g (by simp))).bind ?_
      intro rg d₂ hd₂ hle₂ hrg
      obtain ⟨cond, sort⟩ := rg
      obtain rfl := Ty.sort_of_isBool hrg.1 hbool
      refine (ends_expectSort hd₂).bind fun _ d₃ hd₃ hle₃ _ => ?_
      have hcorresponds₃ := hcorresponds₁.mono (hle₂.trans hle₃)
      have hbody := hthis body (by simp) _ want t hb _ depth d₃ hd₃ hcorresponds₃ hreadsBody
      refine (hbody.excuse (hinsideThis body (by simp))).bind ?_
      intro r' d₄ hd₄ hle₄ hr'
      have hle : d.Extends d₄ := hle₁.trans (hle₂.trans (hle₃.trans hle₄))
      refine (ih harms hothers hinsideOthers hliteralOthers (hr.mono hle) (hcorresponds.mono hle)
        hreadsOthers hd₄).bind fun rest d₅ hd₅ hle₅ hrest => ?_
      exact .pure hd₅ ⟨.cons (hr'.mono hle₅) hrest.1, by simp⟩

theorem TypedArms.mem {cx s} (h : TypedArms cx scope want s arms tys) {t} (ht : t ∈ tys) :
    ∃ a ∈ arms, Typed cx (a.pattern.enter scope.push s) want a.body t.1 := by
  induction arms generalizing tys with
  | nil =>
    cases h
    cases ht
  | cons a arms ih =>
    have hother {tys : List (Ty × Span)} (harms : TypedArms cx scope want s arms tys)
        (ht : t ∈ tys) :
        ∃ b ∈ a :: arms, Typed cx (b.pattern.enter scope.push s) want b.body t.1 := by
      obtain ⟨b, hb, htyped⟩ := ih harms ht
      exact ⟨b, mem_cons_of_mem _ hb, htyped⟩
    cases h with
    | plain hp hbody harms | guarded hp _ _ hbody harms =>
      obtain rfl := (passes_checkPattern _ _).result _ hp
      rcases mem_cons.mp ht with rfl | ht
      · exact ⟨_, mem_cons_self, hbody⟩
      · exact hother harms ht

/-- An arm of another struct type than the first. -/
theorem TypedArms.lax {cx place span' e} {s t : Ty} {u ts} (he : Typed cx scope none e s)
    (h : TypedArms cx scope want s arms ((t, span') :: ts)) (hu : u ∈ ts)
    (hdiffer : t.StructsDiffer u.1) :
    Lax cx scope (.select span place e arms) (structSortName t.core) (structSortName u.1.core) := by
  cases h with
  | plain hp hbody harms | guarded hp _ _ hbody harms =>
    obtain rfl := (passes_checkPattern _ _).result _ hp
    obtain ⟨b, hb, htyped⟩ := harms.mem hu
    exact .arms he hbody hb htyped hdiffer

/-- A `match` is lowered at the sort of its first arm. -/
theorem ends_lowerSelect {place e s u} (he : Typed (cx.checking options) scope none e s)
    (htyped : TypedArms (cx.checking options) scope want s arms tys)
    (hu : Gives (joinArms (cx.checking options) .unknown tys) u) (hchildren : ∀ c ∈ (Expr.select
      span place e arms).children, Accounted cx options T outer lowerBody c)
    (hcorresponds : Corresponds T d outer scope locals)
    (hreads : Unbound (DeclaredAlike cx outer) locals (Expr.select span place e arms).reads)
    (hd : d.Registers T) :
    Ends (Registers T) (Excused (cx.checking options) cx.values scope (.select span place e arms))
      (lowerWith cx lowerBody locals depth (.select span place e arms)) d fun r d' =>
        d'.Sorted T u r.2 := by
  obtain ⟨hreadsFirst, hreadsArms⟩ := hreads.append
  obtain ⟨hfirst, harms⟩ := forall_mem_cons.mp hchildren
  have hscrutinee := hfirst scope none s he locals depth d hd hcorresponds hreadsFirst
  refine (hscrutinee.excuse fun _ hk => hk.operand (mem_singleton_self _)).bind ?_
  intro r d₁ hd₁ hle₁ hr
  have hmem {a : Arm Expr Expr} {c : Expr} (ha : a ∈ arms) (hc : c ∈ a.guard.toList ++ [a.body]) :
      c ∈ (Expr.select span place e arms).children :=
    mem_cons_of_mem _ (mem_flatMap.mpr ⟨a, ha, hc⟩)
  refine (ends_lowerEachArm (fun _ => .unsupported) htyped
    (fun a ha c hc => hchildren c (hmem ha hc))
    (fun a ha c hc k hk => hk.inside (hmem ha hc) fun _ _ => .arm he ha hc)
    (fun a ha span' v hp hint hnumeric hne => .lax (.pattern he hint ha hp hnumeric hne))
    hr (hcorresponds.mono hle₁) hreadsArms hd₁).bind ?_
  intro lowered d₂ hd₂ hle₂ hlowered
  obtain ⟨lowered, closed⟩ := lowered
  obtain ⟨hsorted, hclosed⟩ := hlowered
  cases hsorted with
  | nil =>
    cases closed with
    | false => exact .stop hd₂ .unsupported
    | true => exact absurd rfl (hclosed rfl)
  | @cons a lowered t ts ha hlowered =>
    obtain ⟨t, span'⟩ := t
    -- the type of the first arm is known, so it is that of the `match`
    have hknown : t.isUnknown = false := Ty.isUnknown_of_coreSort? ha.1
    obtain ⟨rfl, hfits⟩ := (passes_joinArms hknown ts).result u hu
    refine ends_lowerArms (fun _ => .unsupported) ha hlowered hfits ?_ hd₂
    exact fun v hv hdiffer => .lax (htyped.lax he hv hdiffer)

/-- A variable is bound at the sort of the type that it ranges over. -/
theorem ends_lowerBound (span : Span) (q : Quantifier) (limits : Limits) (depth : Nat)
    {var : Ident} {bound t : Ty} {s : SmtSort} {body : Expr}
    (hinside : Accounted cx options T outer lowerBody body)
    (hbound : Gives ((cx.checking options).resolve type) bound) (hbody : Typed (cx.checking options)
      (scope.push.add ⟨var.name, bound, var.span, .quantified⟩) none body t)
    (hbool : t.isBool) (hs : d.Sorted T bound s)
    (hcorresponds : Corresponds T d outer scope locals)
    (hreads : Unbound (DeclaredAlike cx outer) locals (body.reads.filter (· != var.name)))
    (hd : d.Registers T) :
    Ends (Registers T)
      (Excused (cx.checking options) cx.values scope (.quantified span q var type body))
      (lowerBound cx lowerBody locals depth q var.name s limits body) d
      fun r d' => d'.Sorted T .bool r.2 := by
  refine (ends_fresh hd).bind fun symbol d₁ hd₁ hle₁ _ => ?_
  have hcorresponds₁ := (hcorresponds.mono hle₁).bind (t := .var symbol)
    (b := ⟨var.name, bound, var.span, .quantified⟩) (hs.mono hle₁)
  have hlowered := hinside _ none t hbody _ depth d₁ hd₁ hcorresponds₁ hreads.bind
  have hmem : body ∈ (Expr.quantified span q var type body).children := mem_singleton_self _
  refine (hlowered.excuse fun _ hk => hk.inside hmem fun _ _ => .quantified hbound).bind ?_
  intro r d₂ hd₂ _ hr
  obtain ⟨inner, bodySort⟩ := r
  obtain rfl := Ty.sort_of_isBool hr.1 hbool
  exact (ends_expectSort hd₂).bind fun _ d₃ hd₃ _ _ => .pure hd₃ (.of_prim rfl)

/-- Checked expressions are lowered at the sorts of their types, or an obstacle is excused. -/
theorem accounted (hclosed : Closes cx T) (hapart : SortsApart T) (horderly : cx.env.Orderly)
    (hbody : ∀ l ∈ cx.values, Steady T (lowerBody l.value)) {e : Expr}
    (hadmitted : e.Admitted (cx.setting T {})) : Accounted cx options T outer lowerBody e := by
  induction e using Expr.induction with
  | h e ih =>
  replace ih := fun c hc => ih c hc (Expr.Everywhere.inside hadmitted c hc)
  intro scope want t htyped locals depth d hd hcorresponds hreads
  -- an operand is lowered first, and what hinders it hinders the whole
  have hoperand {c : Expr} {u : Ty} (hc : c ∈ e.operands)
      (hu : Typed (cx.checking options) scope none c u) {d' : Draft} (hd' : d'.Registers T)
      (hle : d.Extends d') (hreads : Unbound (DeclaredAlike cx outer) locals c.reads) :
      Ends (Registers T) (Excused (cx.checking options) cx.values scope e)
        (lowerWith cx lowerBody locals depth c) d' fun r d' => d'.Sorted T u r.2 :=
    (ih c (Expr.mem_children_of_mem_operands hc) scope none u hu locals depth d' hd'
      (hcorresponds.mono hle) hreads).excuse fun _ hk => hk.operand hc
  cases htyped with
  | @literal _ _ span v _ ht =>
    obtain rfl := (passes_literalType v span).result _ ht
    exact (ends_lowerLiteral (fun _ => .unsupported) hd).mono fun r d' _ hr => .of_prim hr
  | name hb =>
    exact ends_lowerName hclosed hbody hb hcorresponds hreads hd
  | variant ht =>
    obtain ⟨rfl, hinfo⟩ := (passes_variantType _ _ _ _).result _ ht
    refine (ends_lowerVariant hinfo hd).mono fun r d' _ hr => ?_
    rw [hr]
    exact .of_ne rfl (by simp [Ty.core])
  | unary he hu =>
    refine (hoperand (by simp) he hd (prefix_refl _) hreads).bind ?_
    exact fun r d₁ hd₁ _ hr => ends_lowerUnary hr hu hd₁
  | @binary _ _ span op l r a b t hl hr ht =>
    obtain ⟨hreadsLeft, hreadsRight⟩ := hreads.append
    refine (hoperand (by simp) hl hd (prefix_refl _) hreadsLeft).bind ?_
    intro x d₁ hd₁ hle₁ hx
    refine (hoperand (by simp) hr hd₁ hle₁ hreadsRight).bind ?_
    intro y d₂ hd₂ hle₂ hy
    have hsuits := (passes_binaryType op a b _ _).result t ht
    refine ends_lowerBinary (hx.mono hle₂) hy hsuits ?_ ?_ hd₂
    · rintro rfl hint
      exact .lax (.modulo hl hr hint)
    · exact fun hop hdiffer => .lax (.equality hop hl hr hdiffer)
  | member hbase hu =>
    refine (hoperand (by simp) hbase hd (prefix_refl _) hreads).bind ?_
    exact fun r d₁ hd₁ _ hr => ends_lowerMember hclosed hapart (fun _ => .unsupported) hr hu hd₁
  | @call _ _ span callee args tys t hargs ht =>
    obtain ⟨f, hf, hcall⟩ := (passes_callType callee tys).result t ht
    -- the checker has found the function, but lowering has none with type parameters
    refine (ends_calledFunction (fun _ => .unsupported) (fun hnone => ?_) hd).bind ?_
    · cases hnone.symm.trans hf
    intro f' d₁ hd₁ hle₁ hf'
    obtain ⟨hf', htypes, -⟩ := hf'
    cases hf.symm.trans hf'
    obtain ⟨rfl, hfits⟩ := hcall htypes
    have hparams : ∀ ty ∈ f.params.map (·.2), (cx.setting T {}).Admits ty :=
      forall_mem_map.mpr (hclosed.params _ f hf htypes)
    refine (ends_lowerArgs (fun _ => .unsupported) hfits hargs hparams ih
      (fun e he k hk => hk.operand he) ?_ (hcorresponds.mono hle₁) hreads hd₁).bind ?_
    · exact fun p e u he hu hdiffer => .lax (.argument hf he hu hdiffer)
    intro rs d₂ hd₂ _ _
    refine (ends_sortOf (fun _ => .unsupported) (hclosed.results _ f hf htypes) hd₂).bind ?_
    intro r d₃ hd₃ _ hr
    exact (ends_addFunction hd₃).bind fun _ d₄ hd₄ hle₄ _ => .pure hd₄ (hr.mono hle₄)
  | record =>
    exact .stop hd .unsupported
  | select he _ _ harms hu => exact ends_lowerSelect he harms hu ih hcorresponds hreads hd
  | @satisfies _ _ span e' u test he htest =>
    refine (hoperand (by simp) he hd (prefix_refl _) hreads).bind ?_
    intro r d₁ hd₁ _ _
    refine (ends_lowerTest ((passes_checkTest _ _).result _ htest) hd₁).bind ?_
    exact fun _ d₂ hd₂ _ _ => .pure hd₂ (.of_prim rfl)
  | @quantified _ _ span q var type bound inside body t hbound hinside htyped hbool =>
    have hstands : Stands cx.env [] type bound := horderly.stands_of_gives hbound
    obtain rfl := (passes_bindName _ _ _).result _ hinside
    rw [lowerWith_quantified]
    split
    · exact .stop hd .depth
    refine (Run.ofExcept (Q := fun ty _ => typeOf cx.env type = .ok ty) hd (fun _ hty => hty)
      fun o ho => .of_typeOf (.inl .here) hstands ho).bind fun ty d₁ hd₁ hle₁ hty => ?_
    -- both sides have found the same type
    obtain rfl := hstands.unique (stands_of_typeOf hty)
    refine (ends_sortOf (fun _ => .unsupported) (hadmitted.here bound hstands) hd₁).bind ?_
    intro r d₂ hd₂ hle₂ hr
    refine (ends_warnHidden hd₂).bind fun _ d₃ hd₃ hle₃ _ => ?_
    have hcorresponds₃ := hcorresponds.mono (hle₁.trans (hle₂.trans hle₃))
    exact ends_lowerBound span q r.2 (depth + 1) (ih body (mem_singleton_self _)) hbound htyped
      hbool (hr.mono hle₃) hcorresponds₃ hreads hd₃

end Accounted

end Statute
