import Statute.Proofs.Lowering.Obstacles

/-!
# Sorts follow types

The checker finds a type for each part of a principle, and lowering a sort. Both go down the same
way: `Below` leads from a part to those inside it, with the scope of the one pass and the locals of
the other. `Below.inStep` says that a step down keeps the two in step, `InStep`, and
`InStep.hasSort` that parts in step are lowered at the sorts of their types. So in a principle that
reads no declared value and has no part of a struct type, sorts follow types throughout,
`lowered_at_sort_of_type`.

Numbers are where the two passes decide differently: the type of a `match` is that of its first arm,
while lowering looks for a real number among all arms up to the one that always applies. The later
arms have to fit the first, so there is a real number among them only if the first is one.
-/

namespace Statute

open Logic Checking List

attribute [local simp] Expr.operands

/-!
## The sort of a type
-/

/-- Wherever the sort of the type is asked for, it is `s`. -/
def Env.Sorts (env : Env) (t : Ty) (s : SmtSort) : Prop :=
  ∀ span d, ∃ limits, ((sortOf env span t).run.run d).1 = .ok (s, limits)

/-- The sort of a type and its limits do not depend on what has been lowered before. -/
theorem toOption_sortOf (env : Env) (span : Span) (t : Ty) (d : Draft) :
    ((sortOf env span t).run.run d).1.toOption = t.encoding? := by
  rcases t.isDeclared env span d with ⟨r, hr, hrun⟩ | ⟨hnone, o, what, -, hrun⟩
  · rw [hrun, hr]
    rfl
  · rw [hrun, hnone]
    rfl

/-- The type is lowered to values of the sort. -/
def Ty.HasSort (t : Ty) (s : SmtSort) : Prop := ∃ limits, t.encoding? = some (s, limits)

namespace Ty.HasSort

variable {t : Ty} {s : SmtSort}

theorem of_prim {p : Prim} (h : p.coreSort? = some s) : (Ty.prim p).HasSort s := by
  cases p <;> cases h <;> exact ⟨_, rfl⟩

theorem sorts (h : t.HasSort s) (env : Env) : env.Sorts t s := by
  intro span d
  obtain ⟨limits, hlimits⟩ := h
  have hrun := (toOption_sortOf env span t d).trans hlimits
  cases hresult : ((sortOf env span t).run.run d).1 with
  | error o =>
    rw [hresult] at hrun
    cases hrun
  | ok r =>
    rw [hresult] at hrun
    cases hrun
    exact ⟨limits, rfl⟩

theorem sort_core (h : t.HasSort s) : t.coreSort? = some s := by
  obtain ⟨limits, hlimits⟩ := h
  exact Ty.coreSort?_of_encoding? hlimits

theorem core (h : t.HasSort s) : t.core.HasSort s := by
  rcases Ty.coreSort?_cases h.sort_core with ⟨p, hcore, hp⟩ | ⟨n, args, hcore, rfl⟩ |
    ⟨n, hcore, rfl⟩ | ⟨c, hcore, rfl⟩
  all_goals rw [hcore]
  · exact of_prim hp
  all_goals exact ⟨_, rfl⟩

end Ty.HasSort

theorem Env.Sorts.hasSort {env : Env} {t : Ty} {s : SmtSort} (h : env.Sorts t s) : t.HasSort s := by
  obtain ⟨limits, hlimits⟩ := h {} {}
  have hrun := toOption_sortOf env {} t {}
  rw [hlimits] at hrun
  exact ⟨limits, hrun.symm⟩

/-!
## What lowering comes to
-/

theorem exists_of_forall₂ {β γ : Type} {R : β → γ → Prop} {as bs a} (h : List.Forall₂ R as bs)
    (ha : a ∈ as) : ∃ b ∈ bs, R a b := by
  induction h with
  | nil => cases ha
  | @cons _ b _ bs hab _ ih => grind

variable {span span' : Span} {op : UnaryOp} {r : Lowered} {p : Pattern} {ts tys : List (Ty × Span)}
  {cx : Context}

section Steps

variable {env : Env}

theorem results_encoding? {t : Ty} : Results (sortOf env span t) fun r => t.encoding? = some r := by
  intro d r hr
  have hrun := toOption_sortOf env span t d
  rw [hr] at hrun
  exact hrun.symm

theorem results_sortOf {t : Ty} : Results (sortOf env span t) fun r => t.HasSort r.1 :=
  results_encoding?.mono fun r hr => ⟨r.2, hr⟩

theorem results_lowerVariant {type variant : Ident} :
    Results (lowerVariant env type variant span) fun r => (Ty.enum type.name).HasSort r.2 := by
  unfold lowerVariant
  split
  · exact .stop
  unfold enumSort
  refine Results.bind (Q := fun s => s = .enum type.name) ?_ fun s hs => .pure ?_
  · split
    · exact Results.any.bind fun _ _ => .pure rfl
    · exact .pure rfl
  · rw [hs]
    exact ⟨_, rfl⟩

theorem results_lowerUnary {a u : Ty} (hr : a.HasSort r.2) (hu : Gives (unaryType op a span) u) :
    Results (lowerUnary op r span') fun r' => u.HasSort r'.2 := by
  refine decides_lowerUnary.results.mono fun r' hr' => ?_
  rcases (passes_unaryType op a span).result u hu with ⟨rfl, -, rfl⟩ | ⟨rfl, -, rfl⟩
  · cases hr'
    exact .of_prim rfl
  · cases hr'
    exact hr.core

theorem results_lowerPattern : Results (lowerPattern env r p) fun c => c.2 = p.boundLocals r := by
  cases p with
  | wildcard | binding => exact .pure rfl
  | literal span v | variant span type v =>
    exact Results.any.bind fun _ _ => Results.any.bind fun _ _ => .pure rfl
  | satisfies span test => exact Results.any.bind fun _ _ => .pure rfl

/-- A `match` has the sort of the type of its first arm: the others fit that type. -/
theorem hasSort_armsSort {a : LoweredArm} {arms : List LoweredArm} {t : Ty × Span}
    (ha : t.1.HasSort a.sort)
    (harms : List.Forall₂ (fun a t => t.1.HasSort a.sort) arms (ts.take arms.length))
    (hfits : ∀ u ∈ ts, fits env t.1 u.1) : t.1.HasSort (armsSort (a :: arms)) := by
  rw [armsSort_cons env ha.sort_core fun b hb => ?_]
  · exact ha
  obtain ⟨u, hu, hb⟩ := exists_of_forall₂ harms hb
  exact ⟨u.1, hb.sort_core, hfits u (mem_of_mem_take hu)⟩

/-- The type of the arms is that of the first, and its sort that of the `match`. -/
theorem hasSort_of_joinArms {arms : List LoweredArm} {u : Ty} (hne : arms ≠ [])
    (harms : List.Forall₂ (fun a t => t.1.HasSort a.sort) arms (tys.take arms.length))
    (hu : Gives (joinArms cx .unknown tys) u) : u.HasSort (armsSort arms) := by
  cases arms with
  | nil => exact absurd rfl hne
  | cons a arms =>
    cases tys with
    | nil => cases harms
    | cons t ts =>
      cases harms with
      | cons ha harms =>
      have hknown : t.1.isUnknown = false := Ty.isUnknown_of_coreSort? ha.sort_core
      obtain ⟨rfl, hfits⟩ := (passes_joinArms hknown ts).result u hu
      exact hasSort_armsSort ha harms hfits

end Steps

variable {e base body : Expr} {arms : List (Arm Expr Expr)}

/-!
## What is inferred inside
-/

section Inside

variable {cx : Context} {scope : Scope} {want : Option Ty} {span : Span}

theorem gives_of_binary {op} {l r : Expr} {t}
    (h : Gives (infer cx scope want (.binary span op l r)) t) :
    ∃ a b, Gives (infer cx scope none l) a ∧ Gives (infer cx scope none r) b ∧
      Gives (binaryType op a b l.span r.span) t := by
  have hlast (a b : Ty) := (tame_binaryType op a b l.span r.span).onlyAdds
  obtain ⟨a, ha, h⟩ := h.of_bind fun a => (onlyAdds_infer none r).bind (hlast a)
  obtain ⟨b, hb, h⟩ := h.of_bind (hlast a)
  exact ⟨a, b, ha, hb, h⟩

theorem passes_inferArgs_each (args : List Expr) :
    Passes (inferArgs cx scope args) fun tys =>
      List.Forall₂ (fun e t => Gives (infer cx scope none e) t.1) args tys := by
  induction args with
  | nil => exact .pure .nil
  | cons e es ih =>
    refine (onlyAdds_infer none e).gives.bind fun t => ih.bind fun tys => ?_
    exact .pure fun hes he => .cons he hes

/-- The guard and the body of an arm are checked with what its pattern binds. -/
def GivesArm (cx : Context) (scope : Scope) (want : Option Ty) (scrutinee : Ty)
    (a : Arm Expr Expr) (t : Ty) : Prop :=
  (∀ g ∈ a.guard, ∃ c, Gives (infer cx (a.pattern.enter scope.push scrutinee) none g) c) ∧
    Gives (infer cx (a.pattern.enter scope.push scrutinee) want a.body) t

theorem passes_inferArms_each (scrutinee : Ty) (arms : List (Arm Expr Expr)) :
    Passes (inferArms cx scope want scrutinee arms) fun tys =>
      List.Forall₂ (fun a t => GivesArm cx scope want scrutinee a t.1) arms tys := by
  induction arms with
  | nil => exact .pure .nil
  | cons a arms ih =>
    obtain ⟨span, p, guard, body⟩ := a
    cases guard with
    | none =>
      refine (passes_checkPattern scrutinee p).bind fun inside => ?_
      refine (onlyAdds_infer want body).gives.bind fun t => ih.bind fun tys => ?_
      refine .pure fun harms hbody hinside => .cons ⟨by simp, ?_⟩ harms
      exact hinside ▸ hbody
    | some g =>
      refine (passes_checkPattern scrutinee p).bind fun inside => ?_
      refine (onlyAdds_infer none g).gives.bind fun c => (OnlyAdds.faultIf _ _ _).gives.bind ?_
      intro _
      refine (onlyAdds_infer want body).gives.bind fun t => ih.bind fun tys => ?_
      refine .pure fun harms hbody _ hguard hinside => ?_
      subst hinside
      exact .cons ⟨by simpa using ⟨c, hguard⟩, hbody⟩ harms

theorem passes_infer_select {place : Span} :
    Passes (infer cx scope want (.select span place e arms)) fun u =>
      ∃ s tys, Gives (infer cx scope none e) s ∧
        List.Forall₂ (fun a t => GivesArm cx scope want s a t.1) arms tys ∧
        Gives (joinArms cx .unknown tys) u := by
  refine (onlyAdds_infer none e).gives.bind fun s => (OnlyAdds.faults _).gives.bind fun _ => ?_
  refine (OnlyAdds.faults _).gives.bind fun _ => (passes_inferArms_each s arms).bind fun tys => ?_
  exact (onlyAdds_joinArms cx _ tys).passes fun u hu harms _ _ he => ⟨s, tys, he, harms, hu⟩

theorem passes_infer_quantified {q : Quantifier} {var : Ident} {type : TypeExpr} :
    Passes (infer cx scope want (.quantified span q var type body)) fun u =>
      u = .bool ∧ ∃ bound t, Gives (cx.resolve type) bound ∧
        Gives (infer cx (scope.push.add ⟨var.name, bound, var.span, .quantified⟩) none body) t := by
  refine (onlyAdds_resolve cx type).gives.bind fun bound => ?_
  refine (passes_bindName var bound .quantified).bind fun inside => ?_
  refine (onlyAdds_infer none body).gives.bind fun t => (OnlyAdds.faultIf _ _ _).gives.bind ?_
  exact fun _ => .pure fun _ hbody hinside hbound => ⟨rfl, bound, t, hbound, hinside ▸ hbody⟩

end Inside

/-!
## Going down together
-/

/-- A part of a principle, with the names that are bound around it: those of the checker in the
scope, those of lowering as locals. -/
structure Place where
  scope : Scope
  locals : List Local
  expr : Expr

/-- With some draft at hand, and at some depth, the expression becomes `r`. -/
def LoweringContext.LowersTo (cx : LoweringContext) (locals : List Local) (e : Expr)
    (r : Lowered) : Prop :=
  ∃ pending depth d, ((lowerIn cx pending locals depth e).run.run d).1 = .ok r

/-- One step down, for both passes. Under a pattern a name is bound at the type that is inferred for
the scrutinee and to what the scrutinee becomes, under a quantifier at the type that is written and
to a symbol of its sort. -/
inductive Below (cx : LoweringContext) (options : CheckOptions) : Place → Place → Prop where
  | operand {scope locals e c} (hc : c ∈ e.operands) :
      Below cx options ⟨scope, locals, e⟩ ⟨scope, locals, c⟩
  | arm {scope locals span place e t r arms a c}
      (ht : Gives (infer (cx.checking options) scope none e) t) (hr : cx.LowersTo locals e r)
      (ha : a ∈ arms) (hc : c ∈ a.guard.toList ++ [a.body]) :
      Below cx options ⟨scope, locals, .select span place e arms⟩
        ⟨a.pattern.enter scope.push t, a.pattern.boundLocals r ++ locals, c⟩
  | body {scope locals span q var type bound ty s symbol body}
      (hbound : Gives ((cx.checking options).resolve type) bound)
      (hty : typeOf cx.env type = .ok ty) (hs : cx.env.Sorts ty s) :
      Below cx options ⟨scope, locals, .quantified span q var type body⟩
        ⟨scope.push.add ⟨var.name, bound, var.span, .quantified⟩,
          ⟨var.name, .var symbol, s⟩ :: locals, body⟩

/-- The parts that are come to from a place, the whole included. -/
abbrev Visits (cx : LoweringContext) (options : CheckOptions) : Place → Place → Prop :=
  Relation.ReflTransGen (Below cx options)

/-- The type that the checker infers for a part. -/
def Place.Infers (p : Place) (cx : LoweringContext) (options : CheckOptions) (t : Ty) : Prop :=
  Gives (infer (cx.checking options) p.scope none p.expr) t

/-- No part that is come to is of a struct type. -/
def Place.StructFree (p : Place) (cx : LoweringContext) (options : CheckOptions) : Prop :=
  ∀ q, Visits cx options p q → ∀ t, q.Infers cx options t → ∀ n args, t.core ≠ .struct n args

/-- The locals are in scope, and their sorts are those of their types. -/
def LocalsSorted (scope : Scope) (locals : List Local) : Prop :=
  ∀ x l, locals.find? (·.name == x) = some l →
    ∃ b, scope.lookup x = some b ∧ b.type.HasSort l.sort

variable {t : Ty} {r : Lowered}

namespace LocalsSorted

variable {scope : Scope} {locals : List Local}

theorem bind (h : LocalsSorted scope locals) {b : Bound} {t : Term} {s : SmtSort}
    (hs : b.type.HasSort s) : LocalsSorted (scope.push.add b) (⟨b.name, t, s⟩ :: locals) := by
  intro x l hl
  rw [Scope.lookup_add]
  by_cases hname : b.name = x
  · grind
  rw [find?_cons_of_neg (by simpa using hname)] at hl
  rw [if_neg hname, Scope.lookup_push]
  exact h x l hl

theorem bindPattern (h : LocalsSorted scope locals) (hr : t.HasSort r.2) :
    LocalsSorted (p.enter scope.push t) (p.boundLocals r ++ locals) := by
  cases p with
  | binding id => exact h.bind (b := ⟨id.name, t, id.span, .variable⟩) hr
  | _ => exact fun x l hl => (Scope.lookup_push scope x).symm ▸ h x l hl

end LocalsSorted

/-- The part has a type, and the names that it reads are bound at the sorts of their types. -/
structure InStep (cx : LoweringContext) (options : CheckOptions) (p : Place) : Prop where
  inferred : ∃ t, p.Infers cx options t
  closed : Unbound (fun _ => False) p.locals p.expr.reads
  sorted : LocalsSorted p.scope p.locals

variable {scope : Scope}

section Operands

variable {e c : Expr}

theorem Expr.reads_of_mem_operands (hc : c ∈ e.operands) : c.reads ⊆ e.reads := by
  intro x hx
  cases e with
  | unary | member | satisfies =>
    obtain rfl := mem_singleton.mp hc
    exact hx
  | binary span op l r =>
    rcases mem_pair.mp hc with rfl | rfl
    · exact mem_append_left _ hx
    · exact mem_append_right _ hx
  | call span callee args => exact Expr.mem_readsOfArgs.mpr ⟨c, hc, hx⟩
  | select span place e arms =>
    obtain rfl := mem_singleton.mp hc
    exact mem_append_left _ hx
  | literal | name | variant | record | quantified => cases hc

theorem gives_of_mem_operands {want : Option Ty} (hc : c ∈ e.operands)
    (h : Gives (infer cx scope want e) t) : ∃ u, Gives (infer cx scope none c) u := by
  cases e with
  | unary span op e =>
    obtain rfl := mem_singleton.mp hc
    obtain ⟨a, ha, -⟩ := h.of_bind fun a => (tame_unaryType op a _).onlyAdds
    exact ⟨a, ha⟩
  | member span base field =>
    obtain rfl := mem_singleton.mp hc
    obtain ⟨a, ha, -⟩ := h.of_bind fun a => (tame_memberType a _ field).onlyAdds
    exact ⟨a, ha⟩
  | satisfies span e test =>
    obtain rfl := mem_singleton.mp hc
    obtain ⟨a, ha, -⟩ := h.of_bind fun _ => (tame_checkTest test).onlyAdds.map _
    exact ⟨a, ha⟩
  | binary span op l r =>
    obtain ⟨a, b, ha, hb, -⟩ := gives_of_binary h
    rcases mem_pair.mp hc with rfl | rfl
    · exact ⟨a, ha⟩
    · exact ⟨b, hb⟩
  | call span callee args =>
    obtain ⟨tys, htys, -⟩ := h.of_bind (onlyAdds_callType cx callee)
    obtain ⟨u, -, hu⟩ := exists_of_forall₂ ((passes_inferArgs_each args).result tys htys) hc
    exact ⟨u.1, hu⟩
  | select =>
    obtain rfl := mem_singleton.mp hc
    obtain ⟨s, -, hs, -⟩ := passes_infer_select.result t h
    exact ⟨s, hs⟩
  | literal | name | variant | record | quantified => cases hc

end Operands

variable {locals : List Local}

/-- What the arms read, but for what their patterns bind. -/
theorem unbound_of_mem_arms {P : String → Prop} {a : Arm Expr Expr} {c : Expr} (ha : a ∈ arms)
    (hc : c ∈ a.guard.toList ++ [a.body]) (h : Unbound P locals (Expr.readsOfArms arms)) :
    Unbound P (a.pattern.boundLocals r ++ locals) c.reads := by
  induction arms with
  | nil => cases ha
  | cons b arms ih =>
    obtain ⟨span, p, guard, body⟩ := b
    cases guard with
    | none =>
      obtain ⟨hthis, hothers⟩ := Unbound.append h
      rcases mem_cons.mp ha with rfl | ha
      · obtain rfl : c = body := by simpa using hc
        exact hthis.bindPattern
      · exact ih ha hothers
    | some g =>
      obtain ⟨hthis, hothers⟩ := Unbound.append h
      rcases mem_cons.mp ha with rfl | ha
      · obtain ⟨hguard, hbody⟩ := (hthis.bindPattern (r := r)).append
        have hc : c = g ∨ c = body := by simpa using hc
        rcases hc with rfl | rfl
        · exact hguard
        · exact hbody
      · exact ih ha hothers

variable {p q : Place}

section InStep

variable {cx : LoweringContext} {options : CheckOptions}

theorem InStep.operand {c : Expr} (h : InStep cx options ⟨scope, locals, e⟩) (hc : c ∈ e.operands) :
    InStep cx options ⟨scope, locals, c⟩ := by
  obtain ⟨⟨u, hu⟩, hclosed, hsorted⟩ := h
  refine ⟨gives_of_mem_operands hc hu, ?_, hsorted⟩
  exact fun x hx => hclosed x (Expr.reads_of_mem_operands hc hx)

/-- A step down keeps the passes in step, if what is matched is lowered at the sort of its type. -/
theorem Below.inStep (horderly : cx.env.Orderly) (h : Below cx options p q)
    (hp : InStep cx options p) (hoperands : ∀ c ∈ p.expr.operands, ∀ t, Gives (infer (cx.checking
      options) p.scope none c) t → ∀ r, cx.LowersTo p.locals c r → t.HasSort r.2) :
    InStep cx options q := by
  cases h with
  | operand hc => exact hp.operand hc
  | @arm scope locals span place e t r arms a c ht hr ha hc =>
    obtain ⟨⟨u, hu⟩, hclosed, hsorted⟩ := hp
    have hsort : t.HasSort r.2 := hoperands e (mem_singleton_self _) t ht r hr
    refine ⟨?_, unbound_of_mem_arms ha hc (Unbound.append hclosed).2, hsorted.bindPattern hsort⟩
    obtain ⟨s, tys, hs, harms, -⟩ := passes_infer_select.result u hu
    obtain rfl := Gives.unique (onlyAdds_infer none e) ht hs
    obtain ⟨v, -, hguard, hbody⟩ := exists_of_forall₂ harms ha
    rcases mem_append.mp hc with hc | hc
    · exact hguard c (Option.mem_toList.mp hc)
    · obtain rfl := mem_singleton.mp hc
      exact ⟨v.1, hbody⟩
  | @body scope locals span q var type bound ty s symbol body hbound hty hs =>
    obtain ⟨⟨u, hu⟩, hclosed, hsorted⟩ := hp
    obtain ⟨-, bound', t, hbound', ht⟩ := passes_infer_quantified.result u hu
    obtain rfl := Gives.unique (onlyAdds_resolve _ type) hbound hbound'
    -- both passes have found the same type
    obtain rfl := (horderly.stands_of_gives hbound).unique (stands_of_typeOf hty)
    exact ⟨⟨t, ht⟩, Unbound.bind hclosed, hsorted.bind (b := ⟨_, _, _, _⟩) hs.hasSort⟩

theorem Place.StructFree.below (h : p.StructFree cx options) (hq : Below cx options p q) :
    q.StructFree cx options :=
  fun q' hq' => h q' (.head hq hq')

/-- Lowered arms have the sorts of the types of their bodies, as far as arms are lowered. -/
theorem results_lowerEachArm {lowerBody : Expr → Lowering Lowered} {depth : Nat}
    (h : List.Forall₂ (fun a t => Results
      (lowerWith cx lowerBody (a.pattern.boundLocals r ++ locals) depth a.body) fun r' =>
      t.1.HasSort r'.2) arms tys) :
    Results (lowerEachArm cx lowerBody locals depth r arms) fun lowered =>
      List.Forall₂ (fun a t => t.1.HasSort a.sort) lowered.1 (tys.take lowered.1.length) := by
  induction h with
  | nil => exact .pure .nil
  | @cons a t arms tys ha _ ih =>
    obtain ⟨span, p, guard, body⟩ := a
    cases guard with
    | none =>
      refine results_lowerPattern.bind fun c hc => ?_
      obtain ⟨c, bound⟩ := c
      obtain rfl : bound = p.boundLocals r := hc
      refine ha.bind fun r' hr' => ?_
      dsimp only
      split
      · exact .pure (.cons hr' .nil)
      · exact ih.bind fun rest hrest => .pure (.cons hr' hrest)
    | some g =>
      refine results_lowerPattern.bind fun c hc => ?_
      obtain ⟨c, bound⟩ := c
      obtain rfl : bound = p.boundLocals r := hc
      refine Results.any.bind fun _ _ => Results.any.bind fun _ _ => ha.bind fun r' hr' => ?_
      exact ih.bind fun rest hrest => .pure (.cons hr' hrest)

/-- Parts in step are lowered at the sorts of their types. -/
theorem InStep.hasSort (horderly : cx.env.Orderly) (hp : InStep cx options p)
    (hfree : p.StructFree cx options) (ht : p.Infers cx options t)
    (hr : cx.LowersTo p.locals p.expr r) : t.HasSort r.2 := by
  obtain ⟨scope, locals, e⟩ := p
  induction e using Expr.induction generalizing scope locals t r with
  | h e ih =>
  have hoperand : ∀ c ∈ e.operands, ∀ u, Gives (infer (cx.checking options) scope none c) u →
      ∀ r, cx.LowersTo locals c r → u.HasSort r.2 := by
    intro c hc u hu r hr
    exact ih c (Expr.mem_children_of_mem_operands hc) _ _ (hp.operand hc)
      (hfree.below (.operand hc)) hu hr
  have hinside {q : Place} (hq : Below cx options ⟨scope, locals, e⟩ q) (hmem : q.expr ∈ e.children)
      {u : Ty} (hu : q.Infers cx options u) {r : Lowered} (hr : cx.LowersTo q.locals q.expr r) :
      u.HasSort r.2 :=
    ih q.expr hmem _ _ (hq.inStep horderly hp hoperand) (hfree.below hq) hu hr
  obtain ⟨pending, depth, d, hr⟩ := hr
  obtain ⟨lowerBody, hbody⟩ : ∃ lowerBody, ∀ locals depth e,
      lowerIn cx pending locals depth e = lowerWith cx lowerBody locals depth e := by
    cases pending with
    | zero | succ pending => exact ⟨_, fun _ _ _ => rfl⟩
  have hlowers {locals : List Local} {depth : Nat} {e : Expr} :
      Results (lowerWith cx lowerBody locals depth e) (cx.LowersTo locals e) := by
    intro d r hr
    exact ⟨pending, depth, d, by rw [hbody, hr]⟩
  rw [hbody] at hr
  suffices h : Results (lowerWith cx lowerBody locals depth e) fun r => t.HasSort r.2 from h d r hr
  cases e with
  | literal span v =>
    obtain rfl := (passes_literalType v span).result t ht
    exact decides_lowerLiteral.results.mono fun r hr => .of_prim (v.coreSort_of_encoding? hr)
  | name span id =>
    rw [lowerWith, lowerName]
    split
    next l hl =>
      obtain ⟨b, hb, hsort⟩ := hp.sorted id.name l hl
      cases (passes_infer _ scope none (.name span id)).result t ht with
      | name hb' =>
        cases hb.symm.trans hb'
        exact .pure hsort
    next hnone => exact (hp.closed id.name (mem_singleton_self _) hnone).elim
  | variant span type variant =>
    obtain ⟨rfl, -⟩ := (passes_variantType _ type variant span).result t ht
    exact results_lowerVariant
  | unary span op e =>
    obtain ⟨a, ha, hu⟩ := ht.of_bind fun a => (tame_unaryType op a _).onlyAdds
    refine hlowers.bind fun r hr => results_lowerUnary ?_ hu
    exact hoperand e (by simp) a ha r hr
  | binary span op l r =>
    obtain ⟨a, b, ha, hb, hu⟩ := gives_of_binary ht
    have hsuits := (passes_binaryType op a b _ _).result t hu
    refine hlowers.bind fun x hx => hlowers.bind fun y hy => ?_
    have hleft := (hoperand l (by simp) a ha x hx).sort_core
    have hright := (hoperand r (by simp) b hb y hy).sort_core
    refine decides_lowerBinary.results.mono fun r' hr' => ?_
    obtain ⟨p, rfl, hp⟩ := hsuits.prim_of_combines hleft hright hr'
    exact .of_prim hp
  | member span base field =>
    obtain ⟨a, ha, hu⟩ := ht.of_bind fun a => (tame_memberType a _ field).onlyAdds
    refine hlowers.bind fun r hr => ?_
    have hsort := (hoperand base (by simp) a ha r hr).sort_core
    rcases (passes_memberType _ _ _ _).result t hu with hcore | ⟨n, args, hcore, -⟩
    · rw [Ty.coreSort?, hcore] at hsort
      cases hsort
    have hbase : Below cx options ⟨scope, locals, .member span base field⟩ _ :=
      .operand (c := base) (by simp)
    exact absurd hcore (hfree _ (.single hbase) a ha n args)
  | call span callee args =>
    obtain ⟨tys, -, hu⟩ := ht.of_bind (onlyAdds_callType _ callee)
    obtain ⟨f, hf, hcall⟩ := (passes_callType callee tys).result t hu
    refine decides_calledFunction.results.bind fun f' hf' => ?_
    cases hf.symm.trans hf'.1
    obtain ⟨rfl, -⟩ := hcall hf'.2.1
    refine Results.any.bind fun _ _ => results_sortOf.bind fun r hr => ?_
    exact Results.any.bind fun _ _ => .pure hr
  | record => exact .stop
  | select span place e arms =>
    obtain ⟨s, tys, hs, harms, hu⟩ := passes_infer_select.result t ht
    refine hlowers.bind fun r hr => ?_
    have hbodies : List.Forall₂ (fun a t => Results (lowerWith cx lowerBody
        (a.pattern.boundLocals r ++ locals) depth a.body) fun r' => t.1.HasSort r'.2) arms tys := by
      refine ((forall₂_and_left arms tys).mpr ⟨fun a ha => ha, harms⟩).imp ?_
      intro a t h
      obtain ⟨ha, -, hbody⟩ := h
      refine hlowers.mono fun r' hr' => ?_
      exact hinside (.arm hs hr ha (by simp)) (Expr.body_mem_children ha) hbody hr'
    refine (results_lowerEachArm hbodies).bind fun lowered hlowered => ?_
    refine decides_lowerArms.results.mono fun r' hr' => ?_
    obtain ⟨-, hne, hsort, -⟩ := hr'
    rw [hsort]
    exact hasSort_of_joinArms hne hlowered hu
  | satisfies span e test =>
    cases (passes_infer _ scope none _).result t ht
    exact Results.any.bind fun _ _ => Results.any.bind fun _ _ => .pure (.of_prim rfl)
  | quantified span q var type body =>
    obtain ⟨rfl, -⟩ := passes_infer_quantified.result t ht
    rw [lowerWith_quantified]
    split
    · exact .stop
    refine Results.any.bind fun _ _ => Results.any.bind fun _ _ => Results.any.bind fun _ _ => ?_
    refine Results.any.bind fun _ _ => Results.any.bind fun _ _ => Results.any.bind fun _ _ => ?_
    exact .pure (.of_prim rfl)

/-- On the way down the passes stay in step. -/
theorem InStep.visits (horderly : cx.env.Orderly) (hp : InStep cx options p)
    (hfree : p.StructFree cx options) (h : Visits cx options p q) :
    InStep cx options q ∧ q.StructFree cx options := by
  induction h with
  | refl => exact ⟨hp, hfree⟩
  | tail _ hlast ih =>
    obtain ⟨hstep, hfree'⟩ := ih
    refine ⟨hlast.inStep horderly hstep fun c hc t ht r hr => ?_, hfree'.below hlast⟩
    exact (hstep.operand hc).hasSort horderly (hfree'.below (.operand hc)) ht hr

end InStep

/-- Every principle of an accepted program is checked in some scope; and wherever it is checked, if
it reads no name that is bound outside it and no part of it is of a struct type, then each part that
is come to has a type, and whatever the part becomes has the sort of that type. -/
theorem lowered_at_sort_of_type {p : Program} {options : CheckOptions} {cp : CheckedProgram}
    (hcheck : p.check options = .ok cp) (maxDepth : Nat) :
    (∀ q ∈ p.principles, ∃ scope, Reaches ⟨cp.env, options, []⟩ {} p.items q scope) ∧
    ∀ q scope, Reaches ⟨cp.env, options, []⟩ {} p.items q scope → q.body.reads = [] →
      Place.StructFree ⟨scope.push, [], q.body⟩ (.ofProgram cp maxDepth) options →
      ∀ part, Visits (.ofProgram cp maxDepth) options ⟨scope.push, [], q.body⟩ part →
        ∃ t, part.Infers (.ofProgram cp maxDepth) options t ∧
          ∀ r, (LoweringContext.ofProgram cp maxDepth).LowersTo part.locals part.expr r →
            cp.env.Sorts t r.2 := by
  refine ⟨fun q hq => ?_, fun q scope hreaches hreads hfree part hpart => ?_⟩
  · rw [← Program.principles_sites] at hq
    obtain ⟨s, hs, rfl⟩ := mem_map.mp hq
    obtain ⟨scope, hreaches, -⟩ := visited_of_check hcheck s hs
    exact ⟨scope, hreaches⟩
  · have horderly := orderly_of_check hcheck
    have hstart : InStep (.ofProgram cp maxDepth) options ⟨scope.push, [], q.body⟩ := by
      refine ⟨hreaches.infers (gives_checkItems hcheck), ?_, fun x l hl => nomatch hl⟩
      rw [hreads]
      exact fun x hx => nomatch hx
    obtain ⟨hstep, hfree'⟩ := hstart.visits horderly hfree hpart
    obtain ⟨t, ht⟩ := hstep.inferred
    exact ⟨t, ht, fun r hr => (hstep.hasSort horderly hfree' ht hr).sorts cp.env⟩

/-!
## Shares of a penalty
-/

/-- What is due for `n` offences: the rate `x` if there is none, and else one for each. -/
def due : Expr :=
  .select {} {} "n"
    [⟨{}, .literal {} (.int 0), none, "x"⟩,
      ⟨{}, .wildcard {}, none, "n"⟩]

def countAndRate : Expr := .binary {} .add "n" "x"

/-- What is due is at most the number of offences and the rate together. -/
def shares : Principle where
  span := {}
  name := "Shares"
  body :=
    .quantified {} .all "n" (.refine {} (.prim {} .int) (some 0) (some 9)) <|
      .quantified {} .all "x" (.prim {} .float) <| .binary {} .le due countAndRate

def penalties : Program := ⟨"penalties", [.principle shares]⟩

theorem check_penalties : penalties.check = .ok ⟨penalties, {}, []⟩ := check_eq_ok rfl

/-- The context in which the principle on shares is lowered. -/
abbrev penaltyContext : LoweringContext := .ofProgram ⟨penalties, {}, []⟩

/-- The number of offences is in scope. -/
def underCount : Scope :=
  ({} : Scope).push.push.add ⟨"n", .refine .int (some 0) (some 9), {}, .quantified⟩

/-- The rate is in scope too. -/
def underRate : Scope := underCount.push.add ⟨"x", .prim .float, {}, .quantified⟩

/-- The parts of the principle on shares, each with its type. -/
inductive SharesPart : Scope → Expr → Ty → Prop where
  | whole : SharesPart ({} : Scope).push shares.body .bool
  | inside : SharesPart underCount (.quantified {} .all "x" (.prim {} .float)
      (.binary {} .le due countAndRate)) .bool
  | comparison : SharesPart underRate (.binary {} .le due countAndRate) .bool
  | due : SharesPart underRate due (.prim .float)
  | countAndRate : SharesPart underRate countAndRate (.prim .float)
  | count : SharesPart underRate "n" (.refine .int (some 0) (some 9))
  | rate : SharesPart underRate "x" (.prim .float)
  | first : SharesPart underRate.push "x" (.prim .float)
  | other : SharesPart underRate.push "n" (.refine .int (some 0) (some 9))

theorem SharesPart.gives (h : SharesPart scope e t) :
    Gives (infer (penaltyContext.checking {}) scope none e) t := by
  cases h with
  | _ => exact ⟨{}, rfl, rfl⟩

theorem SharesPart.below (h : SharesPart p.scope p.expr t) (hq : Below penaltyContext {} p q) :
    ∃ u, SharesPart q.scope q.expr u := by
  cases hq with
  | @operand scope locals e c hc =>
    cases h with
    | comparison =>
      rcases mem_pair.mp hc with rfl | rfl
      · exact ⟨_, .due⟩
      · exact ⟨_, .countAndRate⟩
    | due =>
      obtain rfl := mem_singleton.mp hc
      exact ⟨_, .count⟩
    | countAndRate =>
      rcases mem_pair.mp hc with rfl | rfl
      · exact ⟨_, .count⟩
      · exact ⟨_, .rate⟩
    | _ => cases hc
  | @arm scope locals span place e t r arms a c ht hr ha hc =>
    cases h with
    | due =>
      rcases mem_pair.mp ha with rfl | rfl
      · obtain rfl := mem_singleton.mp hc
        exact ⟨_, .first⟩
      · obtain rfl := mem_singleton.mp hc
        exact ⟨_, .other⟩
  | @body scope locals span q var type bound ty s symbol body hbound hty hs =>
    cases h with
    | whole =>
      obtain rfl := Gives.unique (onlyAdds_resolve _ _) hbound ⟨{}, rfl, rfl⟩
      exact ⟨_, .inside⟩
    | inside =>
      obtain rfl := Gives.unique (onlyAdds_resolve _ _) hbound ⟨{}, rfl, rfl⟩
      exact ⟨_, .comparison⟩

theorem SharesPart.core_ne (h : SharesPart scope e t) (n : String) (args : List Ty) :
    t.core ≠ .struct n args := by
  cases h with
  | _ => exact Ty.noConfusion

theorem structFree_shares :
    Place.StructFree ⟨({} : Scope).push, [], shares.body⟩ penaltyContext {} := by
  intro q hq
  have hpart : ∃ u, SharesPart q.scope q.expr u := by
    induction hq with
    | refl => exact ⟨_, .whole⟩
    | tail _ hlast ih =>
      obtain ⟨u, hu⟩ := ih
      exact hu.below hlast
  obtain ⟨u, hu⟩ := hpart
  intro t ht
  obtain rfl := Gives.unique (onlyAdds_infer none _) ht hu.gives
  exact hu.core_ne

/-- What is due is a real number on both sides, though one of its arms is a whole number. -/
theorem due_lowered_at_sort_of_type :
    penalties.check = .ok ⟨penalties, {}, []⟩ ∧
    Reaches ⟨{}, {}, []⟩ {} penalties.items shares {} ∧ shares.body.reads = [] ∧
    Place.StructFree ⟨({} : Scope).push, [], shares.body⟩ penaltyContext {} ∧
    ∃ locals r, Visits penaltyContext {} ⟨({} : Scope).push, [], shares.body⟩
        ⟨underRate, locals, due⟩ ∧
      Gives (infer (penaltyContext.checking {}) underRate none due) (.prim .float) ∧
      penaltyContext.LowersTo locals due r ∧ ({} : Env).Sorts (.prim .float) r.2 := by
  have hreaches : Reaches ⟨{}, {}, []⟩ {} penalties.items shares {} := .here
  refine ⟨check_penalties, hreaches, rfl, structFree_shares, ?_⟩
  have hcount : ({} : Env).Sorts (.refine .int (some 0) (some 9)) .int := fun _ _ => ⟨_, rfl⟩
  have hrate : ({} : Env).Sorts (.prim .float) .real := fun _ _ => ⟨_, rfl⟩
  have hvisits : Visits penaltyContext {} ⟨({} : Scope).push, [], shares.body⟩
      ⟨underRate, [⟨"x", .var "x", .real⟩, ⟨"n", .var "n", .int⟩], due⟩ :=
    ((Relation.ReflTransGen.single (.body ⟨{}, rfl, rfl⟩ rfl hcount)).tail
      (.body ⟨{}, rfl, rfl⟩ rfl hrate)).tail (.operand mem_cons_self)
  obtain ⟨t, ht, hsorts⟩ := (lowered_at_sort_of_type check_penalties defaultMaxDepth).2 shares {}
    hreaches rfl structFree_shares _ hvisits
  obtain rfl := Gives.unique (onlyAdds_infer none _) ht SharesPart.due.gives
  exact ⟨_, _, hvisits, ht, ⟨0, 0, {}, rfl⟩, hsorts _ ⟨0, 0, {}, rfl⟩⟩

end Statute
