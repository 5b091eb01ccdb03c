import Statute.Program.Item
import Statute.Proofs.Program.Types

/-!
# What expressions mean

The meaning of an expression under a structure for the declared functions and values for the names.
Functions and names are kept apart: a call reads the structure, a name reads the values, whatever
they are called. A quantifier ranges over the values of the type that is written, and a `match` is
the value of its first arm that applies.

The meaning never fails. Struct values, legal tests and literals other than whole numbers, truth
values, texts and dates have none, and there it is an arbitrary fixed value.
-/

namespace Statute

open Logic List

universe u

/-- The value that a whole number, a truth value, a text or a date stands for. A date is the number
of its day. -/
def Literal.meaning {α : Type u} : Literal → Datum α
  | .int n => .int n
  | .bool b => .bool b
  | .string s => .str s
  | .date text => (Date.parse? text).elim default fun d => .int d.dayNumber
  | _ => default

/-- The value of an operator with one operand. -/
noncomputable def UnaryOp.meaning {α : Type u} (op : UnaryOp) (d : Datum α) : Datum α :=
  match op with
  | .neg => Structure.negate d
  | .not => .ofProp (¬d.IsTrue)

/-- The value of an operator with two operands. -/
noncomputable def BinaryOp.meaning {α : Type u} (M : Structure α) (op : BinaryOp)
    (a b : Datum α) : Datum α :=
  match op with
  | .add => M.arith .add a b
  | .sub => M.arith .sub a b
  | .mul => M.arith .mul a b
  | .div => M.arith .div a b
  | .mod => M.arith .mod a b
  | .eq => .ofProp (a = b)
  | .ne => .ofProp (a ≠ b)
  | .lt => .ofProp (a.Less b)
  | .gt => .ofProp (b.Less a)
  | .le => .ofProp (a.AtMost b)
  | .ge => .ofProp (b.AtMost a)
  | .and => .ofProp (a.IsTrue ∧ b.IsTrue)
  | .or => .ofProp (a.IsTrue ∨ b.IsTrue)
  | .implies => .ofProp (a.IsTrue → b.IsTrue)

namespace Pattern

/-- The names that the pattern does not bind. -/
def unbound (p : Pattern) (names : List String) : List String :=
  match p with
  | .binding id => names.filter (· != id.name)
  | _ => names

/-- The value is one that the pattern matches. No value passes a legal test. -/
def Matches {α : Type u} (d : Datum α) : Pattern → Prop
  | .wildcard _ => True
  | .literal _ v => d = v.meaning
  | .variant _ n v => d = .variant n.name v.name
  | .binding _ => True
  | .satisfies _ _ => False

/-- The values of names inside an arm that matches `d`. -/
def bind {α : Type u} (d : Datum α) (σ : Valuation α) : Pattern → Valuation α
  | .binding id => Function.update σ id.name d
  | _ => σ

end Pattern

variable {a : Arm Expr Expr} {P p' : Expr → Prop} {args es : List Expr}

namespace Expr

variable {e : Expr} {arms : List (Arm Expr Expr)} {p : Expr → Prop}

/-- The expressions directly inside an expression. -/
def children : Expr → List Expr
  | .unary _ _ e => [e]
  | .binary _ _ l r => [l, r]
  | .member _ b _ => [b]
  | .call _ _ args => args
  | .record _ _ fields => fields.map (·.2)
  | .select _ _ e arms => e :: arms.flatMap fun a => a.guard.toList ++ [a.body]
  | .satisfies _ e _ => [e]
  | .quantified _ _ _ _ body => [body]
  | .literal _ _ | .name _ _ | .variant _ _ _ => []

theorem body_mem_children {span place : Span} (ha : a ∈ arms) :
    a.body ∈ (Expr.select span place e arms).children := by
  simp only [children, mem_cons, mem_flatMap, mem_append]
  exact .inr ⟨a, ha, by simp⟩

theorem guard_mem_children {span place g} (ha : a ∈ arms) (hg : a.guard = some g) :
    g ∈ (Expr.select span place e arms).children := by
  simp only [children, mem_cons, mem_flatMap, mem_append]
  exact .inr ⟨a, ha, by simp [hg]⟩

/-- Induction over expressions, with one hypothesis for all that is inside. -/
theorem induction (h : ∀ e, (∀ c ∈ e.children, P c) → P e) : ∀ e, P e := by
  have leaf {e : Expr} (he : e.children = []) : P e := h e (by simp [he])
  have single {e c : Expr} (he : e.children = [c]) (hc : P c) : P e := h e (by simpa [he] using hc)
  intro e
  refine @Expr.rec P (fun es => ∀ e ∈ es, P e) (fun fields => ∀ f ∈ fields, P f.2)
    (fun arms => ∀ a ∈ arms, (∀ g ∈ a.guard, P g) ∧ P a.body) (fun f => P f.2)
    (fun a => (∀ g ∈ a.guard, P g) ∧ P a.body) (fun guard => ∀ g ∈ guard, P g)
    (fun _ _ => leaf rfl) (fun _ _ => leaf rfl) (fun _ _ _ => leaf rfl)
    (fun _ _ _ he => single rfl he) (fun _ _ _ _ hl hr => h _ (by simp [children, hl, hr]))
    (fun _ _ _ hb => single rfl hb) (fun _ _ _ hargs => h _ hargs) ?record ?select
    (fun _ _ _ he => single rfl he) (fun _ _ _ _ _ hb => single rfl hb)
    (by simp) (fun _ _ he hes => forall_mem_cons.mpr ⟨he, hes⟩)
    (by simp) (fun _ _ hf hfs => forall_mem_cons.mpr ⟨hf, hfs⟩)
    (by simp) (fun _ _ ha has => forall_mem_cons.mpr ⟨ha, has⟩)
    (fun _ _ he => he) (fun _ _ _ _ hg hb => ⟨hg, hb⟩) (by simp) (by simp) e
  case record =>
    intro span type fields hfields
    refine h _ fun c hc => ?_
    obtain ⟨f, hf, rfl⟩ := mem_map.mp hc
    exact hfields f hf
  case select =>
    intro span place e arms he harms
    refine h _ fun c hc => ?_
    simp only [children, mem_cons, mem_flatMap, mem_append] at hc
    rcases hc with rfl | ⟨a, ha, hg | hb⟩
    · exact he
    · exact (harms a ha).1 c (Option.mem_toList.mp hg)
    · obtain rfl : c = a.body := by simpa using hb
      exact (harms a ha).2

/-- The property holds of the expression and of all expressions inside it. -/
inductive Everywhere (p : Expr → Prop) : Expr → Prop where
  | intro {e : Expr} (here : p e) (inside : ∀ c ∈ e.children, Everywhere p c) : Everywhere p e

theorem Everywhere.here {p : Expr → Prop} {e : Expr} : e.Everywhere p → p e
  | .intro h _ => h

theorem Everywhere.inside {p : Expr → Prop} {e : Expr} :
    e.Everywhere p → ∀ c ∈ e.children, c.Everywhere p
  | .intro _ h => h

theorem Everywhere.imp (hp : ∀ e, p e → p' e) (h : e.Everywhere p) : e.Everywhere p' := by
  induction h with
  | intro here _ ih => exact .intro (hp _ here) ih

theorem Everywhere.and (h : e.Everywhere p) (h' : e.Everywhere p') :
    e.Everywhere fun e => p e ∧ p' e := by
  induction h with
  | intro here _ ih => exact .intro ⟨here, h'.here⟩ fun c hc => ih c hc (h'.inside c hc)

theorem everywhere_of_forall (h : ∀ e, p e) (e : Expr) : e.Everywhere p := by
  induction e using Expr.induction with
  | h e ih => exact .intro (h e) ih

attribute [local simp] children

section Everywhere

variable {p : Expr → Prop} {span place : Span}

theorem everywhere_iff : e.Everywhere p ↔ p e ∧ ∀ c ∈ e.children, c.Everywhere p :=
  ⟨fun h => ⟨h.here, h.inside⟩, fun h => .intro h.1 h.2⟩

@[simp] theorem everywhere_literal {v : Literal} :
    (literal span v).Everywhere p ↔ p (literal span v) := by
  rw [everywhere_iff]
  simp

@[simp] theorem everywhere_name {id : Ident} : (name span id).Everywhere p ↔ p (name span id) := by
  rw [everywhere_iff]
  simp

@[simp] theorem everywhere_variant {n v : Ident} :
    (variant span n v).Everywhere p ↔ p (variant span n v) := by
  rw [everywhere_iff]
  simp

@[simp] theorem everywhere_unary {op : UnaryOp} :
    (unary span op e).Everywhere p ↔ p (unary span op e) ∧ e.Everywhere p := by
  rw [everywhere_iff]
  simp

@[simp] theorem everywhere_binary {op : BinaryOp} {l r : Expr} :
    (binary span op l r).Everywhere p ↔
      p (binary span op l r) ∧ l.Everywhere p ∧ r.Everywhere p := by
  rw [everywhere_iff]
  simp

@[simp] theorem everywhere_call {f : Ident} :
    (call span f args).Everywhere p ↔ p (call span f args) ∧ ∀ e ∈ args, e.Everywhere p := by
  rw [everywhere_iff]
  simp

@[simp] theorem everywhere_quantified {q v} {type : TypeExpr} {body : Expr} :
    (quantified span q v type body).Everywhere p ↔
      p (quantified span q v type body) ∧ body.Everywhere p := by
  rw [everywhere_iff]
  simp

@[simp] theorem everywhere_select :
    (select span place e arms).Everywhere p ↔ p (select span place e arms) ∧ e.Everywhere p ∧
      ∀ a ∈ arms, (∀ g ∈ a.guard, g.Everywhere p) ∧ a.body.Everywhere p := by
  rw [everywhere_iff]
  simp only [children, forall_mem_cons, forall_mem_flatMap, forall_mem_append,
    Option.mem_toList, Option.mem_def, mem_singleton, forall_eq]

end Everywhere

mutual

/-- The names that an expression reads from outside. -/
def reads : Expr → List String
  | .literal _ _ => []
  | .variant _ _ _ => []
  | .name _ id => [id.name]
  | .unary _ _ e => e.reads
  | .binary _ _ l r => l.reads ++ r.reads
  | .member _ b _ => b.reads
  | .call _ _ args => readsOfArgs args
  | .record _ _ fields => readsOfFields fields
  | .select _ _ e arms => e.reads ++ readsOfArms arms
  | .satisfies _ e _ => e.reads
  | .quantified _ _ v _ b => b.reads.filter (· != v.name)

/-- The names read by arguments. -/
def readsOfArgs : List Expr → List String
  | [] => []
  | e :: es => e.reads ++ readsOfArgs es

/-- The names read by the values of fields. -/
def readsOfFields : List (Ident × Expr) → List String
  | [] => []
  | (_, e) :: fs => e.reads ++ readsOfFields fs

/-- The names read by guards and bodies of arms, but for what the patterns bind. -/
def readsOfArms : List (Arm Expr Expr) → List String
  | [] => []
  | ⟨_, p, none, b⟩ :: arms => p.unbound b.reads ++ readsOfArms arms
  | ⟨_, p, some g, b⟩ :: arms => p.unbound (g.reads ++ b.reads) ++ readsOfArms arms

end

mutual

/-- The meaning of an expression. -/
noncomputable def meaning {α : Type u} (M : Structure α) (env : Env) (σ : Valuation α) :
    Expr → Datum α
  | .literal _ v => v.meaning
  | .name _ id => σ id.name
  | .variant _ n v => .variant n.name v.name
  | .unary _ op e => op.meaning (meaning M env σ e)
  | .binary _ op l r => op.meaning M (meaning M env σ l) (meaning M env σ r)
  | .call _ f args => M.function f.name (meanings M env σ args)
  | .select _ _ e arms => chosen M env σ (meaning M env σ e) arms
  | .quantified _ q v type body =>
    .ofProp (Ranges q (type.values M env) fun d =>
      (meaning M env (Function.update σ v.name d) body).IsTrue)
  | .member _ _ _ => default
  | .record _ _ _ => default
  | .satisfies _ _ _ => default

/-- The meanings of arguments. -/
noncomputable def meanings {α : Type u} (M : Structure α) (env : Env) (σ : Valuation α) :
    List Expr → List (Datum α)
  | [] => []
  | e :: es => meaning M env σ e :: meanings M env σ es

/-- The meaning of the body of the first arm that applies to `d`. -/
noncomputable def chosen {α : Type u} (M : Structure α) (env : Env) (σ : Valuation α)
    (d : Datum α) : List (Arm Expr Expr) → Datum α
  | [] => default
  | ⟨_, p, none, b⟩ :: arms =>
    @ite _ (p.Matches d) (Classical.propDecidable _) (meaning M env (p.bind d σ) b)
      (chosen M env σ d arms)
  | ⟨_, p, some g, b⟩ :: arms =>
    @ite _ (p.Matches d ∧ (meaning M env (p.bind d σ) g).IsTrue) (Classical.propDecidable _)
      (meaning M env (p.bind d σ) b) (chosen M env σ d arms)

end

theorem meanings_eq_map {α : Type u} {M : Structure α} {env : Env} {σ : Valuation α} :
    meanings M env σ es = es.map (meaning M env σ) := by
  induction es with
  | nil => rfl
  | cons e es ih => rw [meanings, ih, map_cons]

theorem mem_readsOfArgs {x : String} : x ∈ readsOfArgs es ↔ ∃ e ∈ es, x ∈ e.reads := by
  induction es with
  | nil => simp [readsOfArgs]
  | cons e es ih => simp [readsOfArgs, ih]

section congr

variable {α : Type u} {M : Structure α} {env : Env}

theorem bind_congr {p : Pattern} {d : Datum α} {σ σ' : Valuation α} {names : List String}
    (h : ∀ x ∈ p.unbound names, σ x = σ' x) : ∀ x ∈ names, p.bind d σ x = p.bind d σ' x := by
  intro x hx
  cases p with
  | binding id =>
    by_cases hid : x = id.name
    · simp [Pattern.bind, hid]
    · simp only [Pattern.bind, Function.update_of_ne hid]
      exact h x (by simpa [Pattern.unbound, hx] using hid)
  | _ => exact h x hx

theorem chosen_congr {d : Datum α} {σ σ' : Valuation α} (hcongr : ∀ c ∈ arms.flatMap fun a =>
      a.guard.toList ++ [a.body], ∀ σ σ' : Valuation α, (∀ x ∈ c.reads, σ x = σ' x) → c.meaning M
      env σ = c.meaning M env σ') (h : ∀ x ∈ readsOfArms arms, σ x = σ' x) :
    chosen M env σ d arms = chosen M env σ' d arms := by
  induction arms with
  | nil => rfl
  | cons a arms ih =>
    obtain ⟨span, p, guard, b⟩ := a
    rw [flatMap_cons, forall_mem_append, forall_mem_append] at hcongr
    obtain ⟨⟨hguard, hbody⟩, hrest⟩ := hcongr
    have hb := hbody b (by simp)
    cases guard with
    | none =>
      rw [readsOfArms, forall_mem_append] at h
      rw [chosen, chosen, hb _ _ (bind_congr h.1), ih hrest h.2]
    | some g =>
      rw [readsOfArms, forall_mem_append] at h
      have hbound := forall_mem_append.mp (bind_congr (d := d) h.1)
      rw [chosen, chosen, hguard g (by simp) _ _ hbound.1, hb _ _ hbound.2, ih hrest h.2]

/-- What an expression means depends on the names that it reads only. -/
theorem meaning_congr {σ σ' : Valuation α} (h : ∀ x ∈ e.reads, σ x = σ' x) :
    e.meaning M env σ = e.meaning M env σ' := by
  induction e using induction generalizing σ σ' with
  | h e ih =>
  cases e with
  | literal | variant | member | record | satisfies => simp only [meaning]
  | name span id => exact h id.name (by simp [reads])
  | unary span op e => rw [meaning, meaning, ih e (by simp) h]
  | binary span op l r =>
    rw [meaning, meaning, ih l (by simp) fun x hx => h x (by simp [reads, hx]),
      ih r (by simp) fun x hx => h x (by simp [reads, hx])]
  | call span f args =>
    rw [meaning, meaning, meanings_eq_map, meanings_eq_map]
    congr 1
    refine map_congr_left fun e he => ih e he fun x hx => h x ?_
    exact mem_readsOfArgs.mpr ⟨e, he, hx⟩
  | quantified span q v type body =>
    rw [meaning, meaning]
    congr 2
    funext d
    rw [ih body (by simp) fun x hx => ?_]
    by_cases hv : x = v.name
    · simp [hv]
    · grind [reads]
  | select span place e arms =>
    rw [meaning, meaning, ih e (by simp) fun x hx => h x (by simp [reads, hx])]
    refine chosen_congr (fun c hc σ σ' => ih c (mem_cons_of_mem e hc)) fun x hx => h x ?_
    simp [reads, hx]

end congr

end Expr

/-!
## Plain expressions

An expression is plain if all that is in it has a meaning: it is about whole numbers, truth values
and enums, and about functions between them.
-/

def Literal.isPlain : Literal → Bool
  | .int _ | .bool _ => true
  | _ => false

def Pattern.isPlain : Pattern → Bool
  | .literal _ v => v.isPlain
  | .satisfies _ _ => false
  | .wildcard _ | .variant _ _ _ | .binding _ => true

/-- The expression stands for a type of whole numbers, truth values or an enum. -/
def TypeExpr.Plain (env : Env) (t : TypeExpr) : Prop :=
  ∃ ty s, Stands env [] t ty ∧ ty.sort? = some s

/-- Parameters and result of the function have sorts. -/
def Signature.Plain (f : Signature) : Prop :=
  (∃ sorts : List SmtSort, f.params.map (·.2.sort?) = sorts.map some) ∧ ∃ s, f.result.sort? = some s

/-- The outermost part of the expression is plain. -/
def Expr.PlainHere (env : Env) : Expr → Prop
  | .literal _ v => v.isPlain = true
  | .call _ f _ => ∃ sig, env.function? f.name = some sig ∧ sig.Plain
  | .select _ _ _ arms => ∀ a ∈ arms, a.pattern.isPlain = true
  | .quantified _ _ _ type _ => type.Plain env
  | .member _ _ _ | .record _ _ _ | .satisfies _ _ _ => False
  | .name _ _ | .variant _ _ _ | .unary _ _ _ | .binary _ _ _ _ => True

def Expr.Plain (env : Env) (e : Expr) : Prop := e.Everywhere (Expr.PlainHere env)

/-- The declared type and the value are plain. -/
structure Declaration.Plain (env : Env) (d : Declaration) : Prop where
  type : d.type.Plain env
  value : d.value.Plain env

end Statute
