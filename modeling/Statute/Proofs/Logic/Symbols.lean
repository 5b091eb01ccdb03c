import Statute.Proofs.Logic.Structure

/-!
# Symbols of terms

Which symbols occur in a term, and how. `Term.Everywhere p` says that `p` holds of a term and of all
the terms inside it; conditions on the binders or on the applied functions of a term are instances
of it. The main fact is `Structure.value_congr`: the value of a term depends on its free symbols
only.
-/

namespace Statute.Logic

universe u

variable {t : Term}

variable {P p' p : Term → Prop} {ts : List Term} {x : String}

namespace Term

variable {p : Term → Prop}

/-- Induction over terms, where the hypothesis for a list of terms speaks about its members. -/
@[induction_eliminator]
theorem induction (int : ∀ n, P (.int n)) (real : ∀ x, P (.real x)) (bool : ∀ b, P (.bool b))
    (str : ∀ s, P (.str s)) (var : ∀ x, P (.var x)) (variant : ∀ s v, P (.variant s v))
    (not : ∀ t, P t → P (.not t)) (and : ∀ ts, (∀ t ∈ ts, P t) → P (.and ts))
    (or : ∀ ts, (∀ t ∈ ts, P t) → P (.or ts)) (implies : ∀ a b, P a → P b → P (.implies a b))
    (cmp : ∀ op a b, P a → P b → P (.cmp op a b))
    (arith : ∀ op s a b, P a → P b → P (.arith op s a b)) (neg : ∀ t, P t → P (.neg t))
    (toReal : ∀ t, P t → P (.toReal t)) (ite : ∀ c a b, P c → P a → P b → P (.ite c a b))
    (apply : ∀ f args, (∀ t ∈ args, P t) → P (.apply f args))
    (quant : ∀ q x s body, P body → P (.quant q x s body)) : ∀ t, P t := by
  intro t
  refine @Term.rec P (fun ts => ∀ t ∈ ts, P t) int real bool str var variant not and or implies
    cmp arith neg toReal ite apply quant ?_ ?_ t
  · intro t ht
    cases ht
  · grind

mutual

/-- The property holds of the term and of all terms inside it. -/
def Everywhere (p : Term → Prop) : Term → Prop
  | .not t => p (.not t) ∧ Everywhere p t
  | .and ts => p (.and ts) ∧ EverywhereIn p ts
  | .or ts => p (.or ts) ∧ EverywhereIn p ts
  | .implies a b => p (.implies a b) ∧ Everywhere p a ∧ Everywhere p b
  | .cmp op a b => p (.cmp op a b) ∧ Everywhere p a ∧ Everywhere p b
  | .arith op s a b => p (.arith op s a b) ∧ Everywhere p a ∧ Everywhere p b
  | .neg t => p (.neg t) ∧ Everywhere p t
  | .toReal t => p (.toReal t) ∧ Everywhere p t
  | .ite c a b => p (.ite c a b) ∧ Everywhere p c ∧ Everywhere p a ∧ Everywhere p b
  | .apply f args => p (.apply f args) ∧ EverywhereIn p args
  | .quant q x s body => p (.quant q x s body) ∧ Everywhere p body
  | .int n => p (.int n)
  | .real x => p (.real x)
  | .bool b => p (.bool b)
  | .str s => p (.str s)
  | .var x => p (.var x)
  | .variant s v => p (.variant s v)

/-- The property holds of several terms and of all terms inside them. -/
def EverywhereIn (p : Term → Prop) : List Term → Prop
  | [] => True
  | t :: ts => Everywhere p t ∧ EverywhereIn p ts

end

@[simp] theorem everywhereIn_iff : EverywhereIn p ts ↔ ∀ t ∈ ts, t.Everywhere p := by
  induction ts with
  | nil => simp [EverywhereIn]
  | cons t ts ih => simp [EverywhereIn, ih]

/-- The terms directly inside a term. -/
def parts : Term → List Term
  | .not t => [t]
  | .and ts => ts
  | .or ts => ts
  | .implies a b => [a, b]
  | .cmp _ a b => [a, b]
  | .arith _ _ a b => [a, b]
  | .neg t => [t]
  | .toReal t => [t]
  | .ite c a b => [c, a, b]
  | .apply _ args => args
  | .quant _ _ _ body => [body]
  | _ => []

theorem everywhere_iff : t.Everywhere p ↔ p t ∧ ∀ u ∈ t.parts, u.Everywhere p := by
  cases t <;> simp [Everywhere, parts]

/-- Induction over the terms inside a term. -/
theorem parts_induction (h : ∀ t, (∀ u ∈ t.parts, P u) → P t) (t : Term) : P t := by
  induction t with
  | _ => exact h _ (by clear h; simp_all [parts])

theorem Everywhere.imp (hp : ∀ t, p t → p' t) (h : t.Everywhere p) : t.Everywhere p' := by
  induction t using parts_induction with
  | h t ih => grind [everywhere_iff]

theorem Everywhere.and {t : Term} (h : t.Everywhere p) (h' : t.Everywhere p') :
    t.Everywhere fun u => p u ∧ p' u := by
  induction t using parts_induction with
  | h t ih => grind [everywhere_iff]

mutual

/-- The symbols that occur free. -/
def free : Term → List String
  | .var x => [x]
  | .not t => t.free
  | .and ts => freeIn ts
  | .or ts => freeIn ts
  | .implies a b => a.free ++ b.free
  | .cmp _ a b => a.free ++ b.free
  | .arith _ _ a b => a.free ++ b.free
  | .neg t => t.free
  | .toReal t => t.free
  | .ite c a b => c.free ++ a.free ++ b.free
  | .apply _ args => freeIn args
  | .quant _ x _ body => body.free.filter (· != x)
  | .int _ => []
  | .real _ => []
  | .bool _ => []
  | .str _ => []
  | .variant _ _ => []

/-- The symbols that occur free in several terms. -/
def freeIn : List Term → List String
  | [] => []
  | t :: ts => t.free ++ freeIn ts

end

@[simp] theorem mem_freeIn : x ∈ freeIn ts ↔ ∃ t ∈ ts, x ∈ t.free := by
  induction ts with
  | nil => simp [freeIn]
  | cons t ts ih => simp [freeIn, ih]

/-- What is free in a term is the term itself or free in a part of it. -/
theorem mem_parts_of_mem_free (h : x ∈ t.free) : t = .var x ∨ ∃ u ∈ t.parts, x ∈ u.free := by
  cases t <;> simp_all [free, parts]

/-- The term itself is a real number, or speaks about real numbers. -/
def isReal : Term → Bool
  | .real _ => true
  | .toReal _ => true
  | .arith _ s _ _ => s == .real
  | .quant _ _ s _ => s == .real
  | _ => false

/-- No real numbers occur in the term. -/
def RealFree : Term → Prop := Everywhere fun t => t.isReal = false

/-- The symbol that a term binds, if it is a quantifier. -/
def binder? : Term → Option String
  | .quant _ x _ _ => some x
  | _ => none

/-- Every quantifier of the term binds a symbol with the property. -/
def Binders (p : String → Prop) : Term → Prop := Everywhere fun t => ∀ x ∈ t.binder?, p x

/-- The function that a term applies to no arguments, if it does so. -/
def bare? : Term → Option String
  | .apply f [] => some f
  | _ => none

/-- If the term applies a function, it is a declared one, and there is an argument for each
parameter. -/
def Applies (v : Vocabulary) : Term → Prop
  | .apply f args => ∃ d, v.function? f = some d ∧ d.params.length = args.length
  | _ => True

theorem Applies.mono {v v' : Vocabulary} (h : t.Applies v)
    (hfun : ∀ f d, v.function? f = some d → v'.function? f = some d) : t.Applies v' := by
  cases t with
  | apply f args =>
    obtain ⟨d, hd, hlen⟩ := h
    exact ⟨d, hfun f d hd, hlen⟩
  | _ => trivial

/-- All functions in the term are declared and have an argument for each parameter. -/
def AppliesIn (v : Vocabulary) : Term → Prop := Everywhere (Applies v)

end Term

namespace Structure

variable {α : Type u} (M : Structure α)

/-- The value of a term depends on its free symbols only. -/
theorem value_congr {ρ ρ'} (h : ∀ x ∈ t.free, ρ x = ρ' x) : M.value ρ t = M.value ρ' t := by
  induction t generalizing ρ ρ' with
  | int | real | bool | str | variant => rfl
  | var x => exact h x (List.mem_singleton_self x)
  | not t ih | neg t ih | toReal t ih => rw [value, value, ih h]
  | and ts ih | or ts ih | apply f ts ih =>
    have hts : ts.map (M.value ρ) = ts.map (M.value ρ') :=
      List.map_congr_left fun t ht => ih t ht fun x hx => h x (Term.mem_freeIn.mpr ⟨t, ht, hx⟩)
    rw [value, value, values_eq_map, values_eq_map, hts]
  | implies a b iha ihb | cmp op a b iha ihb | arith op s a b iha ihb =>
    rw [value, value, iha fun x hx => h x (List.mem_append_left _ hx),
      ihb fun x hx => h x (List.mem_append_right _ hx)]
  | ite c a b ihc iha ihb =>
    rw [value, value, ihc fun x hx => h x (List.mem_append_left _ (List.mem_append_left _ hx)),
      iha fun x hx => h x (List.mem_append_left _ (List.mem_append_right _ hx)),
      ihb fun x hx => h x (List.mem_append_right _ hx)]
  | quant q x s body ih =>
    have hbody : ∀ d,
        M.value (Function.update ρ x d) body = M.value (Function.update ρ' x d) body := by
      intro d
      refine ih fun y hy => ?_
      by_cases hyx : y = x
      · rw [hyx, Function.update_self, Function.update_self]
      · rw [Function.update_of_ne hyx, Function.update_of_ne hyx]
        exact h y (List.mem_filter.mpr ⟨hy, by simpa using hyx⟩)
    simp only [value, hbody]

theorem holds_congr {ρ ρ'} (h : ∀ x ∈ t.free, ρ x = ρ' x) : M.Holds ρ t ↔ M.Holds ρ' t := by
  rw [Holds, Holds, M.value_congr h]

end Structure

end Statute.Logic
