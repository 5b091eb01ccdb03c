import Statute.Proofs.Program.Meaning

/-!
# Declared values

A declared value is known from its declaration on, up to the end of the scope that it stands in, and
may be read by the values declared after it. `Item.sitesOf` lists the principles of a program, each
with the declarations in force where it stands, the nearest first; the tail of such a list is what
is in force where its head stands.

`Assigns M env inForce σ` says that `σ` gives each declaration in force a value of its type, and the
value that it is declared with. Where every declaration that is used is the only one of its name,
values can be looked up by name, whatever is in force: `exists_grounded`.
-/

namespace Statute

open Logic

universe u

/-- A principle and the declarations in force where it stands, the nearest first. -/
structure Site where
  principle : Principle
  inForce : List Declaration

namespace Item

mutual

/-- The principles of an item with the declarations in force there. -/
def sites (inForce : List Declaration) : Item → List Site
  | .principle p => [⟨p, inForce⟩]
  | .scope _ _ items => sitesOf inForce items
  | .struct _ => []
  | .enum _ => []
  | .synonym _ => []
  | .test _ => []
  | .function _ => []
  | .value _ => []

/-- The principles of items with the declarations in force there. What is declared inside a scope
is not in force after it. -/
def sitesOf (inForce : List Declaration) : List Item → List Site
  | [] => []
  | .value d :: items => sitesOf (d :: inForce) items
  | i :: items => i.sites inForce ++ sitesOf inForce items

end

end Item

/-- The principles of a program with the declarations in force where they stand. -/
def Program.sites (p : Program) : List Site := Item.sitesOf [] p.items

/-- The principle that an item is. -/
def Item.principle? : Item → Option Principle
  | .principle d => some d
  | _ => none

mutual

theorem Item.principles_sites (inForce : List Declaration) (i : Item) :
    (i.sites inForce).map (·.principle) = i.leaves.filterMap Item.principle? := by
  cases i with
  | scope span name items => exact Item.principles_sitesOf inForce items
  | _ => rfl

theorem Item.principles_sitesOf (inForce : List Declaration) (items : List Item) :
    (Item.sitesOf inForce items).map (·.principle) =
      (Item.leavesOf items).filterMap Item.principle? := by
  cases items with
  | nil => rfl
  | cons i items =>
    rw [Item.leavesOf, List.filterMap_append, ← Item.principles_sites inForce i]
    cases i with
    | value d =>
      rw [Item.sitesOf, Item.principles_sitesOf (d :: inForce) items]
      rfl
    | _ => rw [← Item.principles_sitesOf inForce items, ← List.map_append]; rfl

end

/-- The sites are those of the principles of the program, in order. -/
theorem Program.principles_sites (p : Program) : p.sites.map (·.principle) = p.principles :=
  Item.principles_sitesOf [] p.items

/-- The nearest declaration of a name, and what is in force where it stands. -/
def nearest? : List Declaration → String → Option (Declaration × List Declaration)
  | [], _ => none
  | d :: inForce, x => if d.name.name = x then some (d, inForce) else nearest? inForce x

variable {inForce before : List Declaration} {x : String} {d : Declaration}

theorem name_of_nearest? (h : nearest? inForce x = some (d, before)) : d.name.name = x := by
  induction inForce with
  | nil => cases h
  | cons e inForce ih =>
    unfold nearest? at h
    split at h
    next hx =>
      cases h
      exact hx
    · exact ih h

theorem suffix_of_nearest? (h : nearest? inForce x = some (d, before)) :
    d :: before <:+ inForce := by
  induction inForce with
  | nil => cases h
  | cons e inForce ih =>
    unfold nearest? at h
    split at h
    next hx =>
      cases h
      exact List.suffix_refl _
    · exact (ih h).trans (List.suffix_cons e inForce)

/-- Where `inForce` is in force, the expression draws on the declaration `d`, which stands where
`before` is in force: it reads its name, or draws on a declaration whose value does. -/
inductive Draws : List Declaration → Expr → Declaration → List Declaration → Prop where
  | reads {inForce before e x d} (hx : x ∈ e.reads) (hd : nearest? inForce x = some (d, before)) :
      Draws inForce e d before
  | through {inForce before before' e d d'} (h : Draws inForce e d before)
      (h' : Draws before d.value d' before') : Draws inForce e d' before'

theorem Draws.suffix {e : Expr} (h : Draws inForce e d before) : d :: before <:+ inForce := by
  induction h with
  | reads hx hd => exact suffix_of_nearest? hd
  | through h h' ih ih' => exact (ih'.trans (List.suffix_cons _ _)).trans ih

/-- The name is that of a declaration in force with the property, and so are the names that its
value reads where it stands, and so on. -/
def Throughout (P : Declaration → Prop) : List Declaration → String → Prop
  | [], _ => False
  | d :: inForce, x =>
    if d.name.name = x then P d ∧ ∀ y ∈ d.value.reads, Throughout P inForce y
    else Throughout P inForce x

/-- All declarations that the expression uses, directly or through others, have the property. -/
def Expr.Uses (P : Declaration → Prop) (inForce : List Declaration) (e : Expr) : Prop :=
  ∀ x ∈ e.reads, Throughout P inForce x

variable {x : String}

theorem throughout_cons {P : Declaration → Prop} : Throughout P (d :: inForce) x ↔
      if d.name.name = x then P d ∧ ∀ y ∈ d.value.reads, Throughout P inForce y
      else Throughout P inForce x :=
  Iff.rfl

theorem Throughout.and {P Q : Declaration → Prop} (hP : Throughout P inForce x)
    (hQ : Throughout Q inForce x) : Throughout (fun d => P d ∧ Q d) inForce x := by
  induction inForce generalizing x with
  | nil => exact hP
  | cons d inForce ih =>
    rw [throughout_cons] at hP hQ ⊢
    split at hP
    next hx => grind
    next hx =>
      rw [if_neg hx] at hQ ⊢
      exact ih hP hQ

/-- The valuation gives each plain declaration a value of its type, and the value that it is
declared with. Other declarations may have any value. -/
inductive Assigns {α : Type u} (M : Structure α) (env : Env) :
    List Declaration → Valuation α → Prop where
  | nil {σ} : Assigns M env [] σ
  | cons {d inForce σ w} (h : Assigns M env inForce σ)
      (hd : d.Plain env → w ∈ d.type.values M env ∧ w = d.value.meaning M env σ) :
      Assigns M env (d :: inForce) (Function.update σ d.name.name w)

section Assigns

variable {α : Type u} {M : Structure α} {env : Env} {P : Declaration → Prop}
  {inForce : List Declaration}

/-- The declaration that a name stands for, with what is in force where it stands. -/
theorem Assigns.declaration {σ} (h : Assigns M env inForce σ) (hx : Throughout P inForce x) :
    ∃ d inForce' σ', inForce'.length < inForce.length ∧ Assigns M env inForce' σ' ∧
      d.name.name = x ∧ P d ∧ (∀ y ∈ d.value.reads, Throughout P inForce' y) ∧
      (d.Plain env → σ x ∈ d.type.values M env ∧ σ x = d.value.meaning M env σ') := by
  induction h with
  | nil => exact hx.elim
  | @cons d inForce σ w h hd ih =>
    rw [throughout_cons] at hx
    split at hx
    next hname => grind
    next hname => grind

/-- Where every declaration that is used is the one that `pick` gives for its name, a name has one
value, whatever is in force. -/
theorem Assigns.agree {pick : String → Option Declaration}
    (hP : ∀ d, P d → d.Plain env ∧ pick d.name.name = some d) {inForce' σ σ'}
    (h : Assigns M env inForce σ) (h' : Assigns M env inForce' σ') (hx : Throughout P inForce x)
    (hx' : Throughout P inForce' x) : σ x = σ' x := by
  -- by induction on how much is in force: what a value reads was in force before it
  induction hn : inForce.length using Nat.strong_induction_on
    generalizing inForce inForce' σ σ' x with
  | _ n ih =>
  obtain ⟨d, before, τ, hlen, hτ, hname, hd, hreads, hvalue⟩ := h.declaration hx
  obtain ⟨d', before', τ', -, hτ', hname', hd', hreads', hvalue'⟩ := h'.declaration hx'
  obtain rfl : d = d' := by grind
  rw [(hvalue (hP d hd).1).2, (hvalue' (hP d hd).1).2]
  refine Expr.meaning_congr fun y hy => ?_
  exact ih before.length (hn ▸ hlen) hτ hτ' (hreads y hy) (hreads' y hy) rfl

/-- In `ρ` each of the names has the value that its declaration gives it under `ρ` itself, and reads
only others of the names. -/
def Grounded (M : Structure α) (env : Env) (P : Declaration → Prop) (names : Set String)
    (ρ : Valuation α) : Prop :=
  ∀ x ∈ names, ∃ d : Declaration, d.name.name = x ∧ P d ∧ (∀ y ∈ d.value.reads, y ∈ names) ∧
    ρ x ∈ d.type.values M env ∧ ρ x = d.value.meaning M env ρ

/-- The values in force at one place extend to values for all names that are used from there. -/
theorem exists_grounded {pick : String → Option Declaration}
    (hP : ∀ d, P d → d.Plain env ∧ pick d.name.name = some d) {σ} (h : Assigns M env inForce σ) :
    ∃ names ρ, Grounded M env P names ρ ∧
      ∀ x, Throughout P inForce x → x ∈ names ∧ ρ x = σ x := by
  classical
  -- a name may be in force at many places, and whichever is chosen its value is the same
  let names : Set String :=
    {x | ∃ inForce σ, Assigns M env inForce σ ∧ Throughout P inForce x}
  let ρ : Valuation α := fun x => if hx : x ∈ names then hx.choose_spec.choose x else default
  have hρ : ∀ {inForce σ x}, Assigns M env inForce σ → Throughout P inForce x → ρ x = σ x := by
    intro inForce σ x hσ hx
    have hmem : x ∈ names := ⟨inForce, σ, hσ, hx⟩
    have hspec := hmem.choose_spec.choose_spec
    simp only [ρ, dif_pos hmem]
    exact hspec.1.agree hP hσ hspec.2 hx
  refine ⟨names, ρ, ?_, fun x hx => ⟨⟨inForce, σ, h, hx⟩, hρ h hx⟩⟩
  rintro x ⟨inForce, σ, hσ, hx⟩
  obtain ⟨d, before, τ, -, hτ, hname, hd, hreads, hvalue⟩ := hσ.declaration hx
  refine ⟨d, hname, hd, fun y hy => ⟨before, τ, hτ, hreads y hy⟩, ?_⟩
  rw [hρ hσ hx, Expr.meaning_congr fun y hy => hρ hτ (hreads y hy)]
  exact hvalue (hP d hd).1

end Assigns

end Statute
