import Statute.Types.Binding

/-!
# The parts of a type

What is asked of types is mostly asked at every depth: `t.Every P` says that `P` holds of the type
and of all types inside it. Such a condition is kept when type parameters are replaced, if it is
kept at each part and holds of what is put in, `Ty.Every.apply`.
-/

namespace Statute

open List

variable {t u : Ty}

namespace Ty

mutual

/-- The type and all types inside it. -/
def parts : Ty → List Ty
  | .struct n args => .struct n args :: partsAll args
  | .refine base lo hi => .refine base lo hi :: base.parts
  | .temporal inner opens closes => .temporal inner opens closes :: inner.parts
  | .array inner => .array inner :: inner.parts
  | .positive inner => .positive inner :: inner.parts
  | .nonEmpty inner => .nonEmpty inner :: inner.parts
  | .union a b => .union a b :: (a.parts ++ b.parts)
  | .unknown => [.unknown]
  | .prim p => [.prim p]
  | .enum n => [.enum n]
  | .var n => [.var n]
  | .citation c => [.citation c]
  | .validDate after before => [.validDate after before]
  | .moneyIn code => [.moneyIn code]

/-- The parts of several types. -/
def partsAll : List Ty → List Ty
  | [] => []
  | t :: ts => t.parts ++ partsAll ts

end

/-- The types directly inside a type. -/
def components : Ty → List Ty
  | .struct _ args => args
  | .refine t _ _ | .temporal t _ _ | .array t | .positive t | .nonEmpty t => [t]
  | .union a b => [a, b]
  | .unknown | .prim _ | .enum _ | .var _ | .citation _ | .validDate _ _ | .moneyIn _ => []

theorem sizeOf_lt_of_mem_components (hu : u ∈ t.components) : sizeOf u < sizeOf t := by
  cases t with
  | struct n args =>
    have := sizeOf_lt_of_mem (show u ∈ args from hu)
    simp only [struct.sizeOf_spec]
    omega
  | refine | temporal | array | positive | nonEmpty | union =>
    simp only [components, mem_cons, not_mem_nil, or_false] at hu
    rcases hu with rfl | rfl <;> decreasing_tactic
  | unknown | prim | enum | var | citation | validDate | moneyIn => cases hu

/-- What holds of a type as soon as it holds of those directly inside holds of every type. -/
theorem induction {motive : Ty → Prop} (h : ∀ t : Ty, (∀ u ∈ t.components, motive u) → motive t)
    (t : Ty) : motive t :=
  h t fun u hu =>
    have := sizeOf_lt_of_mem_components hu
    induction h u
termination_by sizeOf t

theorem mem_partsAll {ts : List Ty} : u ∈ partsAll ts ↔ ∃ t ∈ ts, u ∈ t.parts := by
  induction ts with
  | nil => simp [partsAll]
  | cons t ts ih => simp [partsAll, ih]

theorem parts_eq (t : Ty) : t.parts = t :: partsAll t.components := by
  cases t <;> simp [parts, components, partsAll]

theorem mem_parts : u ∈ t.parts ↔ u = t ∨ ∃ w ∈ t.components, u ∈ w.parts := by
  rw [parts_eq, mem_cons, mem_partsAll]

theorem self_mem_parts (t : Ty) : t ∈ t.parts := mem_parts.mpr (.inl rfl)

/-- The parts of a part are parts. -/
theorem parts_subset (h : u ∈ t.parts) : u.parts ⊆ t.parts := by
  induction t using Ty.induction with
  | h t ih =>
    rcases mem_parts.mp h with rfl | ⟨w, hw, h⟩
    · exact List.Subset.refl _
    · exact fun v hv => mem_parts.mpr (.inr ⟨w, hw, ih w hw h hv⟩)

/-- The condition holds at every depth. -/
def Every (P : Ty → Prop) (t : Ty) : Prop := ∀ u ∈ t.parts, P u

namespace Every

variable {P Q : Ty → Prop} {inner : Ty}

theorem mono (h : t.Every P) (hPQ : ∀ u, P u → Q u) : t.Every Q :=
  fun u hu => hPQ u (h u hu)

theorem self (h : t.Every P) : P t := h t t.self_mem_parts

theorem part (h : t.Every P) (hu : u ∈ t.parts) : u.Every P :=
  fun w hw => h w (parts_subset hu hw)

/-- What is asked at every depth is asked of the type and, at every depth, of those inside. -/
theorem iff_components : t.Every P ↔ P t ∧ ∀ u ∈ t.components, u.Every P := by
  unfold Every
  rw [parts_eq, forall_mem_cons]
  simp only [mem_partsAll]
  exact and_congr_right fun _ =>
    ⟨fun h a ha u hu => h u ⟨a, ha, hu⟩, fun h u ⟨a, ha, hu⟩ => h a ha u hu⟩

theorem struct_iff {n args} :
    (struct n args).Every P ↔ P (struct n args) ∧ ∀ a ∈ args, a.Every P := iff_components

theorem refine_iff {base : Ty} {lo hi : Option Int} :
    (refine base lo hi).Every P ↔ P (refine base lo hi) ∧ base.Every P := by
  simp [iff_components (t := refine base lo hi), components]

theorem temporal_iff {opens closes : Option Date} :
    (temporal inner opens closes).Every P ↔ P (temporal inner opens closes) ∧ inner.Every P := by
  simp [iff_components (t := temporal inner opens closes), components]

theorem array_iff : (array inner).Every P ↔ P (array inner) ∧ inner.Every P := by
  simp [iff_components (t := array inner), components]

theorem positive_iff : (positive inner).Every P ↔ P (positive inner) ∧ inner.Every P := by
  simp [iff_components (t := positive inner), components]

theorem nonEmpty_iff : (nonEmpty inner).Every P ↔ P (nonEmpty inner) ∧ inner.Every P := by
  simp [iff_components (t := nonEmpty inner), components]

theorem union_iff {a b : Ty} :
    (union a b).Every P ↔ P (union a b) ∧ a.Every P ∧ b.Every P := by
  simp [iff_components (t := union a b), components]

/-- A type with nothing inside. -/
theorem leaf (ht : t.components = []) (h : P t) : t.Every P :=
  iff_components.mpr ⟨h, by simp [ht]⟩

/-- What is left of a type without constraints is a part of it or a built-in type. -/
theorem core {t : Ty} (h : t.Every P) (hprim : ∀ p, P (.prim p)) : t.core.Every P := by
  fun_induction Ty.core t with
  | case1 base lo hi ih => exact ih (refine_iff.mp h).2
  | case2 inner opens closes ih => exact ih (temporal_iff.mp h).2
  | case3 inner ih => exact ih (positive_iff.mp h).2
  | case4 inner ih => exact ih (nonEmpty_iff.mp h).2
  | case5 | case6 => exact leaf rfl (hprim _)
  | case7 | case8 | case9 | case10 | case11 | case12 | case13 | case14 => exact h

end Every

theorem isNumeric_core (t : Ty) : t.core.isNumeric = t.isNumeric := by
  fun_induction core t with
  | case1 _ _ _ ih | case2 _ _ _ ih | case3 _ ih | case4 _ ih => rw [ih, isNumeric]
  | case5 | case6 | case7 | case8 | case9 | case10 | case11 | case12 | case13 | case14 => rfl

end Ty

/-!
## Substitution
-/

namespace Binding

/-- The condition holds of every type that a parameter stands for, at every depth. -/
def Every (P : Ty → Prop) (b : Binding) : Prop := ∀ v t, b.get? v = some t → t.Every P

variable {P : Ty → Prop} {b : Binding}

theorem every_empty : Every P {} := fun _ _ h => nomatch h

theorem get?_bind (b : Binding) (v w : String) (t : Ty) :
    (b.bind v t).get? w = if w = v then some t else b.get? w := by
  have hkept (es : List (String × Ty)) (hne : w ≠ v) :
      (es.filter fun e => e.1 != v).lookup w = es.lookup w := by
    induction es with
    | nil => rfl
    | cons e es ih => grind
  unfold get? Binding.bind
  by_cases hw : w = v
  · simp [hw]
  · grind

/-- The last type for a parameter counts. -/
theorem get?_ofLists (params : List String) (args : List Ty) (v : String) :
    (ofLists params args).get? v = (params.zip args).reverse.lookup v := by
  have hfold (es : List (String × Ty)) (b : Binding) :
      (es.foldl (fun b e => b.bind e.1 e.2) b).get? v =
        (es.reverse.lookup v).or (b.get? v) := by
    induction es generalizing b with
    | nil => rfl
    | cons e es ih => grind [get?_bind]
  rw [ofLists, hfold]
  exact Option.or_none

theorem Every.bind (hb : b.Every P) (ht : t.Every P) (v : String) : (b.bind v t).Every P := by
  intro w u hu
  rw [get?_bind] at hu
  split at hu
  · cases hu
    exact ht
  · exact hb w u hu

theorem every_ofLists {params args} (h : ∀ a ∈ args, a.Every P) :
    (ofLists params args).Every P := by
  have hfold : ∀ (es : List (String × Ty)) (b : Binding), (∀ e ∈ es, e.2.Every P) → b.Every P →
      (es.foldl (fun b e => b.bind e.1 e.2) b).Every P := by
    intro es
    induction es with
    | nil => exact fun b _ hb => hb
    | cons e es ih =>
      intro b hes hb
      obtain ⟨he, hes⟩ := forall_mem_cons.mp hes
      exact ih _ hes (hb.bind he e.1)
  refine hfold _ _ (fun e he => ?_) every_empty
  exact h e.2 (of_mem_zip he).2

end Binding

section Apply

open Ty.Every

variable {P Q : Ty → Prop} {b : Binding}

theorem Binding.applyAll_eq_map (b : Binding) (ts : List Ty) : b.applyAll ts = ts.map b.apply := by
  induction ts with
  | nil => rfl
  | cons t ts ih => rw [applyAll, ih, map_cons]

theorem Ty.components_apply (h : ∀ v, t ≠ .var v) :
    (b.apply t).components = t.components.map b.apply := by
  cases t with
  | var v => exact absurd rfl (h v)
  | struct n args => exact b.applyAll_eq_map args
  | _ => rfl

/-- What holds of a type after substitution at every depth, if it follows at each part that is not
replaced and holds of what is put in. -/
theorem Ty.Every.replace (hP : ∀ u, Q u → (∀ v, u ≠ .var v) → P (b.apply u))
    (hb : ∀ v, Q (.var v) → (b.apply (.var v)).Every P) (h : t.Every Q) : (b.apply t).Every P := by
  induction t using Ty.induction with
  | h t ih =>
    obtain ⟨hhead, hcomps⟩ := iff_components.mp h
    by_cases ht : ∃ v, t = .var v
    · grind
    have ht := not_exists.mp ht
    refine iff_components.mpr ⟨hP t hhead ht, ?_⟩
    rw [components_apply ht]
    exact forall_mem_map.mpr fun u hu => ih u hu (hcomps u hu)

/-- A condition that is kept at each part that is not replaced, and holds of what is put in. -/
theorem Ty.Every.apply (hP : ∀ u, P u → (∀ v, u ≠ .var v) → P (b.apply u)) (hb : b.Every P)
    {t : Ty} (h : t.Every P) : (b.apply t).Every P := by
  refine h.replace hP fun v hv => ?_
  rw [Binding.apply]
  cases hget : b.get? v with
  | none => exact leaf rfl hv
  | some u => exact hb v u hget

/-- What the parts become are parts of what the type becomes. -/
theorem Binding.apply_mem_parts (h : u ∈ t.parts) : b.apply u ∈ (b.apply t).parts := by
  induction t using Ty.induction with
  | h t ih =>
    rcases Ty.mem_parts.mp h with rfl | ⟨w, hw, h⟩
    · exact Ty.self_mem_parts _
    have ht : ∀ v, t ≠ .var v := by rintro v rfl; cases hw
    refine Ty.mem_parts.mpr (.inr ⟨b.apply w, ?_, ih w hw h⟩)
    rw [Ty.components_apply ht]
    exact mem_map_of_mem hw

/-- Constraints may be taken off before or after. -/
theorem Binding.core_apply (b : Binding) (t : Ty) : (b.apply t).core = (b.apply t.core).core := by
  fun_induction Ty.core t with
  | case1 base lo hi ih | case2 base opens closes ih | case3 base ih | case4 base ih => exact ih
  | case5 | case6 | case7 | case8 | case9 | case10 | case11 | case12 | case13 | case14 => rfl

/-- Nothing is replaced in a type of which no parameter is bound. -/
theorem Binding.apply_of_unbound (h : t.Every fun u => ∀ v, u = .var v → b.get? v = none) :
    b.apply t = t := by
  induction t using Ty.induction with
  | h t ih =>
    have hcomps : ∀ u ∈ t.components, b.apply u = u := fun u hu => ih u hu ((iff_components.mp h).2 u hu)
    cases t with
    | var v =>
      rw [apply, h.self v rfl]
      rfl
    | struct n args =>
      have hargs : args.map b.apply = args := (map_congr_left hcomps).trans args.map_id
      rw [apply, applyAll_eq_map, hargs]
    | refine | temporal | array | positive | nonEmpty => rw [apply, hcomps _ mem_cons_self]
    | union l r =>
      rw [apply, hcomps l mem_cons_self, hcomps r (mem_cons_of_mem _ mem_cons_self)]
    | _ => rfl

theorem Binding.length_applyAll (b : Binding) (ts : List Ty) :
    (b.applyAll ts).length = ts.length := by
  rw [applyAll_eq_map, length_map]

/-- Numbers stay numbers, as no parameter is one. -/
theorem Ty.isNumeric_apply (b : Binding) (h : t.isNumeric) :
    (b.apply t).isNumeric := by
  fun_induction Ty.isNumeric t with
  | case1 base lo hi ih | case2 base opens closes ih | case3 base ih | case4 base ih => exact ih h
  | case5 | case6 | case8 => exact h
  | case7 l r ihl ihr =>
    obtain ⟨hl, hr⟩ := Bool.and_eq_true_iff.mp h
    exact Bool.and_eq_true_iff.mpr ⟨ihl hl, ihr hr⟩
  | case9 => cases h

end Apply

end Statute
