import Statute.Proofs.Lowering.Types
import Statute.Proofs.Match.Ambiguous
import Statute.Proofs.NameMap
import Statute.Proofs.Program.Meaning

/-!
# What the analysis tells of arms

For each region of code the analysis of exclusive verdicts either fails, and then the region is
ambiguous, or it comes to a flow that is exact: the flow has the variants that the region can return
and no others, says whether it always returns, and the region is not ambiguous. `Tells` says this of
a result. Arms are taken in one after the other; what is known in between is exact for those that
have been taken in, `ArmsFlow.Sums`. So the analysis of a `match` tells what it should if that of
each body does, `tells_match`.
-/

namespace Statute

open List

/-!
## Equal patterns
-/

section Equality

open Float.Model (UnpackedFloat)

/-- Numbers that compare as equal are the same, unless both are zero. -/
theorem eq_or_zero_of_compare {a b : UnpackedFloat} (h : a.compare b = some .eq) :
    a = b ∨ ∃ s s', a = .zero s ∧ b = .zero s' := by
  cases a with
  | notANumber => cases h
  | zero s =>
    cases b with
    | zero s' => exact .inr ⟨s, s', rfl, rfl⟩
    | notANumber => cases h
    | infinity s' | finite s' => cases s' <;> cases h
  | infinity s =>
    cases b with
    | infinity s' => cases s <;> cases s' <;> first | exact .inl rfl | cases h
    | _ => cases s <;> cases h
  | finite s m e hm =>
    cases b with
    | finite s' m' e' hm' =>
      -- numbers of one sign are compared by exponent and mantissa, below zero the other way round
      have hsame : s = s' ∧ (compare e e').then (compare m m') = .eq := by
        cases s <;> cases s'
        · exact ⟨rfl, Ordering.swap_eq_eq.mp (Option.some.inj h)⟩
        · cases h
        · cases h
        · exact ⟨rfl, Option.some.inj h⟩
      obtain ⟨rfl, hcompare⟩ := hsame
      obtain ⟨he, hm⟩ := Ordering.then_eq_eq.mp hcompare
      obtain rfl := Std.compare_eq_iff_eq.mp he
      obtain rfl := Std.compare_eq_iff_eq.mp hm
      exact .inl rfl
    | notANumber | zero => cases s <;> cases h
    | infinity s' => cases s <;> cases s' <;> cases h

theorem compare_trans {a b c : UnpackedFloat} (hab : a.compare b = some .eq)
    (hbc : b.compare c = some .eq) : a.compare c = some .eq := by
  rcases eq_or_zero_of_compare hab with rfl | ⟨s, s', rfl, rfl⟩
  · exact hbc
  rcases eq_or_zero_of_compare hbc with rfl | ⟨_, _, _, rfl⟩
  · exact hab
  · rfl

theorem float_beq_trans {x y z : Float} (hxy : (x == y)) (hyz : (y == z)) :
    (x == z) := by
  have h := compare_trans (beq_iff_eq.mp hxy) (beq_iff_eq.mp hyz)
  exact (beq_iff_eq (a := x.toModel.unpack.compare z.toModel.unpack)).mpr h

theorem Literal.beq_trans {a b c : Literal} (hab : (a == b)) (hbc : (b == c)) :
    (a == c) := by
  cases a <;> cases b <;> first | cases hab; done | cases c <;> first | cases hbc; done | skip
  case float.float.float | money.money.money | percent.percent.percent =>
    exact float_beq_trans hab hbc
  case int.int.int => exact eq_of_beq (α := Int) hab ▸ hbc
  case bool.bool.bool => exact eq_of_beq (α := Bool) hab ▸ hbc
  case string.string.string | date.date.date | duration.duration.duration =>
    exact eq_of_beq (α := String) hab ▸ hbc
  case pass.pass.pass => rfl

theorem FixedPattern.beq_trans {a b c : FixedPattern} (hab : (a == b))
    (hbc : (b == c)) : (a == c) := by
  cases a <;> cases b <;> cases c <;> simp_all [BEq.beq, instBEqFixedPattern.beq]
  exact Literal.beq_trans hab hbc

end Equality

theorem FixedPattern.of?_wildcard {p : Pattern} (h : p.isWildcard) : of? p = none := by
  cases p with
  | wildcard => rfl
  | _ => cases h

theorem ArmHead.fixed?_wildcard {a : ArmHead} (h : a.pattern.isWildcard) :
    a.fixed? = none := by
  rw [fixed?, FixedPattern.of?_wildcard h, ite_self]

/-!
## Flows
-/

namespace Flow

variable {enum v : String} {a b flow : Flow} {f : Finding}

theorem mem_exclusive {branches returns} :
    v ∈ (exclusive branches returns).variants.keys ↔ ∃ b ∈ branches, v ∈ b.variants.keys := by
  have hfold (m : NameMap Span) : v ∈ (branches.foldl (fun m b => m.union b.variants) m).keys ↔
      v ∈ m.keys ∨ ∃ b ∈ branches, v ∈ b.variants.keys := by
    induction branches generalizing m with
    | nil => simp
    | cons b branches ih => grind [NameMap.mem_keys_union]
  exact (hfold {}).trans (by simp [NameMap.keys])

/-- Two regions in sequence return what either does. -/
theorem of_sequence (h : sequence enum a b = .ok flow) :
    flow.returns = b.returns ∧
      ∀ v, v ∈ flow.variants.keys ↔ v ∈ a.variants.keys ∨ v ∈ b.variants.keys := by
  unfold sequence at h
  dsimp only at h
  split at h
  · cases h
  cases h
  refine ⟨rfl, fun v => ?_⟩
  rw [mem_exclusive]
  simp

theorem sorted_exclusive (branches : List Flow) (returns : Bool) :
    (exclusive branches returns).variants.Sorted := by
  have hfold (m : NameMap Span) (hm : m.Sorted) :
      (branches.foldl (fun m b => m.union b.variants) m).Sorted := by
    induction branches generalizing m with
    | nil => exact hm
    | cons b branches ih => exact ih _ (hm.union b.variants)
  exact hfold {} .nil

/-- The two regions can return different variants. -/
def Differ (a b : Flow) : Prop := ∃ v ∈ a.variants.keys, ∃ w ∈ b.variants.keys, v ≠ w

/-- If there are two variants between them and each region returns one, then they differ. -/
theorem differ_of_mem_union {x y : String} (hx : x ∈ (a.variants.union b.variants).keys)
    (hy : y ∈ (a.variants.union b.variants).keys) (hne : x ≠ y)
    (ha : a.variants.isEmpty = false) (hb : b.variants.isEmpty = false) : a.Differ b := by
  obtain ⟨v, hv⟩ := NameMap.isEmpty_eq_false_iff.mp ha
  obtain ⟨w, hw⟩ := NameMap.isEmpty_eq_false_iff.mp hb
  rcases NameMap.mem_keys_union.mp hx with hx | hx
  · rcases NameMap.mem_keys_union.mp hy with hy | hy
    · by_cases hxw : x = w
      · exact ⟨y, hy, w, hw, hxw ▸ hne.symm⟩
      · exact ⟨x, hx, w, hw, hxw⟩
    · exact ⟨x, hx, y, hy, hne⟩
  · rcases NameMap.mem_keys_union.mp hy with hy | hy
    · exact ⟨y, hy, x, hx, hne.symm⟩
    by_cases hvx : v = x
    · exact ⟨v, hv, y, hy, hvx ▸ hne⟩
    · exact ⟨v, hv, x, hx, hvx⟩

/-- The variants of both regions are counted once each, so more than one are different ones. -/
theorem differ_of_ambiguous (ha : a.variants.Sorted)
    (h : (!a.variants.isEmpty && !b.variants.isEmpty &&
      decide ((a.variants.union b.variants).keys.length > 1))) : a.Differ b := by
  simp only [Bool.and_eq_true, Bool.not_eq_true', decide_eq_true_eq] at h
  obtain ⟨⟨hfirst, hsecond⟩, hlength⟩ := h
  have hnodup := (ha.union b.variants).nodup
  match hkeys : (a.variants.union b.variants).keys with
  | [] => simp [hkeys] at hlength
  | [x] => simp [hkeys] at hlength
  | x :: y :: rest =>
    rw [hkeys] at hnodup
    have hne : x ≠ y := fun heq => (nodup_cons.mp hnodup).1 (heq ▸ mem_cons_self)
    exact differ_of_mem_union (by simp [hkeys]) (by simp [hkeys]) hne hfirst hsecond

/-- A region that returns something has a variant to blame. -/
theorem culprit?_ne_none {w : String} (hw : w ∈ b.variants.keys) : a.culprit? b ≠ none := by
  obtain ⟨e, he, -⟩ := mem_map.mp hw
  intro hnone
  rw [culprit?, Option.or_eq_none_iff, head?_eq_none_iff] at hnone
  rw [hnone.2] at he
  cases he

/-- Regions in sequence are told from each other just if they can return different variants. -/
theorem differ_of_sequence (ha : a.variants.Sorted) (h : sequence enum a b = .error f) :
    a.Differ b := by
  unfold sequence at h
  dsimp only at h
  split at h
  next hculprit =>
    split at hculprit
    next hambiguous => exact differ_of_ambiguous ha hambiguous
    · cases hculprit
  · cases h

theorem not_differ_of_sequence (h : sequence enum a b = .ok flow) : ¬a.Differ b := by
  rintro ⟨v, hv, w, hw, hne⟩
  have hfirst := NameMap.isEmpty_eq_false_iff.mpr ⟨v, hv⟩
  have hsecond := NameMap.isEmpty_eq_false_iff.mpr ⟨w, hw⟩
  have hlength : 1 < (a.variants.union b.variants).keys.length := by
    have hv := NameMap.mem_keys_union.mpr (.inl hv : v ∈ a.variants.keys ∨ v ∈ b.variants.keys)
    have hw := NameMap.mem_keys_union.mpr (.inr hw : w ∈ a.variants.keys ∨ w ∈ b.variants.keys)
    match hkeys : (a.variants.union b.variants).keys with
    | [] => simp [hkeys] at hv
    | [x] => grind
    | x :: y :: rest => simp
  unfold sequence at h
  dsimp only at h
  rw [if_pos (by simp [hfirst, hsecond, hlength])] at h
  split at h
  · cases h
  next hnone => exact culprit?_ne_none hw hnone

theorem sorted_of_sequence (h : sequence enum a b = .ok flow) : flow.variants.Sorted := by
  unfold sequence at h
  dsimp only at h
  split at h
  · cases h
  · cases h
    exact sorted_exclusive _ _

end Flow

/-- What the analysis says of a region of code: the variants that it can return, just these, and
whether it always returns; or that it is ambiguous. -/
def Tells (can : String → Prop) (always ambiguous : Prop) : Except Finding Flow → Prop
  | .ok flow => (∀ v, v ∈ flow.variants.keys ↔ can v) ∧ (flow.returns = true ↔ always) ∧ ¬ambiguous
  | .error _ => ambiguous

theorem Tells.congr {can can' : String → Prop} {always always' ambiguous ambiguous' : Prop} {r}
    (h : Tells can always ambiguous r) (hcan : ∀ v, can v ↔ can' v) (halways : always ↔ always')
    (hambiguous : ambiguous ↔ ambiguous') : Tells can' always' ambiguous' r := by
  obtain rfl : can = can' := funext fun v => propext (hcan v)
  obtain rfl : always = always' := propext halways
  obtain rfl : ambiguous = ambiguous' := propext hambiguous
  exact h

/-- Regions of which at most one runs. -/
theorem Tells.exclusive {can can' : String → Prop} {always always' ambiguous ambiguous' : Prop}
    {x y} (hx : Tells can always ambiguous x) (hy : Tells can' always' ambiguous' y) :
    Tells (fun v => can v ∨ can' v) (always ∧ always') (ambiguous ∨ ambiguous')
      (do let a ← x; let b ← y; return Flow.exclusive [a, b] (a.returns && b.returns)) := by
  cases x with
  | error f => exact .inl hx
  | ok a =>
    cases y with
    | error f => exact .inr hy
    | ok b =>
      obtain ⟨hcan, halways, hclear⟩ := hx
      obtain ⟨hcan', halways', hclear'⟩ := hy
      refine ⟨fun v => ?_, ?_, not_or.mpr ⟨hclear, hclear'⟩⟩
      · grind [Flow.mem_exclusive]
      · rw [← halways, ← halways']
        exact Bool.and_eq_true_iff

/-!
## Arms
-/

namespace ArmsFlow

variable {enum : String} {s s' : ArmsFlow} {a : ArmHead} {body : Flow} {f : Finding}

/-- Just the arms that are not open have a fixed pattern that counts. -/
theorem fixed?_eq (a : ArmHead) :
    a.fixed? = if isOpen a then none else FixedPattern.of? a.pattern := by
  obtain ⟨p, guarded⟩ := a
  cases guarded <;> cases p <;> rfl

/-- What an arm adds. -/
theorem of_add (h : s.add enum a body = .ok s') :
    s'.wildcard = a.pattern.isWildcard ∧ s'.allReturn = (s.allReturn && body.returns) ∧
      s'.seen = s.seen ++ a.fixed?.toList ∧
      ∀ v, v ∈ s'.total.variants.keys ↔ v ∈ s.total.variants.keys ∨ v ∈ body.variants.keys := by
  unfold add at h
  dsimp only at h
  split at h
  next hopen =>
    cases hsequence : Flow.sequence enum s.overlapping { body with returns := false } with
    | error f =>
      rw [hsequence] at h
      cases h
    | ok flow =>
      rw [hsequence] at h
      cases h
      refine ⟨rfl, rfl, by simp [fixed?_eq, hopen], fun v => ?_⟩
      simp only [total, Flow.mem_exclusive, mem_append, mem_singleton, or_and_right,
        exists_or, exists_eq_left, (Flow.of_sequence hsequence).2]
      exact or_assoc.symm
  next hopen =>
    cases h
    refine ⟨rfl, rfl, by simp [fixed?_eq, hopen], fun v => ?_⟩
    simp only [total, Flow.mem_exclusive, mem_append, mem_singleton, or_and_right,
      exists_or, exists_eq_left]
    exact or_right_comm

/-- An open arm is put in sequence with earlier open arms. -/
theorem sequence_of_add (hopen : isOpen a) (h : s.add enum a body = .ok s') :
    Flow.sequence enum s.overlapping { body with returns := false } = .ok s'.overlapping := by
  unfold add at h
  rw [if_pos hopen] at h
  obtain ⟨flow, hflow, h⟩ := exists_of_bind_eq_ok h
  cases h
  exact hflow

theorem overlapping_of_add (hopen : isOpen a = false) (h : s.add enum a body = .ok s') :
    s'.overlapping = s.overlapping := by
  unfold add at h
  rw [if_neg (Bool.not_eq_true _ ▸ hopen)] at h
  cases h
  rfl

theorem mem_overlapping_of_add (h : s.add enum a body = .ok s') (v : String) :
    v ∈ s'.overlapping.variants.keys ↔
      v ∈ s.overlapping.variants.keys ∨ isOpen a ∧ v ∈ body.variants.keys := by
  cases hopen : isOpen a with
  | true =>
    rw [(Flow.of_sequence (sequence_of_add hopen h)).2 v]
    simp
  | false =>
    rw [overlapping_of_add hopen h]
    simp

theorem sorted_of_add (hs : s.overlapping.variants.Sorted) (h : s.add enum a body = .ok s') :
    s'.overlapping.variants.Sorted := by
  cases hopen : isOpen a with
  | true => exact Flow.sorted_of_sequence (sequence_of_add hopen h)
  | false => exact overlapping_of_add hopen h ▸ hs

theorem of_add_error (h : s.add enum a body = .error f) :
    isOpen a ∧
      Flow.sequence enum s.overlapping { body with returns := false } = .error f := by
  unfold add at h
  dsimp only at h
  split at h
  next hopen =>
    cases hflow : Flow.sequence enum s.overlapping { body with returns := false } with
    | error f' =>
      rw [hflow] at h
      cases h
      exact ⟨hopen, rfl⟩
    | ok flow =>
      rw [hflow] at h
      cases h
  · cases h

theorem skips_eq_false_iff : s.skips a = false ↔
    s.wildcard = false ∧ ∀ k ∈ a.fixed?, s.seen.contains k = false := by
  rw [skips, Bool.or_eq_false_iff, fixed?_eq]
  cases isOpen a <;> cases FixedPattern.of? a.pattern <;> simp

end ArmsFlow

/-- What the arms of a `match` return, given what each of their bodies does. -/
def collectArms {γ β : Type} (bodyFlow : β → Except Finding Flow) (enum : String) :
    ArmsFlow → List (Arm γ β) → Except Finding Flow
  | s, [] => .ok s.total
  | s, a :: arms =>
    if s.skips a.head then collectArms bodyFlow enum s arms
    else do
      let flow ← bodyFlow a.body
      collectArms bodyFlow enum (← s.add enum a.head flow) arms

/-- The arms of a `match` statement return what their blocks do. -/
theorem armsFlow_eq (enum : String) (s : ArmsFlow) (arms : List (Arm Expr (List Stmt))) :
    armsFlow enum s arms = collectArms (blockFlow enum {}) enum s arms := by
  induction arms generalizing s with
  | nil => rw [armsFlow, collectArms]
  | cons a arms ih =>
    rw [armsFlow, collectArms]
    simp only [ih]
    rfl

/-- The arms of a returned `match` return the variants that their bodies come to. -/
theorem returnedByArms_eq (enum : String) (s : ArmsFlow) (arms : List (Arm Expr Expr)) :
    returnedByArms enum s arms =
      collectArms (fun e => do return ⟨← returnedVariants enum e, true⟩) enum s arms := by
  induction arms generalizing s with
  | nil => rw [returnedByArms, collectArms]
  | cons a arms ih =>
    rw [returnedByArms, collectArms]
    simp only [ih]
    cases returnedVariants enum a.body <;> rfl

section Arms

variable {γ β : Type} {can : β → String → Prop} {always ambiguous : β → Prop}
  {arms arms' before : List (Arm γ β)} {a b : Arm γ β}

/-- A place in a list with one more entry is a place in the list, or the last. -/
theorem concat_prefix_concat_iff {α : Type} {l l' : List α} {x y : α} :
    l ++ [x] <+: l' ++ [y] ↔ l ++ [x] <+: l' ∨ l = l' ∧ x = y := by
  rw [prefix_concat_iff, or_comm]
  refine or_congr_right ⟨fun h => ?_, by rintro ⟨rfl, rfl⟩; rfl⟩
  obtain ⟨rfl, hs⟩ := append_inj' h rfl
  exact ⟨rfl, singleton_inj.mp hs⟩

theorem ReachedArm.extend (h : ReachedArm arms before a) (harms : arms <+: arms') :
    ReachedArm arms' before a :=
  ⟨h.place.trans harms, h.reached⟩

/-- The last arm is looked at after all others. -/
theorem reachedArm_concat : ReachedArm (arms ++ [a]) before b ↔
    ReachedArm arms before b ∨ a.head.Reached (arms.map Arm.head) ∧ before = arms ∧ b = a := by
  constructor
  · rintro ⟨hplace, hreached⟩
    rcases concat_prefix_concat_iff.mp hplace with hplace | ⟨rfl, rfl⟩
    · exact .inl ⟨hplace, hreached⟩
    · exact .inr ⟨hreached, rfl, rfl⟩
  · rintro (h | ⟨h, rfl, rfl⟩)
    · exact h.extend (prefix_append _ _)
    · exact ⟨prefix_rfl, h⟩

theorem exists_reachedArm_concat {P : Arm γ β → Prop} (ha : a.head.Reached (arms.map Arm.head)) :
    (∃ before b, ReachedArm (arms ++ [a]) before b ∧ P b) ↔
      (∃ before b, ReachedArm arms before b ∧ P b) ∨ P a := by
  simp only [reachedArm_concat, ha, true_and, or_and_right, exists_or]
  refine or_congr_right ⟨?_, fun h => ⟨arms, a, ⟨rfl, rfl⟩, h⟩⟩
  rintro ⟨_, _, ⟨rfl, rfl⟩, h⟩
  exact h

theorem forall_reachedArm_concat {P : Arm γ β → Prop} (ha : a.head.Reached (arms.map Arm.head)) :
    (∀ before b, ReachedArm (arms ++ [a]) before b → P b) ↔
      (∀ before b, ReachedArm arms before b → P b) ∧ P a := by
  simp only [reachedArm_concat, ha, true_and, or_imp, forall_and]
  refine and_congr_right fun _ => ⟨fun h => h arms a ⟨rfl, rfl⟩, ?_⟩
  rintro h _ _ ⟨rfl, rfl⟩
  exact h

theorem not_reachedArm_nil : ¬ReachedArm [] before a := by
  rintro ⟨hplace, -⟩
  simp at hplace

theorem ArmsClash.extend (h : ArmsClash can arms) (harms : arms <+: arms') :
    ArmsClash can arms' := by
  obtain ⟨before, b, hb, hrest⟩ := h
  exact ⟨before, b, hb.extend harms, hrest⟩

theorem armsClash_concat : ArmsClash can (arms ++ [a]) ↔ ArmsClash can arms ∨
    a.head.Reached (arms.map Arm.head) ∧ ArmsFlow.isOpen a.head ∧
      ∃ before b, ReachedArm arms before b ∧ ArmsFlow.isOpen b.head ∧ ∃ v w,
        can b.body v ∧ can a.body w ∧ v ≠ w := by
  unfold ArmsClash
  simp only [reachedArm_concat, or_and_right, exists_or, and_assoc]
  refine or_congr_right ⟨?_, ?_⟩
  · grind
  · grind

/-- What is known after some arms is just what is true of those that are looked at, and none of it
is ambiguous. -/
structure ArmsFlow.Sums (can : β → String → Prop) (always ambiguous : β → Prop) (s : ArmsFlow)
    (arms : List (Arm γ β)) : Prop where
  wildcard : s.wildcard = true ↔ ∃ a ∈ arms, a.pattern.isWildcard = true
  seen : s.wildcard = false → ∀ k, s.seen.contains k = true ↔
    ∃ a ∈ arms, ∃ k' ∈ a.head.fixed?, (k == k') = true
  total : ∀ v, v ∈ s.total.variants.keys ↔ ∃ before a, ReachedArm arms before a ∧ can a.body v
  overlapping : ∀ v, v ∈ s.overlapping.variants.keys ↔
    ∃ before a, ReachedArm arms before a ∧ ArmsFlow.isOpen a.head = true ∧ can a.body v
  sorted : s.overlapping.variants.Sorted
  returns : s.allReturn = true ↔ ∀ before a, ReachedArm arms before a → always a.body
  plain : ∀ before a, ReachedArm arms before a → ¬ambiguous a.body
  clear : ¬ArmsClash can arms

namespace ArmsFlow.Sums

variable {enum : String} {s s' : ArmsFlow} {body : Flow} {f : Finding}

theorem nil : Sums can always ambiguous {} ([] : List (Arm γ β)) where
  wildcard := by simp
  seen := by simp
  total := by simp [not_reachedArm_nil, ArmsFlow.total, Flow.exclusive, NameMap.keys, NameMap.union]
  overlapping := by simp [not_reachedArm_nil, NameMap.keys]
  sorted := .nil
  returns := by simp [not_reachedArm_nil]
  plain := by simp [not_reachedArm_nil]
  clear := by
    rintro ⟨before, b, hb, -⟩
    exact not_reachedArm_nil hb

section

variable (hs : s.Sums can always ambiguous arms)

include hs

/-- Just the arms that are looked at are not skipped. -/
theorem skips_iff : s.skips a.head = false ↔ a.head.Reached (arms.map Arm.head) := by
  rw [skips_eq_false_iff]
  have hwildcard : s.wildcard = false ↔ ∀ b ∈ arms.map Arm.head, b.pattern.isWildcard = false := by
    rw [← Bool.not_eq_true, hs.wildcard]
    simp [Arm.head]
  constructor
  · rintro ⟨hfalse, hnew⟩
    refine ⟨hwildcard.mp hfalse, fun k hk b hb k' hk' => ?_⟩
    obtain ⟨b, hmem, rfl⟩ := mem_map.mp hb
    by_contra hsame
    have hseen := (hs.seen hfalse k).mpr ⟨b, hmem, k', hk', Bool.not_eq_false _ ▸ hsame⟩
    exact Bool.false_ne_true ((hnew k hk).symm.trans hseen)
  · rintro ⟨hnone, hfresh⟩
    have hfalse := hwildcard.mpr hnone
    refine ⟨hfalse, fun k hk => Bool.not_eq_true _ ▸ fun hseen => ?_⟩
    obtain ⟨b, hb, k', hk', hsame⟩ := (hs.seen hfalse k).mp hseen
    have hdiffers := hfresh k hk _ (mem_map_of_mem hb) k' hk'
    exact Bool.false_ne_true (hdiffers.symm.trans hsame)

/-- An arm that is not looked at, if there is no wildcard before it, repeats a fixed pattern. -/
theorem exists_repeated (hskips : s.skips a.head) (hwildcard : s.wildcard = false) :
    ∃ k ∈ a.head.fixed?, ∃ b ∈ arms, ∃ k' ∈ b.head.fixed?, (k == k') := by
  by_contra hnone
  push Not at hnone
  have hfalse : s.skips a.head = false := by
    refine skips_eq_false_iff.mpr ⟨hwildcard, fun k hk => Bool.not_eq_true _ ▸ fun hseen => ?_⟩
    obtain ⟨b, hb, k', hk', hsame⟩ := (hs.seen hwildcard k).mp hseen
    exact hnone k hk b hb k' hk' hsame
  rw [hskips] at hfalse
  cases hfalse

/-- An arm that is not looked at changes nothing. -/
theorem skip (hskips : s.skips a.head) : s.Sums can always ambiguous (arms ++ [a]) := by
  have hnot : ¬a.head.Reached (arms.map Arm.head) := by
    rw [← hs.skips_iff, hskips]
    exact Bool.noConfusion
  have hsame {before : List (Arm γ β)} {b : Arm γ β} :
      ReachedArm (arms ++ [a]) before b ↔ ReachedArm arms before b := by
    simp only [reachedArm_concat, hnot, false_and, or_false]
  refine ⟨?_, fun hfalse k => ?_, ?_, ?_, hs.sorted, ?_, ?_, ?_⟩
  · rw [hs.wildcard]
    refine ⟨fun ⟨b, hb, h⟩ => ⟨b, mem_append_left _ hb, h⟩, fun ⟨b, hb, h⟩ => ?_⟩
    rw [← hs.wildcard]
    by_contra hfalse
    rw [Bool.not_eq_true] at hfalse
    rcases mem_append.mp hb with hb | hb
    · rw [hs.wildcard.mpr ⟨b, hb, h⟩] at hfalse
      cases hfalse
    obtain rfl := mem_singleton.mp hb
    obtain ⟨k, hk, -⟩ := hs.exists_repeated hskips hfalse
    rw [ArmHead.fixed?_wildcard h] at hk
    cases hk
  · rw [hs.seen hfalse]
    refine ⟨fun ⟨b, hb, h⟩ => ⟨b, mem_append_left _ hb, h⟩, fun ⟨b, hb, k', hk', hkk⟩ => ?_⟩
    rcases mem_append.mp hb with hb | hb
    · exact ⟨b, hb, k', hk', hkk⟩
    obtain rfl := mem_singleton.mp hb
    -- the arm repeats a pattern of an earlier one, which is then the same as `k` too
    obtain ⟨k₀, hk₀, c, hc, k'', hk'', hrepeats⟩ := hs.exists_repeated hskips hfalse
    obtain rfl := Option.mem_unique hk' hk₀
    exact ⟨c, hc, k'', hk'', FixedPattern.beq_trans hkk hrepeats⟩
  · simpa only [hsame] using hs.total
  · simpa only [hsame] using hs.overlapping
  · simpa only [hsame] using hs.returns
  · simpa only [hsame] using hs.plain
  · rw [armsClash_concat]
    exact fun h => h.elim hs.clear fun h => hnot h.1

/-- An open arm can return something else than an earlier open arm just if the two clash. -/
theorem differ_iff (hbody : ∀ v, v ∈ body.variants.keys ↔ can a.body v) :
    s.overlapping.Differ { body with returns := false } ↔
      ∃ before b, ReachedArm arms before b ∧ isOpen b.head ∧ ∃ v w,
        can b.body v ∧ can a.body w ∧ v ≠ w := by
  unfold Flow.Differ
  simp only [hs.overlapping, hbody]
  constructor
  · grind
  · grind

/-- An arm that is looked at is taken in, unless it clashes with an earlier one. -/
theorem add (hskips : s.skips a.head = false)
    (hbody : Tells (can a.body) (always a.body) (ambiguous a.body) (.ok body))
    (hadd : s.add enum a.head body = .ok s') : s'.Sums can always ambiguous (arms ++ [a]) := by
  obtain ⟨hcan, halways, hplain⟩ := hbody
  obtain ⟨hwildcard, hreturns, hseen, htotal⟩ := of_add hadd
  have hreached := hs.skips_iff.mp hskips
  have hfalse := (skips_eq_false_iff.mp hskips).1
  refine ⟨?_, fun _ k => ?_, fun v => ?_, fun v => ?_, ?_, ?_, ?_, ?_⟩
  · have hnone : ¬∃ b ∈ arms, b.pattern.isWildcard = true := by
      rw [← hs.wildcard, hfalse]
      exact Bool.false_ne_true
    simp only [hwildcard, mem_append, mem_singleton, or_and_right, exists_or, hnone,
      false_or, exists_eq_left]
    rfl
  · rw [hseen, contains_append, Bool.or_eq_true, hs.seen hfalse,
      contains_iff_exists_mem_beq]
    simp only [mem_append, mem_singleton, or_and_right, exists_or, exists_eq_left,
      Option.mem_toList, Option.mem_def]
  · rw [htotal, exists_reachedArm_concat hreached, hs.total, hcan]
  · rw [exists_reachedArm_concat hreached, ← hs.overlapping, ← hcan]
    exact mem_overlapping_of_add hadd v
  · exact sorted_of_add hs.sorted hadd
  · rw [hreturns, Bool.and_eq_true, forall_reachedArm_concat hreached, hs.returns, halways]
  · exact (forall_reachedArm_concat hreached).mpr ⟨hs.plain, hplain⟩
  · rw [armsClash_concat]
    rintro (hclash | ⟨-, hopen, hdiffer⟩)
    · exact hs.clear hclash
    · exact Flow.not_differ_of_sequence (sequence_of_add hopen hadd)
        ((hs.differ_iff hcan).mpr hdiffer)

theorem clash (hskips : s.skips a.head = false)
    (hbody : Tells (can a.body) (always a.body) (ambiguous a.body) (.ok body))
    (hadd : s.add enum a.head body = .error f) : ArmsClash can (arms ++ [a]) := by
  obtain ⟨hopen, hsequence⟩ := of_add_error hadd
  have hdiffer := (hs.differ_iff hbody.1).mp (Flow.differ_of_sequence hs.sorted hsequence)
  exact armsClash_concat.mpr (.inr ⟨hs.skips_iff.mp hskips, hopen, hdiffer⟩)

end

end ArmsFlow.Sums

/-- The analysis of a `match` finds out what is true of the arms that are looked at, if that of
their bodies does. -/
theorem tells_collectArms {bodyFlow : β → Except Finding Flow} {enum : String} {s : ArmsFlow}
    (hs : s.Sums can always ambiguous before)
    (harms : ∀ a ∈ arms, Tells (can a.body) (always a.body) (ambiguous a.body) (bodyFlow a.body)) :
    Tells (fun v => ∃ pre a, ReachedArm (before ++ arms) pre a ∧ can a.body v)
      ((∃ a ∈ before ++ arms, a.pattern.isWildcard) ∧
        ∀ pre a, ReachedArm (before ++ arms) pre a → always a.body)
      (ArmsClash can (before ++ arms) ∨
        ∃ pre a, ReachedArm (before ++ arms) pre a ∧ ambiguous a.body)
      (collectArms bodyFlow enum s arms) := by
  induction arms generalizing s before with
  | nil =>
    rw [append_nil, collectArms]
    refine ⟨hs.total, ?_, ?_⟩
    · rw [← hs.wildcard, ← hs.returns]
      exact Bool.and_eq_true_iff
    rintro (hclash | ⟨pre, a, ha, hambiguous⟩)
    · exact hs.clear hclash
    · exact hs.plain pre a ha hambiguous
  | cons a arms ih =>
    obtain ⟨hbody, harms⟩ := forall_mem_cons.mp harms
    have hsplit : before ++ a :: arms = before ++ [a] ++ arms := by simp
    have hpre : before ++ [a] <+: before ++ a :: arms := hsplit ▸ prefix_append _ _
    rw [collectArms]
    split
    next hskips =>
      rw [hsplit]
      exact ih (hs.skip hskips) harms
    next hskips =>
      rw [Bool.not_eq_true] at hskips
      cases hflow : bodyFlow a.body with
      | error f =>
        rw [hflow] at hbody
        have ha : ReachedArm (before ++ a :: arms) before a := ⟨hpre, hs.skips_iff.mp hskips⟩
        exact .inr ⟨before, a, ha, hbody⟩
      | ok flow =>
        rw [hflow] at hbody
        cases hadd : s.add enum a.head flow with
        | error f =>
          simp only [bind, Except.bind, hadd]
          exact .inl ((hs.clash hskips hbody hadd).extend hpre)
        | ok s' =>
          simp only [bind, Except.bind, hadd]
          rw [hsplit]
          exact ih (hs.add hskips hbody hadd) harms

/-- All arms of a `match`. -/
theorem tells_match (can : β → String → Prop) (always ambiguous : β → Prop)
    (bodyFlow : β → Except Finding Flow) (enum : String)
    (harms : ∀ a ∈ arms, Tells (can a.body) (always a.body) (ambiguous a.body) (bodyFlow a.body)) :
    Tells (fun v => ∃ before a, ReachedArm arms before a ∧ can a.body v)
      ((∃ a ∈ arms, a.pattern.isWildcard) ∧
        ∀ before a, ReachedArm arms before a → always a.body)
      (ArmsClash can arms ∨ ∃ before a, ReachedArm arms before a ∧ ambiguous a.body)
      (collectArms bodyFlow enum {} arms) :=
  tells_collectArms .nil harms

end Arms

end Statute
