import Statute.Proofs.Check.Subsumption

/-!
# Accepting as an order

Without its constraints a type is a choice between alternatives that are no unions. One alternative
covers another by the rules of `Ty.Covers`, and a type accepts another if one of its alternatives
covers all of the other's, `accepts_iff`. So accepting is transitive, as long as the type in the
middle does not fit anywhere, `accepts_trans`.

It is not reflexive. A value of a union is accepted if a single alternative takes all that it may
be, so a union accepts itself only if one of its alternatives covers them all, `accepts_self_iff`.
Types without unions do; `int | bool` does not, `union_refused_for_itself`.
-/

namespace Statute

open List

namespace Ty

/-!
## Alternatives
-/

/-- What values of a type may be, without constraints. -/
def alternatives : Ty → List Ty
  | .refine base _ _ => base.alternatives
  | .temporal inner _ _ => inner.alternatives
  | .positive inner => inner.alternatives
  | .nonEmpty inner => inner.alternatives
  | .validDate _ _ => [.prim .date]
  | .moneyIn _ => [.prim .money]
  | .union a b => a.alternatives ++ b.alternatives
  | .unknown => [.unknown]
  | .prim p => [.prim p]
  | .struct n args => [.struct n args]
  | .enum n => [.enum n]
  | .var n => [.var n]
  | .citation c => [.citation c]
  | .array t => [.array t]

/-- Neither a union nor constrained. -/
inductive IsAlternative : Ty → Prop where
  | unknown : IsAlternative .unknown
  | prim {p} : IsAlternative (.prim p)
  | struct {n args} : IsAlternative (.struct n args)
  | enum {n} : IsAlternative (.enum n)
  | var {n} : IsAlternative (.var n)
  | citation {c} : IsAlternative (.citation c)
  | array {t} : IsAlternative (.array t)

theorem IsAlternative.alternatives {y : Ty} (h : y.IsAlternative) : y.alternatives = [y] := by
  cases h <;> rfl

theorem isAlternative_of_mem {t y : Ty} (hy : y ∈ t.alternatives) : y.IsAlternative := by
  fun_induction Ty.alternatives t with
  | case1 _ _ _ ih | case2 _ _ _ ih | case3 _ ih | case4 _ ih => exact ih hy
  | case7 a b iha ihb => grind
  | case5 | case6 | case8 | case9 | case10 | case11 | case12 | case13 | case14 =>
    cases mem_singleton.mp hy
    constructor

theorem eachAlternative_eq (p : Ty → Bool) (t : Ty) :
    t.eachAlternative p = t.alternatives.all p := by
  fun_induction alternatives t with
  | case1 _ _ _ ih | case2 _ _ _ ih | case3 _ ih | case4 _ ih => rw [eachAlternative, ih]
  | case7 a b iha ihb => rw [eachAlternative, iha, ihb, all_append]
  | case5 | case6 | case8 | case9 | case10 | case11 | case12 | case13 | case14 =>
    exact (Bool.and_true _).symm

theorem eachAlternative_iff {p : Ty → Bool} {t : Ty} :
    t.eachAlternative p ↔ ∀ y ∈ t.alternatives, y.eachAlternative p := by
  rw [eachAlternative_eq, all_eq_true]
  refine forall₂_congr fun y hy => ?_
  rw [eachAlternative_eq, (isAlternative_of_mem hy).alternatives, all_cons, all_nil,
    Bool.and_true]

/-- One alternative accepts all of the other type's. -/
theorem accepts_iff_alternatives {a b : Ty} :
    a.accepts b ↔
      ∃ x ∈ a.alternatives, ∀ y ∈ b.alternatives, x.accepts y := by
  fun_induction alternatives a with
  | case1 _ _ _ ih | case2 _ _ _ ih | case3 _ ih | case4 _ ih => rw [accepts, ih]
  | case7 l r ihl ihr =>
    rw [accepts, Bool.or_eq_true, ihl, ihr]
    simp only [mem_append, or_and_right, exists_or]
  | case5 | case6 | case8 | case9 | case10 | case11 | case12 | case13 | case14 =>
    simp only [mem_singleton, exists_eq_left, accepts, primAccepts, implies_true,
      ← eachAlternative_iff]

/-!
## The rules
-/

/-- Where the one alternative is asked for, the other may stand. -/
inductive Covers : Ty → Ty → Prop where
  | anything {x y} (h : x.fitsAnywhere = true) : Covers x y
  | anywhere {x y} (h : y.fitsAnywhere = true) : Covers x y
  | prim {p} : Covers (.prim p) (.prim p)
  | widen {p} (h : p.isNumeric = true) : Covers (.prim p) .int
  | struct {n as bs} (h : acceptsAll as bs = true) : Covers (.struct n as) (.struct n bs)
  | enum {n} : Covers (.enum n) (.enum n)
  | citation {c d} : Covers (.citation c) (.citation d)
  | array {a b} (h : a.accepts b = true) : Covers (.array a) (.array b)

theorem accepts_of_fitsAnywhere {x y : Ty} (hx : x.IsAlternative) (h : y.fitsAnywhere) :
    x.accepts y := by
  cases y with
  | unknown | var => cases hx <;> rw [accepts] <;> rfl
  | _ => cases h

theorem accepts_alternative_iff {x y : Ty} (hx : x.IsAlternative) (hy : y.IsAlternative) :
    x.accepts y ↔ Covers x y := by
  constructor
  · intro h
    cases hx with
    | unknown | var => exact .anything rfl
    | @prim p =>
      cases hy with
      | unknown | var => exact .anywhere rfl
      | @prim q =>
        simp [accepts, primAccepts, eachAlternative] at h
        obtain rfl | ⟨rfl, hp⟩ := h
        · exact .prim
        · exact .widen hp
      | _ => cases h
    | @struct n as =>
      cases hy with
      | unknown | var => exact .anywhere rfl
      | @struct m bs =>
        simp [accepts, eachAlternative] at h
        obtain ⟨rfl, hargs⟩ := h
        exact .struct hargs
      | _ => cases h
    | enum =>
      cases hy with
      | unknown | var => exact .anywhere rfl
      | enum =>
        simp [accepts, eachAlternative] at h
        subst h
        exact .enum
      | _ => cases h
    | citation =>
      cases hy with
      | unknown | var => exact .anywhere rfl
      | citation => exact .citation
      | _ => cases h
    | array =>
      cases hy with
      | unknown | var => exact .anywhere rfl
      | array =>
        exact .array h
      | _ => cases h
  · intro h
    cases h with
    | anything h => cases hx <;> first | rfl | cases h
    | anywhere h => exact accepts_of_fitsAnywhere hx h
    | prim | widen h | struct h | enum => simp [accepts, primAccepts, eachAlternative, *]
    | citation => rfl
    | array h => exact h

/-- A type accepts another if one of its alternatives covers all of the other's. -/
theorem accepts_iff {a b : Ty} :
    a.accepts b ↔ ∃ x ∈ a.alternatives, ∀ y ∈ b.alternatives, Covers x y := by
  rw [accepts_iff_alternatives]
  refine exists_congr fun x => and_congr_right fun hx => forall₂_congr fun y hy => ?_
  exact accepts_alternative_iff (isAlternative_of_mem hx) (isAlternative_of_mem hy)

/-- Only the alternatives of a type matter to what accepts it. -/
theorem accepts_of_subset {a b c : Ty} (h : a.accepts b)
    (hc : c.alternatives ⊆ b.alternatives) : a.accepts c := by
  obtain ⟨x, hx, hcovers⟩ := accepts_iff.mp h
  exact accepts_iff.mpr ⟨x, hx, fun y hy => hcovers y (hc hy)⟩

/-!
## Transitivity
-/

/-- Nothing in the type is unknown or a type parameter. -/
def Concrete (t : Ty) : Prop := t.Every fun u => u.fitsAnywhere = false

/-- What accepts the type accepts all that the type accepts. -/
def Transmits (b : Ty) : Prop :=
  ∀ a c : Ty, a.accepts b = true → b.accepts c = true → a.accepts c = true

theorem acceptsAll_trans {as bs cs : List Ty} (hbs : ∀ b ∈ bs, b.Transmits)
    (hab : acceptsAll as bs) (hbc : acceptsAll bs cs) : acceptsAll as cs := by
  induction bs generalizing as cs with
  | nil =>
    cases as with
    | nil => exact hbc
    | cons => cases hab
  | cons b bs ih =>
    obtain ⟨hb, hbs⟩ := forall_mem_cons.mp hbs
    cases as with
    | nil => cases hab
    | cons a as =>
      cases cs with
      | nil => cases hbc
      | cons c cs =>
        rw [acceptsAll, Bool.and_eq_true] at hab hbc ⊢
        exact ⟨hb a c hab.1 hbc.1, ih hbs hab.2 hbc.2⟩

/-- The rules compose, if acceptance of what is inside the alternative in the middle does. -/
theorem Covers.trans {x y z : Ty} (hy : y.fitsAnywhere = false)
    (hstruct : ∀ n bs, y = .struct n bs → ∀ b ∈ bs, b.Transmits)
    (harray : ∀ b, y = .array b → b.Transmits)
    (hxy : Covers x y) (hyz : Covers y z) : Covers x z := by
  cases hxy with
  | anything h => exact .anything h
  | anywhere h => exact absurd h (by simp [hy])
  | prim | enum => exact hyz
  | widen h =>
    cases hyz with
    | anything h => cases h
    | anywhere h => exact .anywhere h
    | prim | widen _ => exact .widen h
  | struct h =>
    cases hyz with
    | anything h => cases h
    | anywhere h => exact .anywhere h
    | struct h' => exact .struct (acceptsAll_trans (hstruct _ _ rfl) h h')
  | citation =>
    cases hyz with
    | anything h => cases h
    | anywhere h => exact .anywhere h
    | citation => exact .citation
  | array h =>
    cases hyz with
    | anything h => cases h
    | anywhere h => exact .anywhere h
    | array h' => exact .array (harray _ rfl _ _ h h')

theorem transmits_of_covers {b : Ty} (hb : b.IsAlternative)
    (h : ∀ x z, Covers x b → Covers b z → Covers x z) : b.Transmits := by
  intro a c hab hbc
  obtain ⟨x, hx, hxb⟩ := accepts_iff.mp hab
  obtain ⟨y, hy, hyz⟩ := accepts_iff.mp hbc
  rw [hb.alternatives] at hxb hy
  cases mem_singleton.mp hy
  exact accepts_iff.mpr ⟨x, hx, fun z hz => h x z (hxb b mem_cons_self) (hyz z hz)⟩

theorem transmits_prim (p : Prim) : (Ty.prim p).Transmits :=
  transmits_of_covers .prim fun _ _ => Covers.trans rfl (by simp) (by simp)

/-- Constraints do not matter. -/
theorem Transmits.of_core {b core : Ty} (h : core.Transmits)
    (hgot : core.alternatives = b.alternatives) : b.Transmits := by
  intro a c hab hbc
  rw [accepts_iff, ← hgot, ← accepts_iff] at hab hbc
  exact h a c hab hbc

/-- Of a union in the middle the side counts that accepts the third type. -/
theorem Transmits.union {l r : Ty} (hl : l.Transmits) (hr : r.Transmits) :
    (Ty.union l r).Transmits := by
  intro a c hab hbc
  rw [accepts, Bool.or_eq_true] at hbc
  rcases hbc with hlc | hrc
  · exact hl a c (accepts_of_subset hab (subset_append_left _ _)) hlc
  · exact hr a c (accepts_of_subset hab (subset_append_right _ _)) hrc

mutual

/-- Accepting is transitive through types in which nothing fits anywhere. -/
theorem Concrete.transmits {b : Ty} (h : b.Concrete) : b.Transmits := by
  match b with
  | .refine base _ _ => exact (transmits (Every.refine_iff.mp h).2).of_core rfl
  | .temporal inner _ _ => exact (transmits (Every.temporal_iff.mp h).2).of_core rfl
  | .positive inner => exact (transmits (Every.positive_iff.mp h).2).of_core rfl
  | .nonEmpty inner => exact (transmits (Every.nonEmpty_iff.mp h).2).of_core rfl
  | .validDate _ _ => exact (transmits_prim .date).of_core rfl
  | .moneyIn _ => exact (transmits_prim .money).of_core rfl
  | .union l r =>
    obtain ⟨-, hl, hr⟩ := Every.union_iff.mp h
    exact (transmits hl).union (transmits hr)
  | .struct n bs =>
    refine transmits_of_covers .struct fun _ _ => Covers.trans rfl ?_ (by simp)
    rintro _ _ ⟨⟩
    exact transmits_of_mem (Every.struct_iff.mp h).2
  | .array inner =>
    refine transmits_of_covers .array fun _ _ => Covers.trans rfl (by simp) ?_
    rintro _ ⟨⟩
    exact transmits (Every.array_iff.mp h).2
  | .prim p => exact transmits_prim p
  | .enum n => exact transmits_of_covers .enum fun _ _ => Covers.trans rfl (by simp) (by simp)
  | .citation c =>
    exact transmits_of_covers .citation fun _ _ => Covers.trans rfl (by simp) (by simp)
  | .unknown | .var _ => cases h.self

theorem Concrete.transmits_of_mem {bs : List Ty} (h : ∀ b ∈ bs, b.Concrete) :
    ∀ b ∈ bs, b.Transmits := by
  match bs with
  | [] => simp
  | b :: bs =>
    obtain ⟨hb, hbs⟩ := forall_mem_cons.mp h
    exact forall_mem_cons.mpr ⟨transmits hb, transmits_of_mem hbs⟩

end

/-!
## Reflexivity
-/

mutual

/-- Where the type is a union, one of its alternatives covers all of them, and what is inside arrays
and struct arguments is so as well. -/
def FitsItself : Ty → Prop
  | .union a b =>
    ∃ x ∈ (Ty.union a b).alternatives, ∀ y ∈ (Ty.union a b).alternatives, Covers x y
  | .struct _ args => FitThemselves args
  | .refine base _ _ => base.FitsItself
  | .temporal inner _ _ => inner.FitsItself
  | .array inner => inner.FitsItself
  | .positive inner => inner.FitsItself
  | .nonEmpty inner => inner.FitsItself
  | .unknown => True
  | .prim _ => True
  | .enum _ => True
  | .var _ => True
  | .citation _ => True
  | .validDate _ _ => True
  | .moneyIn _ => True

/-- Each of the types fits itself. -/
def FitThemselves : List Ty → Prop
  | [] => True
  | t :: ts => t.FitsItself ∧ FitThemselves ts

end

/-- Constraints do not matter to whether a type accepts itself. -/
theorem accepts_self_congr {t u : Ty} (h : t.alternatives = u.alternatives) :
    t.accepts t ↔ u.accepts u := by
  rw [accepts_iff, accepts_iff, h]

mutual

/-- A type accepts itself exactly if each of its unions has an alternative that covers all. -/
theorem accepts_self_iff (t : Ty) : t.accepts t ↔ t.FitsItself := by
  match t with
  | .union a b => rw [accepts_iff, FitsItself]
  | .struct n args =>
    rw [FitsItself, ← acceptsAll_self_iff args]
    simp [accepts, eachAlternative]
  | .array inner => exact accepts_self_iff inner
  | .refine inner _ _ | .temporal inner _ _ | .positive inner | .nonEmpty inner =>
    rw [FitsItself, ← accepts_self_iff inner]
    exact accepts_self_congr rfl
  | .prim _ | .enum _ | .moneyIn _ => simp [FitsItself, accepts, primAccepts, eachAlternative]
  | .unknown | .var _ | .citation _ | .validDate _ _ => exact iff_of_true rfl trivial

theorem acceptsAll_self_iff (ts : List Ty) : acceptsAll ts ts ↔ FitThemselves ts := by
  match ts with
  | [] => exact iff_of_true rfl trivial
  | t :: ts =>
    rw [acceptsAll, Bool.and_eq_true, FitThemselves, accepts_self_iff t, acceptsAll_self_iff ts]

end

/-- There is no union in the type, at any depth. -/
def UnionFree (t : Ty) : Prop := t.Every fun u => ∀ a b, u ≠ .union a b

mutual

theorem UnionFree.fitsItself {t : Ty} (h : t.UnionFree) : t.FitsItself := by
  match t with
  | .union a b => exact absurd rfl (h.self a b)
  | .struct n args => exact fitThemselves (Every.struct_iff.mp h).2
  | .refine base _ _ =>
    rw [FitsItself]
    exact fitsItself (Every.refine_iff.mp h).2
  | .temporal inner _ _ =>
    rw [FitsItself]
    exact fitsItself (Every.temporal_iff.mp h).2
  | .array inner =>
    rw [FitsItself]
    exact fitsItself (Every.array_iff.mp h).2
  | .positive inner =>
    rw [FitsItself]
    exact fitsItself (Every.positive_iff.mp h).2
  | .nonEmpty inner =>
    rw [FitsItself]
    exact fitsItself (Every.nonEmpty_iff.mp h).2
  | .unknown | .prim _ | .enum _ | .var _ | .citation _ | .validDate _ _ | .moneyIn _ => trivial

theorem UnionFree.fitThemselves {ts : List Ty} (h : ∀ t ∈ ts, t.UnionFree) : FitThemselves ts := by
  match ts with
  | [] => trivial
  | t :: ts =>
    obtain ⟨ht, hts⟩ := forall_mem_cons.mp h
    exact ⟨fitsItself ht, fitThemselves hts⟩

end

/-- Accepting is transitive through types in which nothing is unknown or a type parameter, and it is
reflexive on types without unions. On all types, exactly those accept themselves whose unions have
an alternative that covers all of them. -/
theorem accepts_preorder (a b c : Ty) :
    (a.UnionFree → a.accepts a = true) ∧ (a.accepts a = true ↔ a.FitsItself) ∧
    (b.Concrete → a.accepts b = true → b.accepts c = true → a.accepts c = true) := by
  refine ⟨fun ha => ?_, accepts_self_iff a, fun hb => hb.transmits a c⟩
  exact (accepts_self_iff a).mpr ha.fitsItself

/-- Cases on which amounts are kept, positive or not. -/
def amounts : Ty := .struct "Case" [.array (.positive (.prim .money)), .var "T"]

/-- Numbers that are whole or not. -/
def rate : Ty := .union .int (.prim .float)

/-- Amounts are accepted as amounts and rates as rates. Where texts or lists of numbers are
accepted, lists of rates are; a list of rates may be one of counts, so lists of counts are accepted
there. -/
theorem rates_accepted :
    amounts.accepts amounts = true ∧ rate.accepts rate = true ∧
    (Ty.union (.prim .string) (.array (.prim .float))).accepts (.array rate) = true ∧
    (Ty.array rate).accepts (.array (.positive .int)) = true ∧
    (Ty.union (.prim .string) (.array (.prim .float))).accepts (.array (.positive .int)) =
      true := by
  have hamounts : amounts.UnionFree := by simp [UnionFree, Every, amounts, parts, partsAll]
  have hrate : rate.FitsItself := by
    refine ⟨.prim .float, by simp [alternatives], fun y hy => ?_⟩
    rcases mem_pair.mp (show y ∈ [Ty.int, .prim .float] from hy) with rfl | rfl
    · exact .widen rfl
    · exact .prim
  have hconcrete : (Ty.array rate).Concrete := by
    simp [Concrete, Every, rate, parts, fitsAnywhere]
  obtain ⟨hplain, -, -⟩ := accepts_preorder amounts amounts amounts
  obtain ⟨-, hself, -⟩ := accepts_preorder rate rate rate
  obtain ⟨-, -, htrans⟩ := accepts_preorder (.union (.prim .string) (.array (.prim .float)))
    (.array rate) (.array (.positive .int))
  exact ⟨hplain hamounts, hself.mpr hrate, rfl, rfl, htrans hconcrete rfl rfl⟩

end Ty

/-- A number or a truth value. -/
def answerType : TypeExpr := .union {} (.prim {} .int) (.prim {} .bool)

/-- A function that gives back what it is given. -/
def relay : Program where
  name := "relay"
  items := [.function ⟨{}, "relay", [], [⟨{}, "x", answerType⟩], answerType,
    [.ret {} "x"]⟩]

/-- The type `int | bool` accepts numbers and truth values but not its own values, so that the
function is refused. -/
theorem union_refused_for_itself :
    (Ty.union .int .bool).accepts .int = true ∧ (Ty.union .int .bool).accepts .bool = true ∧
    (Ty.union .int .bool).accepts (.union .int .bool) = false ∧
    relay.Reports {} ⟨.mismatch (.union .int .bool) (.union .int .bool), {}⟩ := by
  refine ⟨rfl, rfl, rfl, Program.reports_of_mem ?_⟩
  have hlist : ((checkAll {} relay).run {}).2.errors =
      [⟨.mismatch (.union .int .bool) (.union .int .bool), {}⟩] := rfl
  rw [hlist]
  exact mem_singleton_self _

end Statute
