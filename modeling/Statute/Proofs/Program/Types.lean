import Statute.Env
import Statute.Proofs.Logic.Structure

/-!
# What types stand for

`Stands env params t ty` says by rules, without any limit on the nesting of aliases, which type a
type expression stands for. `Ty.values` is the set of the values of a type, for the types of whole
numbers, truth values, enums, texts and dates, with any limits around them. A refined type has the
values of its base that keep within its limits, so limits inside one another all count. Dates are
the numbers of their days, on a calendar without end. The types of whole numbers, truth values and
enums are those that have a `Ty.sort?`.
-/

namespace Statute

open Logic

universe u

/-!
## Compound expressions
-/

namespace TypeExpr

/-- The expressions directly inside an expression. -/
def components : TypeExpr → List TypeExpr
  | .named _ _ args => args
  | .refine _ t _ _ | .temporal _ t _ _ | .array _ t | .positive _ t | .nonEmpty _ t => [t]
  | .union _ a b => [a, b]
  | .prim _ _ | .var _ _ | .citation _ _ | .validDate _ _ _ | .moneyIn _ _ => []

theorem sizeOf_lt_of_mem_components {t u : TypeExpr} (hu : u ∈ t.components) :
    sizeOf u < sizeOf t := by
  cases t with
  | named span name args =>
    have := List.sizeOf_lt_of_mem (show u ∈ args from hu)
    simp only [named.sizeOf_spec]
    omega
  | refine | temporal | array | positive | nonEmpty | union =>
    simp only [components, List.mem_cons, List.not_mem_nil, or_false] at hu
    rcases hu with rfl | rfl <;> decreasing_tactic
  | prim | var | citation | validDate | moneyIn => cases hu

/-- What holds of an expression as soon as it holds of those directly inside holds of all. -/
theorem induction {motive : TypeExpr → Prop}
    (h : ∀ t : TypeExpr, (∀ u ∈ t.components, motive u) → motive t) (t : TypeExpr) : motive t :=
  h t fun u hu =>
    have := sizeOf_lt_of_mem_components hu
    induction h u
termination_by sizeOf t

/-- The name of a type or of a type parameter. -/
def isName : TypeExpr → Bool
  | .named .. | .var .. => true
  | _ => false

/-- The type that an expression other than a name stands for, given those of the expressions inside
it. -/
def build : TypeExpr → List Ty → Ty
  | .prim _ p, _ => .prim p
  | .refine _ _ lo hi, [t] => .refine t lo hi
  | .citation _ c, _ => .citation c
  | .temporal _ _ opens closes, [t] =>
    .temporal t (opens.bind Date.parse?) (closes.bind Date.parse?)
  | .array _ _, [t] => .array t
  | .positive _ _, [t] => .positive t
  | .nonEmpty _ _, [t] => .nonEmpty t
  | .validDate _ after before, _ =>
    .validDate (after.bind Date.parse?) (before.bind Date.parse?)
  | .union _ _ _, [l, r] => .union l r
  | .moneyIn _ code, _ => .moneyIn code
  | _, _ => .unknown

end TypeExpr

/-!
## The rules
-/

mutual

/-- The type that an expression stands for, where the names in `params` are type parameters. -/
inductive Stands (env : Env) : List String → TypeExpr → Ty → Prop where
  | prim {params span p} : Stands env params (.prim span p) (.prim p)
  | var {params span v} (hv : v.name ∈ params) : Stands env params (.var span v) (.var v.name)
  | param {params span name} (hname : name.name ∈ params) :
      Stands env params (.named span name []) (.var name.name)
  | builtin {params span name args p} (hname : ¬(args = [] ∧ name.name ∈ params))
      (hp : Prim.ofName? name.name = some p) : Stands env params (.named span name args) (.prim p)
  | struct {params span name args tys d parent fields} (hname : ¬(args = [] ∧ name.name ∈ params))
      (hp : Prim.ofName? name.name = none) (hd : env.lookup name.name = some d)
      (hbody : d.body = .struct parent fields) (hargs : StandEach env params args tys)
      (hlen : d.params.length = tys.length) :
      Stands env params (.named span name args) (.struct name.name tys)
  | enum {params span name args tys d info} (hname : ¬(args = [] ∧ name.name ∈ params))
      (hp : Prim.ofName? name.name = none) (hd : env.lookup name.name = some d)
      (hbody : d.body = .enum info) (hargs : StandEach env params args tys)
      (hlen : d.params.length = tys.length) :
      Stands env params (.named span name args) (.enum name.name)
  | synonym {params span name args tys d target t} (hname : ¬(args = [] ∧ name.name ∈ params))
      (hp : Prim.ofName? name.name = none) (hd : env.lookup name.name = some d)
      (hbody : d.body = .synonym target) (hargs : StandEach env params args tys)
      (hlen : d.params.length = tys.length) (ht : Stands env d.params target t) :
      Stands env params (.named span name args) ((Binding.ofLists d.params tys).apply t)
  | refine {params span base t lo hi} (h : Stands env params base t) :
      Stands env params (.refine span base lo hi) (.refine t lo hi)
  | citation {params span c} : Stands env params (.citation span c) (.citation c)
  | temporal {params span inner t opens closes} (h : Stands env params inner t) :
      Stands env params (.temporal span inner opens closes)
        (.temporal t (opens.bind Date.parse?) (closes.bind Date.parse?))
  | array {params span inner t} (h : Stands env params inner t) :
      Stands env params (.array span inner) (.array t)
  | positive {params span inner t} (h : Stands env params inner t) :
      Stands env params (.positive span inner) (.positive t)
  | nonEmpty {params span inner t} (h : Stands env params inner t) :
      Stands env params (.nonEmpty span inner) (.nonEmpty t)
  | validDate {params span after before} :
      Stands env params (.validDate span after before)
        (.validDate (after.bind Date.parse?) (before.bind Date.parse?))
  | union {params span a b l r} (hl : Stands env params a l) (hr : Stands env params b r) :
      Stands env params (.union span a b) (.union l r)
  | moneyIn {params span code} : Stands env params (.moneyIn span code) (.moneyIn code)

/-- The types that several expressions stand for. -/
inductive StandEach (env : Env) : List String → List TypeExpr → List Ty → Prop where
  | nil {params} : StandEach env params [] []
  | cons {params t ty ts tys} (h : Stands env params t ty) (hs : StandEach env params ts tys) :
      StandEach env params (t :: ts) (ty :: tys)

end

mutual

/-- An expression stands for one type only. -/
theorem Stands.unique {env params} {t : TypeExpr} {ty ty'} (h : Stands env params t ty)
    (h' : Stands env params t ty') : ty = ty' := by
  match h with
  | .prim | .var _ | .citation | .validDate | .moneyIn =>
    cases h'
    rfl
  | .param hname =>
    cases h' with
    | param => rfl
    | builtin hname' | struct hname' | enum hname' | synonym hname' =>
      exact absurd ⟨rfl, hname⟩ hname'
  | .builtin hname hp =>
    cases h' with
    | param hname' => exact absurd ⟨rfl, hname'⟩ hname
    | builtin _ hp' =>
      rw [hp] at hp'
      rw [Option.some.inj hp']
    | struct _ hp' | enum _ hp' | synonym _ hp' => cases hp.symm.trans hp'
  | .struct hname hp hd hbody hargs _ =>
    cases h' with
    | param hname' => exact absurd ⟨rfl, hname'⟩ hname
    | builtin _ hp' => cases hp.symm.trans hp'
    | struct _ _ _ _ hargs' => rw [hargs.unique hargs']
    | enum _ _ hd' hbody' | synonym _ _ hd' hbody' => grind
  | .enum hname hp hd hbody _ _ =>
    cases h' with
    | param hname' => exact absurd ⟨rfl, hname'⟩ hname
    | builtin _ hp' => cases hp.symm.trans hp'
    | enum => rfl
    | struct _ _ hd' hbody' | synonym _ _ hd' hbody' => grind
  | .synonym hname hp hd hbody hargs _ ht =>
    cases h' with
    | param hname' => exact absurd ⟨rfl, hname'⟩ hname
    | builtin _ hp' => cases hp.symm.trans hp'
    | struct _ _ hd' hbody' | enum _ _ hd' hbody' => grind
    | synonym _ _ hd' hbody' hargs' _ ht' =>
      cases hd.symm.trans hd'
      cases hbody.symm.trans hbody'
      rw [hargs.unique hargs', ht.unique ht']
  | .refine h | .temporal h | .array h | .positive h | .nonEmpty h =>
    cases h'
    next h' => rw [h.unique h']
  | .union hl hr =>
    cases h' with
    | union hl' hr' => rw [hl.unique hl', hr.unique hr']

theorem StandEach.unique {env params} {ts : List TypeExpr} {tys tys'}
    (h : StandEach env params ts tys) (h' : StandEach env params ts tys') : tys = tys' := by
  match h with
  | .nil =>
    cases h'
    rfl
  | .cons ht hts =>
    cases h' with
    | cons ht' hts' => rw [ht.unique ht', hts.unique hts']

end

variable {ts : List TypeExpr}

section Build

variable {env env' : Env} {params params' : List String} {t : TypeExpr} {tys : List Ty}

theorem Stands.build {tys : List Ty} (ht : t.isName = false)
    (h : StandEach env params t.components tys) : Stands env params t (t.build tys) := by
  cases t with
  | named | var => cases ht
  | refine | temporal | array | positive | nonEmpty =>
    obtain _ | ⟨h, _ | _⟩ := h
    constructor
    exact h
  | union =>
    obtain _ | ⟨hl, _ | ⟨hr, _ | _⟩⟩ := h
    exact .union hl hr
  | prim | citation | validDate | moneyIn => constructor

/-- An expression other than a name stands for what is built from the types of those inside it. -/
theorem Stands.exists_build {ty : Ty} (ht : t.isName = false) (h : Stands env params t ty) :
    ∃ tys, StandEach env params t.components tys ∧ ty = t.build tys := by
  cases h with
  | var | param | builtin | struct | enum | synonym => cases ht
  | refine h | temporal h | array h | positive h | nonEmpty h => exact ⟨[_], .cons h .nil, rfl⟩
  | union hl hr => exact ⟨[_, _], .cons hl (.cons hr .nil), rfl⟩
  | prim | citation | validDate | moneyIn => exact ⟨[], .nil, rfl⟩

theorem StandEach.map {f : TypeExpr → TypeExpr} {g : Ty → Ty} (h : StandEach env params ts tys)
    (hmap : ∀ t ∈ ts, ∀ ty, Stands env params t ty → Stands env' params' (f t) (g ty)) :
    StandEach env' params' (ts.map f) (tys.map g) := by
  induction ts generalizing tys with
  | nil =>
    cases h
    exact .nil
  | cons t ts ih =>
    cases h with
    | cons ht hts =>
      obtain ⟨hfirst, hrest⟩ := List.forall_mem_cons.mp hmap
      exact .cons (hfirst _ ht) (ih hts hrest)

theorem StandEach.imp (h : StandEach env params ts tys)
    (himp : ∀ t ∈ ts, ∀ ty, Stands env params t ty → Stands env' params' t ty) :
    StandEach env' params' ts tys := by
  simpa using h.map (f := id) (g := id) himp

end Build

/-- The value keeps within the limits. -/
def Limits.Contain {α : Type u} (l : Limits) (d : Datum α) : Prop :=
  (∀ n, l.1 = some n → (Datum.int n).AtMost d) ∧ ∀ n, l.2 = some n → d.AtMost (.int n)

/-- Whatever keeps within `l'` keeps within `l`, limit by limit. -/
def Limits.Follow (l l' : Limits) : Prop :=
  (∀ n, l.1 = some n → ∃ m, l'.1 = some m ∧ n ≤ m) ∧ ∀ n, l.2 = some n → ∃ m, l'.2 = some m ∧ m ≤ n

theorem Limits.Contain.of_follow {α : Type u} {l l' : Limits} {k : Int}
    (h : l'.Contain (.int k : Datum α)) (hl : l.Follow l') : l.Contain (.int k : Datum α) := by
  constructor
  · intro n hn
    obtain ⟨m, hm, hnm⟩ := hl.1 n hn
    have hmk : m ≤ k := Datum.atMost_int.mp (h.1 m hm)
    exact Datum.atMost_int.mpr (by omega)
  · intro n hn
    obtain ⟨m, hm, hmn⟩ := hl.2 n hn
    have hkm : k ≤ m := Datum.atMost_int.mp (h.2 m hm)
    exact Datum.atMost_int.mpr (by omega)

namespace Ty

variable {s : SmtSort}

/-- The sort of whole numbers, truth values and enums, with or without limits. Other types have
none. -/
def sort? : Ty → Option SmtSort
  | .prim .int => some .int
  | .prim .bool => some .bool
  | .enum n => some (.enum n)
  | .refine base _ _ => base.sort?.filter (· == .int)
  | _ => none

/-- The limits that the type itself states, apart from those of its base. -/
def outerLimits : Ty → Limits
  | .refine _ lo hi => (lo, hi)
  | _ => (none, none)

/-- Limits that stand around other limits imply those. -/
def Tight : Ty → Prop
  | .refine base lo hi => base.Tight ∧ base.outerLimits.Follow (lo, hi)
  | _ => True

/-- The values of a type; none, unless the type is one of those above. Both ends of a window of
dates are outside of it. -/
def values {α : Type u} (M : Structure α) : Ty → Set (Datum α)
  | .prim .int => M.carrier .int
  | .prim .bool => M.carrier .bool
  | .prim .date => M.carrier .int
  | .prim .string => M.carrier .string
  | .enum n => M.carrier (.enum n)
  | .refine base lo hi => {d | d ∈ base.values M ∧ Limits.Contain (lo, hi) d}
  | .positive inner => {d | d ∈ inner.values M ∧ (Datum.int 0).Less d}
  | .validDate after before => {d | ∃ n : Int, d = .int n ∧
      (∀ a, after = some a → a.dayNumber < n) ∧ ∀ b, before = some b → n < b.dayNumber}
  | _ => ∅

theorem sort?_refine {base : Ty} {lo hi : Option Int} :
    (Ty.refine base lo hi).sort? = some s ↔ base.sort? = some .int ∧ s = .int := by
  rw [sort?, Option.filter_eq_some_iff]
  constructor
  · grind
  · rintro ⟨hb, rfl⟩
    exact ⟨hb, rfl⟩

theorem ne_real_of_sort? {t : Ty} (h : t.sort? = some s) : s ≠ .real := by
  rintro rfl
  fun_cases sort? t with
  | case1 | case2 | case3 | case5 => simp_all [sort?]
  | case4 base lo hi => exact absurd (sort?_refine.mp h).2 (by decide)

section values

variable {α : Type u} {M : Structure α}

/-- A value of a type is one of its sort and keeps within its own limits. -/
theorem carrier_of_mem_values {t : Ty} {d : Datum α} (hs : t.sort? = some s) (hd : d ∈ t.values M) :
    d ∈ M.carrier s ∧ t.outerLimits.Contain d := by
  fun_induction sort? t generalizing s with
  | case1 | case2 | case3 =>
    cases hs
    exact ⟨hd, by simp [outerLimits, Limits.Contain]⟩
  | case4 base lo hi ih =>
    have hrefine : (Ty.refine base lo hi).sort? = some s := hs
    obtain ⟨hb, rfl⟩ := sort?_refine.mp hrefine
    exact ⟨(ih hb hd.1).1, hd.2⟩
  | case5 => cases hs

/-- Where limits inside one another imply each other, the outermost are all that counts. -/
theorem mem_values {t : Ty} {d : Datum α} (hs : t.sort? = some s) (ht : t.Tight) :
    d ∈ t.values M ↔ d ∈ M.carrier s ∧ t.outerLimits.Contain d := by
  refine ⟨carrier_of_mem_values hs, ?_⟩
  rintro ⟨hd, hl⟩
  fun_induction sort? t generalizing s with
  | case1 | case2 | case3 =>
    cases hs
    exact hd
  | case4 base lo hi ih =>
    have hrefine : (Ty.refine base lo hi).sort? = some s := hs
    obtain ⟨hb, rfl⟩ := sort?_refine.mp hrefine
    obtain ⟨k, rfl⟩ := hd
    exact ⟨ih hb ht.1 ⟨k, rfl⟩ (hl.of_follow ht.2), hl⟩
  | case5 => cases hs

end values

end Ty

/-- The values that an expression for a type ranges over. -/
def TypeExpr.values {α : Type u} (M : Structure α) (env : Env) (t : TypeExpr) : Set (Datum α) :=
  {d | ∃ ty, Stands env [] t ty ∧ d ∈ ty.values M}

/-- The structure is one for the declarations of a program: enums have the variants they are
declared with, and functions take arguments of the sorts of their parameters to values of the sort
of their result. -/
structure Logic.Structure.Suits {α : Type u} (M : Structure α) (env : Env) : Prop where
  variants_eq : ∀ n info, env.enum? n = some info → M.variants n = info.variants
  result_mem : ∀ f sig, env.function? f = some sig →
    ∀ sorts s, sig.params.map (·.2.sort?) = sorts.map some → sig.result.sort? = some s →
      ∀ args, M.Fit args sorts → M.function f args ∈ M.carrier s

end Statute
