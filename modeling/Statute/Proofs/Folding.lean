import Statute.Folding
import Statute.Proofs.Program.Meaning

/-!
# Folding is exact

The value of an expression, by rules that know nothing of the range of whole numbers: arithmetic is
that of the integers, quotients are rounded toward zero, and a connective that its left side settles
needs no right side. `HasValue ok env e v` says that `e` has the value `v` by these rules and that `ok`
holds of all numbers that are computed on the way, with the quotient that belongs to each remainder.

An expression has at most one value, `HasValue.unique`. What it folds to is its value, and nothing
computed on the way is out of range, `hasValue_of_fold`; constants for further names change nothing,
`fold_mono`.
-/

namespace Statute

/-- The comparison is true of two numbers. -/
def BinaryOp.holds : BinaryOp → Int → Int → Bool
  | .eq, m, n => m = n
  | .ne, m, n => m ≠ n
  | .lt, m, n => m < n
  | .gt, m, n => m > n
  | .le, m, n => m ≤ n
  | .ge, m, n => m ≥ n
  | _, _, _ => false

/-- The truth value of a connective that its left side settles. -/
def BinaryOp.settledAt : BinaryOp → Bool → Option Bool
  | .and, false => some false
  | .or, true => some true
  | .implies, false => some true
  | _, _ => none

/-- Not a double. -/
def Constant.isExact : Constant → Bool
  | .float _ => false
  | _ => true

/-- Arithmetic on the integers. -/
inductive Calculates (ok : Int → Prop) : BinaryOp → Int → Int → Int → Prop where
  | add {m n} (h : ok (m + n)) : Calculates ok .add m n (m + n)
  | sub {m n} (h : ok (m - n)) : Calculates ok .sub m n (m - n)
  | mul {m n} (h : ok (m * n)) : Calculates ok .mul m n (m * n)
  | div {m n} (hn : n ≠ 0) (h : ok (m.tdiv n)) : Calculates ok .div m n (m.tdiv n)
  | mod {m n} (hn : n ≠ 0) (h : ok (m.tdiv n)) : Calculates ok .mod m n (m.tmod n)

/-- The truth value of a comparison of two values of one kind. -/
inductive ComesOut : BinaryOp → Constant → Constant → Bool → Prop where
  | numbers {op m n} (hop : op.isComparison = true) : ComesOut op (.int m) (.int n) (op.holds m n)
  | sameTruth {p q} : ComesOut .eq (.bool p) (.bool q) (p = q)
  | otherTruth {p q} : ComesOut .ne (.bool p) (.bool q) (p ≠ q)
  | sameText {s t} : ComesOut .eq (.string s) (.string t) (s = t)
  | otherText {s t} : ComesOut .ne (.string s) (.string t) (s ≠ t)

/-- What an operator gives for two values, unless the first one settles it. -/
inductive Operates (ok : Int → Prop) (op : BinaryOp) : Constant → Constant → Constant → Prop where
  | arithmetic {m n k} (h : Calculates ok op m n k) : Operates ok op (.int m) (.int n) (.int k)
  | comparison {a b c} (h : ComesOut op a b c) : Operates ok op a b (.bool c)
  | connective {p q} (hop : op.isLogical = true) (hp : op.settledAt p = none) :
      Operates ok op (.bool p) (.bool q) (.bool q)

/-- The value of an expression, given values for names. -/
inductive HasValue (ok : Int → Prop) (env : String → Option Constant) : Expr → Constant → Prop where
  | int {span n} : HasValue ok env (.literal span (.int n)) (.int n)
  | bool {span b} : HasValue ok env (.literal span (.bool b)) (.bool b)
  | string {span s} : HasValue ok env (.literal span (.string s)) (.string s)
  | name {span id v} (h : env id.name = some v) : HasValue ok env (.name span id) v
  | not {span e b} (he : HasValue ok env e (.bool b)) :
      HasValue ok env (.unary span .not e) (.bool !b)
  | neg {span e n} (he : HasValue ok env e (.int n)) (h : ok (-n)) :
      HasValue ok env (.unary span .neg e) (.int (-n))
  | settled {span op l r p c} (hl : HasValue ok env l (.bool p)) (h : op.settledAt p = some c) :
      HasValue ok env (.binary span op l r) (.bool c)
  | combined {span op l r a b v} (hl : HasValue ok env l a) (hr : HasValue ok env r b)
      (h : Operates ok op a b v) : HasValue ok env (.binary span op l r) v

section Operators

variable {ok ok' : Int → Prop} {op : BinaryOp} {a b v w : Constant}

theorem Calculates.isArithmetic {m n k : Int} (h : Calculates ok op m n k) :
    op.isLogical = false ∧ op.isComparison = false := by
  cases h <;> exact ⟨rfl, rfl⟩

theorem ComesOut.isComparison {c : Bool} (h : ComesOut op a b c) :
    op.isLogical = false ∧ op.isComparison := by
  cases h with
  | numbers hop => cases op <;> cases hop <;> exact ⟨rfl, rfl⟩
  | _ => exact ⟨rfl, rfl⟩

theorem Operates.isExact (h : Operates ok op a b v) : v.isExact := by
  cases h <;> rfl

theorem Operates.unique (h : Operates ok op a b v) (h' : Operates ok' op a b w) : v = w := by
  cases h with
  | arithmetic h =>
    cases h' with
    | arithmetic h' => cases h <;> cases h' <;> rfl
    | comparison h' => cases h.isArithmetic.2.symm.trans h'.isComparison.2
  | comparison h =>
    cases h' with
    | arithmetic h' => cases h'.isArithmetic.2.symm.trans h.isComparison.2
    | comparison h' => cases h <;> cases h' <;> rfl
    | connective hop => cases hop.symm.trans h.isComparison.1
  | connective hop =>
    cases h' with
    | comparison h' => cases hop.symm.trans h'.isComparison.1
    | connective => rfl

/-- What the left side settles is not combined with the right side. -/
theorem Operates.settledAt_eq_none {p : Bool} (h : Operates ok op (.bool p) b v) :
    op.settledAt p = none := by
  cases h with
  | comparison h => cases h <;> rfl
  | connective hop hp => exact hp

theorem Operates.mono (hok : ∀ n, ok n → ok' n) (h : Operates ok op a b v) : Operates ok' op a b v := by
  cases h with
  | arithmetic h =>
    refine .arithmetic ?_
    cases h with
    | add h => exact .add (hok _ h)
    | sub h => exact .sub (hok _ h)
    | mul h => exact .mul (hok _ h)
    | div hn h => exact .div hn (hok _ h)
    | mod hn h => exact .mod hn (hok _ h)
  | comparison h => exact .comparison h
  | connective hop hp => exact .connective hop hp

end Operators

section Value

variable {ok ok' : Int → Prop} {env : String → Option Constant} {e : Expr} {v w : Constant}

/-- An expression has at most one value. -/
theorem HasValue.unique (h : HasValue ok env e v) (h' : HasValue ok' env e w) : v = w := by
  induction h generalizing w with
  | int | bool | string =>
    cases h'
    rfl
  | name hv =>
    cases h' with
    | name hw => exact Option.some.inj (hv.symm.trans hw)
  | not _ ih =>
    cases h' with
    | not he => cases ih he; rfl
  | neg _ _ ih =>
    cases h' with
    | neg he => cases ih he; rfl
  | settled _ hc ih =>
    cases h' with
    | settled hl hc' => grind
    | combined hl _ hw =>
      cases ih hl
      cases hc.symm.trans hw.settledAt_eq_none
  | combined _ _ hv ihl ihr =>
    cases h' with
    | settled hl hc =>
      cases ihl hl
      cases hc.symm.trans hv.settledAt_eq_none
    | combined hl hr hw =>
      cases ihl hl
      cases ihr hr
      exact hv.unique hw

theorem HasValue.mono (hok : ∀ n, ok n → ok' n) (h : HasValue ok env e v) :
    HasValue ok' env e v := by
  induction h with
  | int => exact .int
  | bool => exact .bool
  | string => exact .string
  | name h => exact .name h
  | not _ ih => exact .not ih
  | neg _ h ih => exact .neg ih (hok _ h)
  | settled _ h ih => exact .settled ih h
  | combined _ _ h ihl ihr => exact .combined ihl ihr (h.mono hok)

end Value

/-!
## What is folded
-/

/-- Not a literal of a double, an amount or a percentage. -/
def Expr.noDouble : Expr → Bool
  | .literal _ (.float _) | .literal _ (.money _) | .literal _ (.percent _) => false
  | _ => true

theorem holdsOf_compare {op : BinaryOp} (hop : op.isComparison) (m n : Int) :
    op.holdsOf (compare m n) = op.holds m n := by
  rcases Int.lt_trichotomy m n with h | rfl | h
  · rw [Int.compare_eq_lt.mpr h]
    cases op <;> cases hop <;> simp [BinaryOp.holdsOf, BinaryOp.holds, bne] <;> omega
  · rw [Int.compare_eq_eq.mpr rfl]
    cases op <;> cases hop <;> simp [BinaryOp.holdsOf, BinaryOp.holds]
  · rw [Int.compare_eq_gt.mpr h]
    cases op <;> cases hop <;> simp [BinaryOp.holdsOf, BinaryOp.holds, bne] <;> omega

/-- How an operator on constants folds: the left side settles it, or both sides are combined. -/
theorem fold_binary_eq_some {ρ : String → Option Constant} {op : BinaryOp} {l r : Expr}
    {v : Constant} (h : ((fold ρ l).bind fun a =>
      match Constant.settled? op a with
      | some v => some v
      | none => (fold ρ r).bind fun b => Constant.combine op a b) = some v) :
    ∃ a, fold ρ l = some a ∧ (Constant.settled? op a = some v ∨ Constant.settled? op a = none ∧
      ∃ b, fold ρ r = some b ∧ Constant.combine op a b = some v) := by
  obtain ⟨a, ha, hrest⟩ := Option.bind_eq_some_iff.mp h
  refine ⟨a, ha, ?_⟩
  cases hsettled : Constant.settled? op a with
  | some w =>
    rw [hsettled] at hrest
    exact .inl hrest
  | none =>
    rw [hsettled] at hrest
    exact .inr ⟨rfl, Option.bind_eq_some_iff.mp hrest⟩

namespace Constant

variable {op : BinaryOp} {a b v : Constant}

/-- Only a truth value settles a connective. -/
theorem of_settled? (h : settled? op a = some v) :
    op.isLogical ∧ ∃ p c, a = .bool p ∧ v = .bool c ∧ op.settledAt p = some c := by
  unfold settled? at h
  split at h <;> cases h <;> exact ⟨rfl, _, _, rfl, rfl, rfl⟩

theorem operates_of_combineInts {m n : Int} (h : combineInts op m n = some v) :
    Operates Whole.InRange op (.int m) (.int n) v := by
  cases op with
  | add | sub | mul =>
    obtain ⟨k, hk, rfl⟩ := Option.map_eq_some_iff.mp h
    obtain ⟨hrange, rfl⟩ := Whole.fit_eq_some_iff.mp hk
    exact .arithmetic (by constructor; exact hrange)
  | div =>
    obtain ⟨k, hk, rfl⟩ := Option.map_eq_some_iff.mp h
    obtain ⟨hn, hk⟩ := Option.ite_none_left_eq_some.mp hk
    obtain ⟨hrange, rfl⟩ := Whole.fit_eq_some_iff.mp hk
    exact .arithmetic (.div hn hrange)
  | mod =>
    obtain ⟨k, hk, rfl⟩ := Option.map_eq_some_iff.mp h
    obtain ⟨q, hq, rfl⟩ := Option.map_eq_some_iff.mp hk
    obtain ⟨hn, hq⟩ := Option.ite_none_left_eq_some.mp hq
    exact .arithmetic (.mod hn (Whole.fit_eq_some_iff.mp hq).1)
  | eq | ne | lt | gt | le | ge =>
    cases h
    rw [holdsOf_compare rfl]
    exact .comparison (.numbers rfl)
  | and | or | implies => cases h

theorem operates_of_combineBools {p q : Bool} (hnone : settled? op (.bool p) = none)
    (h : combineBools op p q = some v) : Operates Whole.InRange op (.bool p) (.bool q) v := by
  cases op with
  | and | or | implies =>
    cases p <;> cases hnone
    cases h
    exact .connective rfl rfl
  | eq =>
    cases h
    exact .comparison .sameTruth
  | ne =>
    cases h
    rw [bne, beq_eq_decide, ← decide_not]
    exact .comparison .otherTruth
  | add | sub | mul | div | mod | lt | gt | le | ge => cases h

theorem operates_of_combineStrings {s t : String} (h : combineStrings op s t = some v) :
    Operates Whole.InRange op (.string s) (.string t) v := by
  cases op with
  | eq =>
    cases h
    exact .comparison .sameText
  | ne =>
    cases h
    rw [bne, beq_eq_decide, ← decide_not]
    exact .comparison .otherText
  | add | sub | mul | div | mod | lt | gt | le | ge | and | or | implies => cases h

/-- Constants of two kinds have nothing in common but that both may be numbers. -/
theorem operates_of_combine (ha : a.isExact) (hb : b.isExact)
    (hnone : settled? op a = none) (h : combine op a b = some v) :
    Operates Whole.InRange op a b v := by
  cases a with
  | float => cases ha
  | int m =>
    cases b with
    | int n => exact operates_of_combineInts h
    | float => cases hb
    | bool | string => cases h
  | bool p =>
    cases b with
    | bool q => exact operates_of_combineBools hnone h
    | float => cases hb
    | int | string => cases h
  | string s =>
    cases b with
    | string t => exact operates_of_combineStrings h
    | float => cases hb
    | int | bool => cases h

end Constant

section Fold

variable {env env' : String → Option Constant} {e : Expr} {v : Constant}

/-- What an expression folds to is its value, and everything that is computed is in range. -/
theorem hasValue_of_fold (hplain : e.Everywhere fun e => e.noDouble = true)
    (henv : ∀ name v, env name = some v → v.isExact) (h : fold env e = some v) :
    HasValue Whole.InRange env e v ∧ v.isExact := by
  fun_induction fold env e generalizing v with
  | case1 span l =>
    have hl := hplain.here
    cases l with
    | int | bool | string =>
      cases h
      exact ⟨by constructor, rfl⟩
    | float | money | percent => cases hl
    | date | duration | pass => cases h
  | case2 span id => exact ⟨.name h, henv _ _ h⟩
  | case3 span op e ih =>
    obtain ⟨a, ha, hv⟩ := Option.bind_eq_some_iff.mp h
    obtain ⟨hvalue, hkind⟩ := ih (Expr.everywhere_unary.mp hplain).2 ha
    unfold Constant.negate at hv
    split at hv
    · cases hv
      exact ⟨.not hvalue, rfl⟩
    · obtain ⟨k, hk, rfl⟩ := Option.map_eq_some_iff.mp hv
      obtain ⟨hrange, rfl⟩ := Whole.fit_eq_some_iff.mp hk
      exact ⟨.neg hvalue hrange, rfl⟩
    · cases hkind
    · cases hv
  | case4 span op l r ihl ihr =>
    obtain ⟨-, hl, hr⟩ := Expr.everywhere_binary.mp hplain
    obtain ⟨a, ha, hsettled | ⟨hnone, b, hb, hv⟩⟩ := fold_binary_eq_some h
    · obtain ⟨-, p, c, rfl, rfl, hc⟩ := Constant.of_settled? hsettled
      exact ⟨.settled (ihl hl ha).1 hc, rfl⟩
    obtain ⟨hleft, hkindLeft⟩ := ihl hl ha
    obtain ⟨hright, hkindRight⟩ := ihr hr hb
    have hoperates := Constant.operates_of_combine hkindLeft hkindRight hnone hv
    exact ⟨.combined hleft hright hoperates, hoperates.isExact⟩
  | case5 => cases h

/-- Constants for further names leave what is folded as it is. -/
theorem fold_mono (hext : ∀ name v, env name = some v → env' name = some v)
    (h : fold env e = some v) : fold env' e = some v := by
  fun_induction fold env e generalizing v with
  | case1 => exact h
  | case2 span id => exact hext _ _ h
  | case3 span op e ih =>
    obtain ⟨a, ha, hv⟩ := Option.bind_eq_some_iff.mp h
    rw [fold, ih ha]
    exact hv
  | case4 span op l r ihl ihr =>
    obtain ⟨a, ha, hsettled | ⟨hnone, b, hb, hv⟩⟩ := fold_binary_eq_some h
    · rw [fold, ihl ha, Option.bind_some, hsettled]
    · rw [fold, ihl ha, Option.bind_some, hnone, ihr hb]
      exact hv
  | case5 => cases h

end Fold

/-- Folding is exact: what an expression without doubles folds to, given constants that are none, is
its only value by the rules for all integers, and no number computed on the way is out of range. And
it is monotone: constants for further names leave it as it is. -/
theorem folding_exact (e : Expr) (env : String → Option Constant) (v : Constant)
    (h : fold env e = some v) :
    ((e.Everywhere fun e => e.noDouble = true) →
      (∀ name v, env name = some v → v.isExact = true) →
        HasValue Whole.InRange env e v ∧ ∀ w, HasValue (fun _ => True) env e w ↔ w = v) ∧
    ∀ env', (∀ name v, env name = some v → env' name = some v) → fold env' e = some v := by
  refine ⟨fun hplain henv => ?_, fun env' hext => fold_mono hext h⟩
  have hvalue := (hasValue_of_fold hplain henv h).1
  refine ⟨hvalue, fun w => ⟨fun hw => hw.unique hvalue, ?_⟩⟩
  rintro rfl
  exact hvalue.mono fun _ _ => trivial

/-- If half of `x` is minus four, then `y`. -/
def halfway : Expr :=
  .binary {} .implies
    (.binary {} .eq (.binary {} .div "x" (.literal {} (.int 2)))
      (.unary {} .neg (.literal {} (.int 4))))
    "y"

/-- The half of minus seven is rounded to minus three, so `y` does not matter. -/
theorem halfway_exact :
    let env (name : String) : Option Constant := if name = "x" then some (.int (-7)) else none
    fold env halfway = some (.bool true) ∧ HasValue Whole.InRange env halfway (.bool true) ∧
      ∀ y, fold (fun name => if name = "y" then some y else env name) halfway =
        some (.bool true) := by
  intro env
  have hfold : fold env halfway = some (.bool true) := rfl
  have henv (name : String) (v : Constant) (h : env name = some v) :
      name = "x" ∧ some (.int (-7)) = some v := Option.ite_none_right_eq_some.mp h
  obtain ⟨hexact, hmono⟩ := folding_exact halfway env (.bool true) hfold
  refine ⟨hfold, (hexact ?_ fun name v h => ?_).1, fun y => hmono _ fun name v h => ?_⟩
  · simp [halfway, Expr.noDouble]
  · cases (henv name v h).2
    rfl
  · obtain ⟨rfl, hv⟩ := henv name v h
    exact hv

end Statute
