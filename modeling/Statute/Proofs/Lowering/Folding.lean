import Statute.Proofs.Folding
import Statute.Proofs.Lowering.Typewise
import Statute.Proofs.Whole

/-!
# Folding and evaluation

Constants are computed twice: folding computes them from expressions, and evaluation from the terms
that the expressions are lowered to. Where no doubles take part, each operator does one of three
things, `Operates`, and in each case the lowered operator is evaluated alike, down to the connectives
that their left side settles. The one exception is the quotient of a negative number, which is rounded
in different directions. Where this makes no difference in any division that is carried out, the term
has the value that was folded, `results_of_foldClosed`.
-/

namespace Statute

open Logic Search Checking

/-- A whole number, a truth value or a text. -/
def Literal.isExact : Literal → Bool
  | .int _ | .bool _ | .string _ => true
  | _ => false

/-- Built from whole numbers, truth values and texts with operators. -/
def Expr.isExact : Expr → Bool
  | .literal _ v => v.isExact
  | .unary _ _ e => e.isExact
  | .binary _ _ l r => l.isExact && r.isExact
  | _ => false

namespace Constant

/-- The constant as a value of the logic. -/
def value : Constant → Value
  | .int n => .int n
  | .float x => .real x
  | .bool b => .bool b
  | .string s => .str s

def sort : Constant → SmtSort
  | .int _ => .int
  | .float _ => .real
  | .bool _ => .bool
  | .string _ => .string

def prim : Constant → Prim
  | .int _ => .int
  | .float _ => .float
  | .bool _ => .bool
  | .string _ => .string

/-- The division that an operator carries out on two constants, the dividend first. -/
def division? (op : BinaryOp) : Constant → Constant → Option (Int × Int)
  | .int m, .int n => if op = .div ∨ op = .mod then some (m, n) else none
  | _, _ => none

end Constant

/-- The divisions that are carried out when the expression is folded. -/
def Expr.divisions : Expr → List (Int × Int)
  | .unary _ _ e => e.divisions
  | .binary _ op l r =>
    match foldClosed l with
    | none => []
    | some a =>
      l.divisions ++
        match Constant.settled? op a with
        | some _ => []
        | none => r.divisions ++ ((foldClosed r).bind (Constant.division? op a)).toList
  | _ => []

theorem Expr.noDouble_of_isExact {e : Expr} (h : e.isExact) :
    e.Everywhere fun e => e.noDouble = true := by
  fun_induction Expr.isExact e with
  | case1 span l =>
    refine .intro ?_ fun c hc => nomatch hc
    cases l <;> first | rfl | cases h
  | case2 span op e ih => exact everywhere_unary.mpr ⟨rfl, ih h⟩
  | case3 span op l r ihl ihr =>
    obtain ⟨hl, hr⟩ := Bool.and_eq_true_iff.mp h
    exact everywhere_binary.mpr ⟨rfl, ihl hl, ihr hr⟩
  | case4 => cases h

theorem hasValue_of_foldClosed {e : Expr} {v : Constant} (hexact : e.isExact)
    (h : foldClosed e = some v) :
    HasValue Whole.InRange (fun _ => none) e v ∧ v.isExact :=
  hasValue_of_fold (Expr.noDouble_of_isExact hexact) (fun _ _ hv => nomatch hv) h

/-!
## Evaluation
-/

section Values

variable {i : Interpretation} {bound : List (String × Value)}

theorem value_int (i : Interpretation) (bound : List (String × Value)) (n : Int) :
    (eval i bound (.int n)).value = some (.int n) := by
  rw [eval]

theorem value_var {name w} (h : i.symbol? bound name = some w) :
    (eval i bound (.var name)).value = some w := by
  rw [eval, h]

theorem value_cmp {op x y a b} (hx : (eval i bound x).value = some a)
    (hy : (eval i bound y).value = some b) :
    (eval i bound (.cmp op x y)).value = (compareValues op a b).map .bool := by
  rw [eval, Outcome.andThen, hx]
  dsimp only
  rw [Outcome.bindValue, hy]
  rfl

end Values

/-- The term has the value of the constant, whatever its symbols stand for. -/
def Computes (t : Term) (v : Constant) : Prop :=
  ∀ i bound, (eval i bound t).value = some v.value

variable {p c : Bool} {s : SmtSort}

namespace Computes

variable {t x y : Term} {a b : Constant}

theorem truth {p : Bool} (h : Computes t (.bool p)) (i : Interpretation)
    (bound : List (String × Value)) : (eval i bound t).truth.truth = some p := by
  rw [Outcome.truth, h i bound]
  rfl

theorem not (h : Computes t (.bool p)) : Computes (.not t) (.bool !p) := by
  intro i bound
  rw [eval, Truth.outcome, h.truth]
  rfl

/-- Where the left side settles a connective, the right side is not looked at. -/
theorem connective {op : BinaryOp} {p q : Bool} (hop : op.isLogical)
    (hx : Computes x (.bool p)) (hy : op.settledAt p = none → Computes y (.bool q)) :
    Computes (connective op x y) (.bool ((op.settledAt p).getD q)) := by
  intro i bound
  have hleft := hx.truth i bound
  have hright (h : op.settledAt p = none) := (hy h).truth i bound
  cases op with
  | and =>
    rw [Statute.connective, eval, evalAll, hleft]
    cases p with
    | false => rfl
    | true =>
      dsimp only
      rw [evalAll, hright rfl]
      cases q <;> rfl
  | or =>
    rw [Statute.connective, eval, evalAny, hleft]
    cases p with
    | true => rfl
    | false =>
      dsimp only
      rw [evalAny, hright rfl]
      cases q <;> rfl
  | implies =>
    change (eval i bound (.implies x y)).value = _
    rw [eval, hleft]
    cases p with
    | false => rfl
    | true =>
      dsimp only
      rw [hright rfl]
      rfl
  | _ => cases hop

theorem neg {m n : Int} (h : Computes t (.int m)) (hn : Whole.neg? m = some n) :
    Computes (.neg t) (.int n) := by
  intro i bound
  rw [eval, Outcome.bindValue, h i bound]
  exact congrArg (Option.map Value.int) hn

theorem cmp {op : Comparison} (hx : Computes x a) (hy : Computes y b)
    (hc : compareValues op a.value b.value = some c) : Computes (.cmp op x y) (.bool c) := by
  intro i bound
  rw [value_cmp (hx i bound) (hy i bound), hc]
  rfl

theorem arith {op m n k} (hx : Computes x (.int m)) (hy : Computes y (.int n))
    (hk : intArithmetic op m n = some k) : Computes (.arith op s x y) (.int k) := by
  intro i bound
  rw [eval, Outcome.andThen, hx i bound]
  dsimp only
  rw [Outcome.bindValue, hy i bound]
  exact congrArg (Option.map Value.int) hk

end Computes

/-!
## Lowering
-/

section Operators

variable {op : BinaryOp} {l r r' : Lowered}

theorem Combines.eq_connective (hop : op.isLogical) (h : Combines op l r r') :
    r' = (connective op l.1 r.1, .bool) := by
  cases h with
  | logical => rfl
  | comparison hlogical | arithmetic hlogical => simp [hop] at hlogical

/-- Operands of one sort are taken as they are. -/
theorem Combines.of_same {x y : Term} (hop : op.isLogical = false)
    (h : Combines op (x, s) (y, s) r') :
    r' = if op.isComparison then (.cmp (comparisonOf op) x y, .bool)
      else (.arith (arithmeticOf op) s x y, s) := by
  have hcoerce (u : Term) : coerce? u s s = some u := by simp [coerce?]
  cases h with
  | logical hlogical => simp [hop] at hlogical
  | comparison _ hcomparison hjoined ha hb | arithmetic _ hcomparison hjoined ha hb =>
    grind [joinedSort?_self]

end Operators

section Lowering

variable {cx : LoweringContext} {lowerBody : Expr → Lowering Lowered} {locals : List Local}
  {depth : Nat} {e : Expr} {v : Constant} {op : BinaryOp}

/-- Folding and the logic do the same arithmetic where rounding makes no difference. -/
theorem intArithmetic_of_calculates {m n k : Int}
    (hdivision : ∀ d ∈ Constant.division? op (.int m) (.int n), Whole.RoundsAlike d.1 d.2)
    (h : Calculates Whole.InRange op m n k) : intArithmetic (arithmeticOf op) m n = some k := by
  cases h with
  | add h | sub h | mul h => exact Whole.fit_eq_some_iff.mpr ⟨h, rfl⟩
  | div hn h =>
    refine (Whole.quot?_eq_div? (hdivision _ rfl)).symm.trans ?_
    rw [Whole.quot?, if_neg hn]
    exact Whole.fit_eq_some_iff.mpr ⟨h, rfl⟩
  | mod hn h =>
    refine (Whole.rem?_eq_mod? (hdivision _ rfl)).symm.trans ?_
    rw [Whole.rem?, Whole.quot?, if_neg hn, Whole.fit_eq_some_iff.mpr ⟨h, rfl⟩]
    rfl

/-- Folding and the logic compare alike. -/
theorem compareValues_of_comesOut {a b : Constant} (h : ComesOut op a b c) :
    compareValues (comparisonOf op) a.value b.value = some c := by
  cases h with
  | numbers hop =>
    rw [← holdsOf_compare hop]
    cases op <;> cases hop <;> rfl
  | sameTruth | sameText =>
    rfl
  | otherTruth | otherText =>
    rw [decide_not, ← beq_eq_decide]
    rfl

theorem ComesOut.sort_eq {a b : Constant} (h : ComesOut op a b c) : a.sort = b.sort := by
  cases h <;> rfl

/-- What an expression folds to is the value of the term that it is lowered to, where rounding makes
no difference in its divisions. -/
theorem results_of_foldClosed (hexact : e.isExact) (hfold : foldClosed e = some v)
    (halike : ∀ d ∈ e.divisions, Whole.RoundsAlike d.1 d.2) :
    Results (lowerWith cx lowerBody locals depth e) fun r => r.2 = v.sort ∧ Computes r.1 v := by
  fun_induction Expr.isExact e generalizing v with
  | case1 span l =>
    cases l <;> cases hexact <;> cases hfold <;>
      exact .pure ⟨rfl, fun i bound => by rw [eval]; rfl⟩
  | case2 span op e ih =>
    obtain ⟨a, ha, hv⟩ := Option.bind_eq_some_iff.mp hfold
    refine (ih hexact ha halike).bind fun r hr => ?_
    obtain ⟨t, s⟩ := r
    obtain ⟨rfl, ht⟩ := hr
    unfold Constant.negate at hv
    split at hv
    · cases hv
      exact .pure ⟨rfl, ht.not⟩
    · obtain ⟨n, hn, rfl⟩ := Option.map_eq_some_iff.mp hv
      exact .pure ⟨rfl, ht.neg hn⟩
    · cases (hasValue_of_foldClosed hexact ha).2
    · cases hv
  | case3 span op l r ihl ihr =>
    obtain ⟨hl, hr⟩ := Bool.and_eq_true_iff.mp hexact
    obtain ⟨a, ha, hcases⟩ := fold_binary_eq_some hfold
    have ha : foldClosed l = some a := ha
    rw [Expr.divisions, ha] at halike
    have hleft := ihl hl ha fun d hd => halike d (List.mem_append_left _ hd)
    refine hleft.bind fun x hx => ?_
    obtain ⟨x, s⟩ := x
    obtain ⟨rfl, hx⟩ := hx
    rcases hcases with hsettled | ⟨hnone, b, hb, hv⟩
    · obtain ⟨hop, p, c, rfl, rfl, hc⟩ := Constant.of_settled? hsettled
      refine Results.any.bind fun y _ => decides_lowerBinary.results.mono fun r' hr' => ?_
      rw [hr'.eq_connective hop]
      refine ⟨rfl, ?_⟩
      have hvalue := hx.connective (q := c) (y := y.1) hop fun hnone => by simp [hc] at hnone
      rwa [hc] at hvalue
    · have hb : foldClosed r = some b := hb
      dsimp only at halike
      rw [hnone, hb] at halike
      have hright := ihr hr hb fun d hd => halike d (by simp [hd])
      refine hright.bind fun y hy => decides_lowerBinary.results.mono fun r' hr' => ?_
      obtain ⟨y, t⟩ := y
      obtain ⟨rfl, hy⟩ := hy
      cases Constant.operates_of_combine (hasValue_of_foldClosed hl ha).2
        (hasValue_of_foldClosed hr hb).2 hnone hv with
      | arithmetic hk =>
        rw [hr'.of_same hk.isArithmetic.1, hk.isArithmetic.2]
        refine ⟨rfl, hx.arith hy (intArithmetic_of_calculates (fun d hd => halike d ?_) hk)⟩
        simpa [hd] using .inr (.inr hd)
      | comparison hc =>
        rw [hc.sort_eq] at hr'
        rw [hr'.of_same hc.isComparison.1, hc.isComparison.2]
        exact ⟨rfl, hx.cmp hy (compareValues_of_comesOut hc)⟩
      | @connective p q hlogical hp =>
        rw [hr'.eq_connective hlogical]
        have hvalue := hx.connective hlogical fun _ => hy
        rw [hp] at hvalue
        exact ⟨rfl, hvalue⟩
  | case4 => cases hexact

end Lowering

end Statute
