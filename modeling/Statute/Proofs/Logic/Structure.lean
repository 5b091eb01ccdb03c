import Mathlib.Data.Real.Basic
import Mathlib.Logic.Function.Basic
import Statute.Logic.Vocabulary

/-!
# Structures

What terms mean. A structure says what the sorts contain and what the functions do; a valuation
gives values to constants and variables. Whole numbers are all integers, texts are all texts, an
enum has its variants, and a free sort may be any set. Functions are total, and so is division: what
it gives for a divisor of zero is up to the structure.

The meaning of a term never fails. Where a term makes no sense (an operator applied to values it is
not made for) its value is an arbitrary fixed one, so that facts about all terms need no side
conditions on sorts.
-/

namespace Statute.Logic

universe u

/-- A value of a structure whose free sorts have their elements in `α`. -/
inductive Datum (α : Type u) where
  | int (n : Int)
  | real (x : ℝ)
  | bool (b : Bool)
  | str (s : String)
  | variant (sort variant : String)
  | element (sort : String) (x : α)

variable {p : Prop} {b : Bool}

namespace Datum

variable {α : Type u}

instance : Inhabited (Datum α) := ⟨.bool false⟩

/-- The value is the truth value `true`. -/
def IsTrue (d : Datum α) : Prop := d = .bool true

/-- The truth value of a statement. -/
noncomputable def ofProp (p : Prop) : Datum α := .bool (@decide p (Classical.propDecidable p))

@[simp] theorem isTrue_ofProp : (ofProp p : Datum α).IsTrue ↔ p := by
  simp [IsTrue, ofProp]

@[simp] theorem isTrue_bool : (.bool b : Datum α).IsTrue ↔ b = true := by
  simp [IsTrue]

theorem ofProp_eq_bool : (ofProp p : Datum α) = .bool b ↔ (p ↔ b) := by
  cases b <;> simp [ofProp]

theorem ofProp_of_true (h : p) : (ofProp p : Datum α) = .bool true :=
  ofProp_eq_bool.mpr (by simpa using h)

/-- The number that a value is, if it is one. -/
def number? : Datum α → Option ℝ
  | .int n => some (n : ℝ)
  | .real x => some x
  | _ => none

/-- Both are numbers, and the first is less. -/
def Less (a b : Datum α) : Prop := ∃ x ∈ a.number?, ∃ y ∈ b.number?, x < y

/-- Both are numbers, and the first is not greater. -/
def AtMost (a b : Datum α) : Prop := ∃ x ∈ a.number?, ∃ y ∈ b.number?, x ≤ y

@[simp] theorem less_int {a b : Int} : Less (.int a : Datum α) (.int b) ↔ a < b := by
  simp [Less, number?]

@[simp] theorem atMost_int {a b : Int} : AtMost (.int a : Datum α) (.int b) ↔ a ≤ b := by
  simp [AtMost, number?]

end Datum

/-- Whether a comparison holds of two values. -/
def Comparison.Holds {α : Type u} (op : Comparison) (a b : Datum α) : Prop :=
  match op with
  | .eq => a = b
  | .distinct => a ≠ b
  | .lt => a.Less b
  | .gt => b.Less a
  | .le => a.AtMost b
  | .ge => b.AtMost a

/-- What a quantifier says about a property of the members of a set. -/
def Ranges {β : Type u} (q : Quantifier) (s : Set β) (p : β → Prop) : Prop :=
  match q with
  | .all => ∀ d ∈ s, p d
  | .some => ∃ d ∈ s, p d

theorem ranges_congr {β : Type u} {q s} {p p' : β → Prop} (h : ∀ d ∈ s, p d ↔ p' d) :
    Ranges q s p ↔ Ranges q s p' := by
  cases q with
  | all => exact forall₂_congr h
  | some =>
    constructor
    · rintro ⟨d, hd, hp⟩
      exact ⟨d, hd, (h d hd).mp hp⟩
    · rintro ⟨d, hd, hp⟩
      exact ⟨d, hd, (h d hd).mpr hp⟩

/-- What the sorts contain and what the functions do. -/
structure Structure (α : Type u) where
  /-- The variants of each enum. -/
  variants : String → List String
  /-- The elements of each free sort. -/
  elements : String → Set α
  function : String → List (Datum α) → Datum α
  /-- The number that a written real number stands for. -/
  written : Float → ℝ
  /-- Quotients and remainders for a divisor of zero. -/
  quotientByZero : Int → Int
  remainderByZero : Int → Int
  realQuotientByZero : ℝ → ℝ

/-- A value for each constant and variable. -/
abbrev Valuation (α : Type u) := String → Datum α

namespace Structure

variable {α : Type u} (M : Structure α)

/-- The values of a sort. -/
def carrier : SmtSort → Set (Datum α)
  | .int => Set.range .int
  | .real => Set.range .real
  | .bool => Set.range .bool
  | .string => Set.range .str
  | .enum n => {d | ∃ v ∈ M.variants n, d = .variant n v}
  | .free n => {d | ∃ x ∈ M.elements n, d = .element n x}

/-- Arithmetic on integers; remainders are never negative. -/
def intArith (op : Arithmetic) (a b : Int) : Int :=
  match op with
  | .add => a + b
  | .sub => a - b
  | .mul => a * b
  | .div => if b = 0 then M.quotientByZero a else a / b
  | .mod => if b = 0 then M.remainderByZero a else a % b

/-- Arithmetic on real numbers, which have no remainders. -/
noncomputable def realArith (op : Arithmetic) (a b : ℝ) : ℝ :=
  match op with
  | .add => a + b
  | .sub => a - b
  | .mul => a * b
  | .div => @ite _ (b = 0) (Classical.propDecidable _) (M.realQuotientByZero a) (a / b)
  | .mod => 0

/-- Arithmetic on two numbers of one sort. -/
noncomputable def arith (op : Arithmetic) : Datum α → Datum α → Datum α
  | .int a, .int b => .int (M.intArith op a b)
  | .real a, .real b => .real (M.realArith op a b)
  | _, _ => default

/-- The negative of a number. -/
noncomputable def negate : Datum α → Datum α
  | .int n => .int (-n)
  | .real x => .real (-x)
  | _ => default

/-- A number as a real one. -/
noncomputable def asReal : Datum α → Datum α
  | .int n => .real n
  | .real x => .real x
  | _ => default

mutual

/-- The value of a term. -/
noncomputable def value (ρ : Valuation α) : Term → Datum α
  | .int n => .int n
  | .real x => .real (M.written x)
  | .bool b => .bool b
  | .str s => .str s
  | .var x => ρ x
  | .variant s v => .variant s v
  | .not t => .ofProp (¬(value ρ t).IsTrue)
  | .and ts => .ofProp (∀ d ∈ values ρ ts, d.IsTrue)
  | .or ts => .ofProp (∃ d ∈ values ρ ts, d.IsTrue)
  | .implies a b => .ofProp ((value ρ a).IsTrue → (value ρ b).IsTrue)
  | .cmp op a b => .ofProp (op.Holds (value ρ a) (value ρ b))
  | .arith op _ a b => M.arith op (value ρ a) (value ρ b)
  | .neg t => negate (value ρ t)
  | .toReal t => asReal (value ρ t)
  | .ite c a b =>
    @ite _ (value ρ c).IsTrue (Classical.propDecidable _) (value ρ a) (value ρ b)
  | .apply f args => M.function f (values ρ args)
  | .quant q x s body =>
    .ofProp (Ranges q (M.carrier s) fun d => (value (Function.update ρ x d) body).IsTrue)

/-- The values of several terms. -/
noncomputable def values (ρ : Valuation α) : List Term → List (Datum α)
  | [] => []
  | t :: ts => value ρ t :: values ρ ts

end

/-- The statement holds. -/
def Holds (ρ : Valuation α) (t : Term) : Prop := (M.value ρ t).IsTrue

@[simp] theorem values_eq_map (ρ : Valuation α) (ts : List Term) :
    M.values ρ ts = ts.map (M.value ρ) := by
  induction ts with
  | nil => rfl
  | cons t ts ih => rw [values, ih, List.map_cons]

section Holds

variable {M} {ρ : Valuation α}

attribute [local simp] Holds value

@[simp] theorem holds_not {t : Term} : M.Holds ρ (.not t) ↔ ¬M.Holds ρ t := by
  simp

@[simp] theorem holds_and {ts : List Term} : M.Holds ρ (.and ts) ↔ ∀ t ∈ ts, M.Holds ρ t := by
  simp

@[simp] theorem holds_implies {a b : Term} :
    M.Holds ρ (.implies a b) ↔ (M.Holds ρ a → M.Holds ρ b) := by
  simp

@[simp] theorem holds_cmp {op : Comparison} {a b : Term} :
    M.Holds ρ (.cmp op a b) ↔ op.Holds (M.value ρ a) (M.value ρ b) := by
  simp

@[simp] theorem holds_quant {q x} {s : SmtSort} {body} :
    M.Holds ρ (.quant q x s body) ↔
      Ranges q (M.carrier s) fun d => M.Holds (Function.update ρ x d) body := by
  simp

end Holds

/-- Values of the sorts asked for, one for each. -/
def Fit : List (Datum α) → List SmtSort → Prop := List.Forall₂ fun d s => d ∈ M.carrier s

/-- The structure is one for the sorts and functions of a vocabulary: enums have the variants they
are declared with, free sorts are not empty, and functions take arguments of the declared sorts to
values of the declared sort. -/
structure Interprets (v : Vocabulary) : Prop where
  variants_eq : ∀ n vs, .enum n vs ∈ v.sorts → M.variants n = vs
  nonempty : ∀ n, .free n ∈ v.sorts → (M.elements n).Nonempty
  result_mem : ∀ f ∈ v.functions, ∀ args, M.Fit args f.params →
    M.function f.name args ∈ M.carrier f.result

end Structure

/-- The value keeps within the limits that are noted on a constant. -/
def ConstDecl.Within {α : Type u} (c : ConstDecl) (d : Datum α) : Prop :=
  (∀ n, c.lower = some n → (Datum.int n).AtMost d) ∧ ∀ n, c.upper = some n → d.AtMost (.int n)

/-- The constants of a vocabulary have values of their sorts. -/
def Valuation.Fits {α : Type u} (ρ : Valuation α) (M : Structure α) (v : Vocabulary) : Prop :=
  ∀ c ∈ v.constants, ρ c.symbol ∈ M.carrier c.sort

/-- The whole numbers among the constants of a vocabulary keep within their limits. -/
def Valuation.Within {α : Type u} (ρ : Valuation α) (v : Vocabulary) : Prop :=
  ∀ c ∈ v.constants, c.sort = .int → c.Within (ρ c.symbol)

/-- The structure and the valuation make the assertions of a query true. -/
structure Query.SatisfiedBy {α : Type u} (q : Query) (M : Structure α) (ρ : Valuation α) :
    Prop where
  interprets : M.Interprets q.vocabulary
  fits : ρ.Fits M q.vocabulary
  holds : ∀ t ∈ q.assertions, M.Holds ρ t

end Statute.Logic
