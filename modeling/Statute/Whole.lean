/-!
# Whole numbers of the language

Whole numbers are the integers of 64 bits. Arithmetic never wraps around: a result outside the
range is no result. The definitions work on mathematical integers and put the range check at the
end, so each operation agrees with the exact one wherever it answers.
-/

namespace Statute.Whole

/-- The least whole number. -/
def least : Int := -9223372036854775808

/-- The greatest whole number. -/
def greatest : Int := 9223372036854775807

/-- Within the range of whole numbers. -/
def InRange (n : Int) : Prop := least ≤ n ∧ n ≤ greatest

instance (n : Int) : Decidable (InRange n) := inferInstanceAs (Decidable (_ ∧ _))

/-- The number itself if it is in range. -/
def fit (n : Int) : Option Int := if InRange n then some n else none

@[simp] theorem fit_eq_some_iff {n m : Int} : fit n = some m ↔ InRange n ∧ n = m := by
  unfold fit
  split <;> simp_all

def add? (a b : Int) : Option Int := fit (a + b)

def sub? (a b : Int) : Option Int := fit (a - b)

def mul? (a b : Int) : Option Int := fit (a * b)

def neg? (a : Int) : Option Int := fit (-a)

/-- Quotient rounded toward zero. -/
def quot? (a b : Int) : Option Int := if b = 0 then none else fit (a.tdiv b)

/-- Remainder with the sign of the dividend; it is defined where the quotient is. -/
def rem? (a b : Int) : Option Int := (quot? a b).map fun _ => a.tmod b

/-- Quotient of the division whose remainder is never negative. -/
def div? (a b : Int) : Option Int := if b = 0 then none else fit (a / b)

/-- The remainder that is never negative; it is defined where the quotient is. -/
def mod? (a b : Int) : Option Int := (div? a b).map fun _ => a % b

/-- The nearest double. -/
def toFloat (n : Int) : Float := Float.ofInt n

end Statute.Whole
