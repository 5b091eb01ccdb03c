/-!
# Finite binary floating-point numbers, exactly

A double is read off its 64 bits: a sign, a whole significand and a power of two. Everything that
prints or reads decimal numbers works on this exact form, so no rounding happens on the way.
-/

namespace Statute.Decimal

/-- The number `significand * 2 ^ exponent`, together with what its neighbours look like. -/
structure Binary where
  significand : Nat
  exponent : Int
  /-- The neighbour below is only half as far away as the one above. -/
  closerBelow : Bool
  deriving DecidableEq, Repr

/-- The kinds of double, without the sign. -/
inductive Magnitude where
  | finite (b : Binary)
  | infinite
  | notANumber
  deriving DecidableEq, Repr

/-- A power of two. -/
def twoTo (k : Nat) : Nat := Nat.pow 2 k

/-- A power of ten. -/
def tenTo (k : Nat) : Nat := Nat.pow 10 k

/-- Number of bits of the stored fraction. -/
def fractionBits : Nat := 52

/-- Exponent of the least significant bit of subnormal numbers. -/
def leastExponent : Int := -1074

/-- Splits 64 bits into the sign, `true` for negative, and the magnitude. -/
def ofBits (bits : UInt64) : Bool × Magnitude :=
  let n := bits.toNat
  let fraction := n % twoTo fractionBits
  let biased := n / twoTo fractionBits % 2048
  let negative := n / twoTo 63 == 1
  if biased == 2047 then
    (negative, if fraction == 0 then .infinite else .notANumber)
  else if biased == 0 then
    (negative, .finite ⟨fraction, leastExponent, false⟩)
  else
    (negative, .finite
      ⟨fraction + twoTo fractionBits, leastExponent + (biased - 1), fraction == 0 && biased != 1⟩)

/-- The whole number that a finite magnitude stands for, if it is one. -/
def Binary.whole? (b : Binary) : Option Nat :=
  if 0 ≤ b.exponent then some (b.significand * twoTo b.exponent.toNat)
  else
    let d := twoTo (-b.exponent).toNat
    if b.significand % d == 0 then some (b.significand / d) else none

end Statute.Decimal
