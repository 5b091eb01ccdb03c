import Statute.Decimal.Binary
import Statute.Decimal.Numeral

/-!
# The double nearest to a decimal

A decimal numeral is an exact fraction. The double nearest to it is found in whole-number
arithmetic; of two equally near ones the one with the even significand is taken.
-/

namespace Statute.Decimal

/-- Nearest whole number to `n / d`, ties to even. -/
def roundQuotient (n d : Nat) : Nat :=
  let q := n / d
  let r := 2 * (n % d)
  if r < d || (r == d && q % 2 == 0) then q else q + 1

/-- Bits of positive infinity. -/
def infinityBits : Nat := 2047 * twoTo fractionBits

/-- Bits of the double nearest to `n / d`, which is not negative. -/
def nearestBits (n d : Nat) : Nat :=
  if n == 0 then 0
  else
    let guess : Int := (n.log2 : Int) - d.log2 - fractionBits
    let scaled (e : Int) : Nat × Nat := (n * twoTo (-e).toNat, d * twoTo e.toNat)
    let tight := let (a, b) := scaled guess; if a < b * twoTo fractionBits then guess - 1 else guess
    let e := if tight < leastExponent then leastExponent else tight
    let (a, b) := scaled e
    min infinityBits ((e - leastExponent).toNat * twoTo fractionBits + roundQuotient a b)

/-- The double with the given sign nearest to `n / d`. -/
def nearest (negative : Bool) (n d : Nat) : Float :=
  Float.ofBits (UInt64.ofNat (nearestBits n d + if negative then twoTo 63 else 0))

/-- Beyond this many places from the point every decimal is zero or infinite as a double, whatever
its digits are. -/
def farPlaces : Nat := 400

/-- The double nearest to `digits * 10 ^ exponent`. -/
def nearestDecimal (negative : Bool) (digits : List Char) (exponent : Int) : Float :=
  let significant := digits.dropWhile (· == '0')
  let top := exponent + significant.length
  if significant.isEmpty || top < -(farPlaces : Int) then nearest negative 0 1
  else if top > farPlaces then
    Float.ofBits (UInt64.ofNat (infinityBits + if negative then twoTo 63 else 0))
  else nearest negative (digitsValue significant * tenTo exponent.toNat) (tenTo (-exponent).toNat)

/-- A letter in lower case; letters beyond ASCII stay as they are. -/
def lower (c : Char) : Char :=
  if 'A' ≤ c && c ≤ 'Z' then Char.ofNat (c.toNat + 32) else c

/-- The exponent that may follow the digits: a mark, an optional sign, and digits. -/
def exponent? (cs : List Char) : Option Int :=
  match cs with
  | [] => some 0
  | c :: rest =>
    if lower c == 'e' then
      match rest with
      | '-' :: digits => (natural? digits).map fun n => -(n : Int)
      | '+' :: digits => (natural? digits).map fun n => (n : Int)
      | digits => (natural? digits).map fun n => (n : Int)
    else none

/-- An unsigned numeral: digits with an optional point among, before or after them, and an optional
exponent; or a name of infinity or of no number, in any case. -/
def unsigned? (negative : Bool) (cs : List Char) : Option Float :=
  let name := cs.map lower
  if name == "inf".toList || name == "infinity".toList then
    some (Float.ofBits (UInt64.ofNat (infinityBits + if negative then twoTo 63 else 0)))
  else if name == "nan".toList then some (Float.ofBits (UInt64.ofNat (infinityBits + twoTo 51)))
  else
    let whole := cs.takeWhile isDigit
    let rest := cs.dropWhile isDigit
    let (places, tail) := match rest with
      | '.' :: r => (r.takeWhile isDigit, r.dropWhile isDigit)
      | r => ([], r)
    if whole.isEmpty && places.isEmpty then none
    else (exponent? tail).map fun e =>
      nearestDecimal negative (whole ++ places) (e - places.length)

/-- Reads a decimal number as the nearest double. -/
def float? (cs : List Char) : Option Float :=
  match cs with
  | '-' :: rest => unsigned? true rest
  | '+' :: rest => unsigned? false rest
  | _ => unsigned? false cs

end Statute.Decimal
