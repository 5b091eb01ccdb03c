import Statute.Decimal.Binary

/-!
# The fewest decimal digits that read back

Every double is the nearest one to a whole interval of reals. Among the decimals in that interval
those with the fewest digits are sought, and of these the nearest to the double; of two equally
near ones the larger is taken. They are written positionally, never with an exponent.
-/

namespace Statute.Decimal

/-- The decimal number `digits * 10 ^ exponent`. -/
structure Scaled where
  digits : Nat
  exponent : Int
  deriving DecidableEq, Repr

/-- Number of decimal digits of a whole number; zero has one. -/
def digitCount (n : Nat) : Nat := (Nat.toDigits 10 n).length

/-- The reals that round to a binary number, as numerators over one denominator. -/
structure Interval where
  low : Nat
  value : Nat
  high : Nat
  denominator : Nat
  /-- The ends round to the number too. -/
  closed : Bool
  deriving Repr

/-- Half-way to either neighbour; the ends belong to the even significand. -/
def Binary.interval (b : Binary) : Interval :=
  let quarter : Nat := twoTo (b.exponent - 2).toNat
  let m := 4 * b.significand
  { low := (m - if b.closerBelow then 1 else 2) * quarter
    value := m * quarter
    high := (m + 2) * quarter
    denominator := twoTo (2 - b.exponent).toNat
    closed := b.significand % 2 == 0 }

/-- The power of ten just above the value: `10 ^ (e - 1) ≤ value < 10 ^ e`. -/
def Interval.magnitude (i : Interval) : Int :=
  let e : Int := (digitCount i.value : Int) - digitCount i.denominator
  if i.value * tenTo (-e).toNat < i.denominator * tenTo e.toNat then e else e + 1

/-- The best decimal whose last digit stands at `10 ^ exponent`, if one lies in the interval: of the
value's two neighbours on that grid the nearer, and the upper one when they are equally near. -/
def Interval.onGrid? (i : Interval) (exponent : Int) : Option Scaled :=
  let scale := tenTo (-exponent).toNat
  let unit := i.denominator * tenTo exponent.toNat
  let inside (c : Nat) : Bool :=
    if i.closed then i.low * scale ≤ c * unit && c * unit ≤ i.high * scale
    else i.low * scale < c * unit && c * unit < i.high * scale
  let below := i.value * scale / unit
  let above := below + 1
  let nearerAbove := above * unit - i.value * scale ≤ i.value * scale - below * unit
  if inside above && (nearerAbove || !inside below) then some ⟨above, exponent⟩
  else if inside below then some ⟨below, exponent⟩
  else none

/-- Seventeen digits tell any two doubles apart. -/
def maxDigits : Nat := 17

/-- The shortest decimal in the interval of a nonzero binary number. -/
def Binary.shortest (b : Binary) : Scaled :=
  let i := b.interval
  let e := i.magnitude
  ((List.range maxDigits).findSome? fun k => i.onGrid? (e - (k + 1 : Nat))).getD ⟨0, 0⟩

/-- Digits with a point `places` from the right, without idle zeros at the end. -/
def pointed (digits : List Char) (places : Nat) : List Char :=
  let padded := List.replicate (places + 1 - digits.length) '0' ++ digits
  let cut := padded.length - places
  let fraction := ((padded.drop cut).reverse.dropWhile (· == '0')).reverse
  padded.take cut ++ if fraction.isEmpty then [] else '.' :: fraction

/-- Positional text of a decimal. -/
def Scaled.positional (d : Scaled) : List Char :=
  let digits := Nat.toDigits 10 d.digits
  if 0 ≤ d.exponent then
    if d.digits == 0 then digits else digits ++ List.replicate d.exponent.toNat '0'
  else pointed digits (-d.exponent).toNat

/-- Positional text of a magnitude: `inf` and `NaN` for what has no digits. -/
def Magnitude.text : Magnitude → List Char
  | .infinite => ['i', 'n', 'f']
  | .notANumber => ['N', 'a', 'N']
  | .finite b => if b.significand == 0 then ['0'] else b.shortest.positional

/-- The text of a double: the fewest digits that read back, positional, no point in whole numbers,
a sign also before a negative zero, none before `NaN`. -/
def floatText (x : Float) : String :=
  match ofBits x.toBits with
  | (_, .notANumber) => String.ofList (Magnitude.text .notANumber)
  | (negative, m) => String.ofList (if negative then '-' :: m.text else m.text)

/-- The text of the distance of a double from zero with at least one place after the point: whole
numbers are written out in full and end in `.0`. -/
def magnitudeText (x : Float) : String :=
  match (ofBits x.toBits).2 with
  | .finite b =>
    match b.whole? with
    | some n => String.ofList (Nat.toDigits 10 n ++ ['.', '0'])
    | none => String.ofList (Magnitude.text (.finite b))
  | m => String.ofList m.text

end Statute.Decimal
