import Statute.Whole

/-!
# Numerals

Reading decimal numerals: runs of ASCII digits with an optional sign in front. A numeral without
digits is none, and one outside the range asked for is none either.
-/

namespace Statute.Decimal

/-- An ASCII digit. -/
def isDigit (c : Char) : Bool := '0' ≤ c && c ≤ '9'

/-- The value of a run of digits, most significant first. -/
def digitsValue (cs : List Char) : Nat :=
  cs.foldl (fun n c => 10 * n + (c.toNat - '0'.toNat)) 0

/-- A run of one or more digits and nothing else. -/
def natural? (cs : List Char) : Option Nat :=
  if !cs.isEmpty && cs.all isDigit then some (digitsValue cs) else none

/-- A natural number up to `limit`, with an optional plus sign. -/
def natUpTo? (limit : Nat) (cs : List Char) : Option Nat :=
  let n? := match cs with
    | '+' :: rest => natural? rest
    | _ => natural? cs
  n?.filter (· ≤ limit)

/-- A whole number with an optional sign. -/
def whole? (cs : List Char) : Option Int :=
  match cs with
  | '-' :: rest => (natural? rest).bind fun n => Whole.fit (-(n : Int))
  | '+' :: rest => (natural? rest).bind fun n => Whole.fit n
  | _ => (natural? cs).bind fun n => Whole.fit n

/-- Largest number of 64 bits. -/
def maxWord : Nat := 18446744073709551615

end Statute.Decimal
