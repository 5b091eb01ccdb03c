import Statute.Decimal.Numeral
import Statute.Text.Blank

/-!
# Calendar dates

Dates of the proleptic Gregorian calendar, in the years from `firstYear` to `lastYear`. A `Date`
always names a real day. Dates are compared year first, then month, then day, and counted in days,
where the first of January of year one is day one.
-/

namespace Statute

/-- Every fourth year, but of the hundreds only every fourth. -/
def isLeapYear (year : Int) : Bool :=
  year % 4 == 0 && (year % 100 != 0 || year % 400 == 0)

/-- Number of days of a month, January being the first; no other month has days. -/
def daysInMonth (year : Int) (month : Nat) : Nat :=
  match month with
  | 1 | 3 | 5 | 7 | 8 | 10 | 12 => 31
  | 4 | 6 | 9 | 11 => 30
  | 2 => if isLeapYear year then 29 else 28
  | _ => 0

/-- The first year of the calendar. -/
def firstYear : Int := -262143

/-- The last year of the calendar. -/
def lastYear : Int := 262142

/-- The three numbers name a day of the calendar. -/
def isDay (year : Int) (month day : Nat) : Bool :=
  firstYear ≤ year && year ≤ lastYear && 1 ≤ day && day ≤ daysInMonth year month

/-- A day of the calendar. -/
structure Date where
  year : Int
  month : Nat
  day : Nat
  valid : isDay year month day = true
  deriving DecidableEq

namespace Date

/-- The date with these numbers, if there is such a day. -/
def ofNumbers? (year : Int) (month day : Nat) : Option Date :=
  if h : isDay year month day = true then some ⟨year, month, day, h⟩ else none

/-- `a` is an earlier day than `b`. -/
def lt (a b : Date) : Bool :=
  a.year < b.year || (a.year == b.year &&
    (a.month < b.month || (a.month == b.month && a.day < b.day)))

/-- `a` is the same day as `b` or an earlier one. -/
def le (a b : Date) : Bool := !lt b a

/-- Days of the year before a month begins. -/
def daysBeforeMonth (year : Int) (month : Nat) : Nat :=
  ((List.range (month - 1)).map fun m => daysInMonth year (m + 1)).foldr (· + ·) 0

/-- Days before a year begins, counted from the first of January of year one. -/
def daysBeforeYear (year : Int) : Int :=
  let y := year - 1
  365 * y + y / 4 - y / 100 + y / 400

/-- The number of the day; the first of January of year one is day one. -/
def dayNumber (d : Date) : Int :=
  daysBeforeYear d.year + daysBeforeMonth d.year d.month + d.day

/-- A number with zeros in front up to a width. -/
def padded (width n : Nat) : String :=
  let digits := Nat.toDigits 10 n
  String.ofList (List.replicate (width - digits.length) '0' ++ digits)

/-- A year has at least four digits, and a sign outside the years `0` to `9999`. -/
def yearText (year : Int) : String :=
  if year < 0 then "-" ++ padded 4 year.natAbs
  else if year ≤ 9999 then padded 4 year.natAbs
  else "+" ++ padded 4 year.natAbs

/-- Year, month and day, divided by hyphens. -/
def text (d : Date) : String :=
  yearText d.year ++ "-" ++ padded 2 d.month ++ "-" ++ padded 2 d.day

/-- The parts of a written date. -/
inductive Part where
  | year
  | month
  | day
  | mark (c : Char)
  deriving DecidableEq, Repr

/-- The ways to write a date, in the order in which they are tried. -/
def layouts : List (List Part) :=
  [[.day, .mark '-', .month, .mark '-', .year],
   [.year, .mark '-', .month, .mark '-', .day],
   [.month, .mark '/', .day, .mark '/', .year]]

/-- What has been read of a written date. -/
structure Numbers where
  year : Int := 0
  month : Nat := 0
  day : Nat := 0

/-- One to `width` digits, and what follows them. -/
def readDigits (width : Nat) (cs : List Char) : Option (Nat × List Char) :=
  let digits := (cs.take width).takeWhile Decimal.isDigit
  if digits.isEmpty then none else some (Decimal.digitsValue digits, cs.drop digits.length)

/-- Reads one part. Blanks before a number are skipped. Day and month have at most two digits; a
year has at most four, or any number of them after a sign. -/
def readPart (cs : List Char) (found : Numbers) : Part → Option (List Char × Numbers)
  | .mark c =>
    match cs with
    | d :: rest => if d == c then some (rest, found) else none
    | [] => none
  | .day => (readDigits 2 (cs.dropWhile Text.isBlank)).map fun (n, rest) =>
    (rest, { found with day := n })
  | .month => (readDigits 2 (cs.dropWhile Text.isBlank)).map fun (n, rest) =>
    (rest, { found with month := n })
  | .year =>
    match cs.dropWhile Text.isBlank with
    | '-' :: r => (readDigits r.length r).map fun (n, rest) =>
      (rest, { found with year := -(n : Int) })
    | '+' :: r => (readDigits r.length r).map fun (n, rest) => (rest, { found with year := n })
    | r => (readDigits 4 r).map fun (n, rest) => (rest, { found with year := n })

/-- Reads a date written in one layout; nothing may follow it. -/
def readAs : List Part → List Char → Numbers → Option Date
  | [], [], found => ofNumbers? found.year found.month found.day
  | [], _ :: _, _ => none
  | part :: parts, cs, found => do
    let (rest, found) ← readPart cs found part
    readAs parts rest found

/-- Reads a date in the first layout that fits the trimmed text. -/
def parse? (s : String) : Option Date :=
  let cs := Text.trimmed s.toList
  layouts.findSome? fun layout => readAs layout cs {}

end Date

end Statute
