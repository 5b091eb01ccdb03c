import Statute.Decimal.Numeral
import Statute.Text.Blank

/-!
# Citations of statutes

A citation names a section, a subsection and an act. It is well formed when the section starts with
a number from 1 to `maxSection`, the subsection is a number, a word, or a number followed by
letters, and the act is not blank. `Citation.problem?` says what is wrong with any other.
-/

namespace Statute

/-- A reference to a provision, as written. -/
structure Citation where
  sectionText : String
  subsection : String
  act : String
  deriving DecidableEq, Repr

namespace Citation

/-- The highest section number. -/
def maxSection : Nat := 10000

/-- The largest section number that can be read at all. -/
def maxReadable : Nat := 4294967295

/-- What can be wrong with a citation. -/
inductive Problem where
  | blankSection
  | blankSubsection
  | blankAct
  | outside (number : Nat)
  | unnumbered (text : String)
  | subsectionShape (text : String)
  deriving DecidableEq, Repr

/-- The wording of a problem. -/
def Problem.message : Problem → String
  | .blankSection => "citation section must not be empty"
  | .blankSubsection => "citation subsection must not be empty"
  | .blankAct => "citation act must not be empty"
  | .outside n => s!"citation section {n} is outside 1..={maxSection}"
  | .unnumbered s => s!"citation section `{s}` must start with a section number"
  | .subsectionShape s =>
    s!"citation subsection `{s}` must be numeric, alphabetic, or digits followed by letters"

/-- An ASCII letter. -/
def isLetter (c : Char) : Bool := ('a' ≤ c && c ≤ 'z') || ('A' ≤ c && c ≤ 'Z')

/-- Nothing but blanks. -/
def isBlankText (s : String) : Bool := (Text.trimmed s.toList).isEmpty

/-- The number that a section starts with. -/
def sectionNumber? (s : String) : Option Nat :=
  Decimal.natUpTo? maxReadable (s.toList.takeWhile Decimal.isDigit)

/-- Digits only, letters only, or some digits and then some letters. -/
def isSubsection (s : String) : Bool :=
  let cs := s.toList
  let rest := cs.dropWhile Decimal.isDigit
  cs.all Decimal.isDigit || cs.all isLetter ||
    (!(cs.takeWhile Decimal.isDigit).isEmpty && !rest.isEmpty && rest.all isLetter)

/-- The first problem of a citation; a well-formed citation has none. -/
def problem? (c : Citation) : Option Problem :=
  if isBlankText c.sectionText then some .blankSection
  else if isBlankText c.subsection then some .blankSubsection
  else if isBlankText c.act then some .blankAct
  else
    match sectionNumber? c.sectionText with
    | none => some (.unnumbered c.sectionText)
    | some n =>
      if 1 ≤ n && n ≤ maxSection then
        if isSubsection c.subsection then none else some (.subsectionShape c.subsection)
      else some (.outside n)

end Citation

end Statute
