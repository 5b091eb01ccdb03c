/-!
# Currencies

A currency is named by a code of three ASCII capital letters.
-/

namespace Statute

/-- An ASCII capital letter. -/
def isCapital (c : Char) : Bool := 'A' ≤ c && c ≤ 'Z'

/-- Three capital letters. -/
def isCurrencyCode (code : String) : Bool :=
  code.toList.length == 3 && code.toList.all isCapital

end Statute
