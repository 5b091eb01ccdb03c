import Statute.Decimal.Shortest

/-!
# Constants

The values that constant folding produces.
-/

namespace Statute

/-- A folded value. -/
inductive Constant where
  | int (n : Int)
  | float (x : Float)
  | bool (b : Bool)
  | string (s : String)
  deriving BEq, Inhabited

namespace Constant

/-- The whole number, if it is one. -/
def int? : Constant → Option Int
  | .int n => some n
  | _ => none

/-- The number as a double, if it is a number. -/
def float? : Constant → Option Float
  | .int n => some (Float.ofInt n)
  | .float x => some x
  | _ => none

/-- A number as it is shown; other constants are shown bare. -/
def text : Constant → String
  | .int n => toString n
  | .float x => Decimal.floatText x
  | .bool b => toString b
  | .string s => s

end Constant

end Statute
