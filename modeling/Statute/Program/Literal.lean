import Statute.Decimal.Shortest
import Statute.Text.Quoted

/-!
# Literals

The constants that a program can write down. Dates and durations are kept as they were written.
-/

namespace Statute

/-- A constant in a program. -/
inductive Literal where
  | int (n : Int)
  | float (x : Float)
  | bool (b : Bool)
  | string (s : String)
  | money (x : Float)
  | percent (x : Float)
  | date (text : String)
  | duration (text : String)
  | pass
  deriving BEq, Inhabited

/-- The literal as it is shown. -/
def Literal.text : Literal → String
  | .int n => toString n
  | .float x => Decimal.floatText x
  | .bool b => toString b
  | .string s => Text.quote s
  | .money x => "$" ++ Decimal.floatText x
  | .percent x => Decimal.floatText x ++ "%"
  | .date t => t
  | .duration t => t
  | .pass => "pass"

end Statute
