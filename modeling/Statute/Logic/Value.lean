import Statute.Logic.Term
import Statute.NameMap

/-!
# Values and assignments

The values that constants of the logic can take, and counterexamples, which give a value to each
constant of a refuted statement.
-/

namespace Statute.Logic

/-- A value. -/
inductive Value where
  | int (n : Int)
  | real (x : Float)
  | bool (b : Bool)
  | str (s : String)
  | variant (sort variant : String)
  /-- An element of a free sort, by its number. -/
  | element (sort : String) (index : Nat)
  /-- A text that could not be read as a value of its sort. -/
  | raw (text : String)
  deriving BEq, Inhabited

namespace Value

/-- The value of a constant that nothing is said about. `variants` are those of an enum. -/
def default (variants : Option (List String)) : SmtSort → Value
  | .int => .int 0
  | .real => .real 0.0
  | .bool => .bool false
  | .string => .str ""
  | .enum n =>
    match variants with
    | some (v :: _) => .variant n v
    | _ => .raw n
  | .free n => .element n 0

/-- The value as it is shown. -/
def text : Value → String
  | .int n => toString n
  | .real x => Decimal.floatText x
  | .bool b => toString b
  | .str s => Text.quote s
  | .variant s v => s ++ "::" ++ v
  | .element s i => s ++ "!val!" ++ toString i
  | .raw t => t

end Value

/-- A value for each constant, by symbol. -/
abbrev Assignment := NameMap Value

namespace Assignment

/-- The texts of the values. -/
def flat (a : Assignment) : NameMap String := a.map Value.text

/-- The assignment as it is shown, a line for each constant in order of the symbols. -/
def text (a : Assignment) : String :=
  "Counterexample found:\n" ++
    String.join (a.entries.map fun (n, v) => "  " ++ n ++ " = " ++ v.text ++ "\n")

end Assignment

end Statute.Logic
