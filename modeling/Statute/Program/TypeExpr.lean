import Statute.Citation
import Statute.Program.Span
import Statute.Text.Quoted

/-!
# Type expressions

Types as they are written in a program: the built-in types, names of declared types with arguments,
type parameters, and the constraint forms around them.
-/

namespace Statute

/-- The built-in types. -/
inductive Prim where
  | int
  | float
  | bool
  | string
  | money
  | percent
  | date
  | duration
  | pass
  deriving DecidableEq, Repr, Inhabited

namespace Prim

/-- The name of a built-in type. -/
def text : Prim → String
  | .int => "int"
  | .float => "float"
  | .bool => "bool"
  | .string => "string"
  | .money => "money"
  | .percent => "percent"
  | .date => "date"
  | .duration => "duration"
  | .pass => "pass"

/-- All built-in types. -/
def all : List Prim :=
  [.int, .float, .bool, .string, .money, .percent, .date, .duration, .pass]

/-- The built-in type of this name. -/
def ofName? (name : String) : Option Prim := all.find? fun p => p.text == name

/-- The types with arithmetic. -/
def isNumeric : Prim → Bool
  | .int | .float | .money | .percent => true
  | _ => false

theorem ofName?_text (p : Prim) : ofName? p.text = some p := by
  cases p <;> decide

end Prim

/-- A type as written. -/
inductive TypeExpr where
  | prim (span : Span) (p : Prim)
  /-- A declared struct, enum or alias. -/
  | named (span : Span) (name : Ident) (args : List TypeExpr)
  /-- A type parameter. -/
  | var (span : Span) (name : Ident)
  /-- A numeric type with inclusive limits. -/
  | refine (span : Span) (base : TypeExpr) (lower upper : Option Int)
  | citation (span : Span) (c : Citation)
  /-- A type that is in force only within a period. -/
  | temporal (span : Span) (inner : TypeExpr) (opens closes : Option String)
  | array (span : Span) (inner : TypeExpr)
  /-- Strictly above zero. -/
  | positive (span : Span) (inner : TypeExpr)
  | nonEmpty (span : Span) (inner : TypeExpr)
  /-- A date strictly between the two given ones. -/
  | validDate (span : Span) (after before : Option String)
  | union (span : Span) (left right : TypeExpr)
  | moneyIn (span : Span) (code : String)
  deriving Inhabited

namespace TypeExpr

/-- Where the expression stands. -/
def span : TypeExpr → Span
  | prim s _ | named s _ _ | var s _ | refine s _ _ _ | citation s _ | temporal s _ _ _
  | array s _ | positive s _ | nonEmpty s _ | validDate s _ _ | union s _ _ | moneyIn s _ => s

/-- An optional limit; a missing one is an underscore. -/
def limitText (n : Option Int) : String := (n.map toString).getD "_"

mutual

/-- The type as it would be written in a program. -/
def text : TypeExpr → String
  | .prim _ p => p.text
  | .named _ n [] => n.name
  | .named _ n (a :: rest) => n.name ++ "<" ++ ", ".intercalate (texts (a :: rest)) ++ ">"
  | .var _ n => n.name
  | .refine _ base lo hi => base.text ++ "[" ++ limitText lo ++ ".." ++ limitText hi ++ "]"
  | .citation _ c =>
    "Citation<" ++ Text.quote c.sectionText ++ ", " ++ Text.quote c.subsection ++ ", " ++
      Text.quote c.act ++ ">"
  | .temporal _ inner opens closes =>
    "Temporal<" ++ inner.text ++ ", " ++ opens.getD "_" ++ ", " ++ closes.getD "_" ++ ">"
  | .array _ inner => "[" ++ inner.text ++ "]"
  | .positive _ inner => "Positive<" ++ inner.text ++ ">"
  | .nonEmpty _ inner => "NonEmpty<" ++ inner.text ++ ">"
  | .validDate _ after before =>
    "ValidDate<" ++ after.getD "_" ++ ", " ++ before.getD "_" ++ ">"
  | .union _ a b => a.text ++ " | " ++ b.text
  | .moneyIn _ code => "money<" ++ code ++ ">"

/-- The texts of several types. -/
def texts : List TypeExpr → List String
  | [] => []
  | t :: ts => t.text :: texts ts

end

end TypeExpr

end Statute
