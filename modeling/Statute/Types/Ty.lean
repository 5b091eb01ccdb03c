import Statute.Calendar
import Statute.Program.TypeExpr

/-!
# Resolved types

A resolved type no longer mentions aliases: names stand for declared structs and enums, and dates
have been read. `Ty.core` strips the constraints from a type; what is left decides how values of
the type may be used.
-/

namespace Statute

/-- A resolved type. -/
inductive Ty where
  /-- Stands for a type that could not be resolved, so that no further faults follow from it. -/
  | unknown
  | prim (p : Prim)
  | struct (name : String) (args : List Ty)
  | enum (name : String)
  | var (name : String)
  | refine (base : Ty) (lower upper : Option Int)
  | citation (c : Citation)
  | temporal (inner : Ty) (opens closes : Option Date)
  | array (inner : Ty)
  | positive (inner : Ty)
  | nonEmpty (inner : Ty)
  | validDate (after before : Option Date)
  | union (left right : Ty)
  | moneyIn (code : String)
  deriving Inhabited

/-- Optional inclusive limits, the lower one first. -/
abbrev Limits := Option Int × Option Int

namespace Ty

abbrev bool : Ty := .prim .bool

abbrev int : Ty := .prim .int

/-- An optional date; a missing one is an underscore. -/
def dateText (d : Option Date) : String := (d.map Date.text).getD "_"

mutual

/-- The type as it is shown in messages. -/
def text : Ty → String
  | .unknown => "<unknown>"
  | .prim p => p.text
  | .struct n [] => n
  | .struct n (a :: rest) => n ++ "<" ++ ", ".intercalate (texts (a :: rest)) ++ ">"
  | .enum n => n
  | .var n => n
  | .refine base lo hi =>
    base.text ++ "[" ++ TypeExpr.limitText lo ++ ".." ++ TypeExpr.limitText hi ++ "]"
  | .citation c => "Citation<" ++ c.sectionText ++ ", " ++ c.subsection ++ ", " ++ c.act ++ ">"
  | .temporal inner opens closes =>
    "Temporal<" ++ inner.text ++ ", " ++ dateText opens ++ ", " ++ dateText closes ++ ">"
  | .array inner => "[" ++ inner.text ++ "]"
  | .positive inner => "Positive<" ++ inner.text ++ ">"
  | .nonEmpty inner => "NonEmpty<" ++ inner.text ++ ">"
  | .validDate after before => "ValidDate<" ++ dateText after ++ ", " ++ dateText before ++ ">"
  | .union a b => a.text ++ " | " ++ b.text
  | .moneyIn code => "money<" ++ code ++ ">"

/-- The texts of several types. -/
def texts : List Ty → List String
  | [] => []
  | t :: ts => t.text :: texts ts

end

/-- The type without the constraints around it. Dates in a window are dates and money of a currency
is money; arrays and unions are not looked into. -/
def core : Ty → Ty
  | .refine base _ _ => base.core
  | .temporal inner _ _ => inner.core
  | .positive inner => inner.core
  | .nonEmpty inner => inner.core
  | .validDate _ _ => .prim .date
  | .moneyIn _ => .prim .money
  | .unknown => .unknown
  | .prim p => .prim p
  | .struct n args => .struct n args
  | .enum n => .enum n
  | .var n => .var n
  | .citation c => .citation c
  | .array t => .array t
  | .union a b => .union a b

def isUnknown : Ty → Bool
  | .unknown => true
  | _ => false

/-- The type is exactly `int`. -/
def isInt : Ty → Bool
  | .prim .int => true
  | _ => false

/-- Usable as a condition. -/
def isBool (t : Ty) : Bool :=
  match t.core with
  | .prim .bool => true
  | .unknown => true
  | _ => false

/-- Usable in arithmetic; a union is when both sides are. -/
def isNumeric : Ty → Bool
  | .refine base _ _ => base.isNumeric
  | .temporal inner _ _ => inner.isNumeric
  | .positive inner => inner.isNumeric
  | .nonEmpty inner => inner.isNumeric
  | .moneyIn _ => true
  | .prim p => p.isNumeric
  | .union a b => a.isNumeric && b.isNumeric
  | .unknown => true
  | _ => false

/-- Usable with `<` and the like. -/
def isOrdered (t : Ty) : Bool :=
  t.isNumeric ||
    match t.core with
    | .prim .date => true
    | .prim .duration => true
    | _ => false

/-- The inclusive limits that a type puts on whole numbers, if it puts any. The outermost
refinement decides; positive integers are at least one. -/
def limits? : Ty → Option Limits
  | .refine _ lo hi => some (lo, hi)
  | .temporal inner _ _ => inner.limits?
  | .nonEmpty inner => inner.limits?
  | .positive inner =>
    if inner.core.isInt then
      let (lo, hi) := inner.limits?.getD (none, none)
      some (some ((lo.map (max · 1)).getD 1), hi)
    else inner.limits?
  | _ => none

mutual

/-- A type parameter occurs in the type. -/
def hasVar : Ty → Bool
  | .var _ => true
  | .struct _ args => anyHasVar args
  | .refine base _ _ => base.hasVar
  | .temporal inner _ _ => inner.hasVar
  | .array inner => inner.hasVar
  | .positive inner => inner.hasVar
  | .nonEmpty inner => inner.hasVar
  | .union a b => a.hasVar || b.hasVar
  | _ => false

/-- A type parameter occurs in one of the types. -/
def anyHasVar : List Ty → Bool
  | [] => false
  | t :: ts => t.hasVar || anyHasVar ts

end

end Ty

end Statute
