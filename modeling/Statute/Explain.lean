import Statute.Program.Item

/-!
# Principles in plain English

A principle is explained line by line: each quantifier in front has a line of its own, indented one
step deeper than the one before it, and what it is about follows on the last line.
-/

namespace Statute

namespace Explain

/-- The name of a built-in type in English. -/
def primName : Prim → String
  | .int => "integer"
  | .bool => "boolean"
  | .string => "string"
  | .float => "floating-point number"
  | .money => "money"
  | .percent => "percentage"
  | .date => "date"
  | .duration => "duration"
  | .pass => "pass"

/-- A type in English; types without an English name are shown as written. -/
def typeName : TypeExpr → String
  | .prim _ p => primName p
  | .refine _ base (some lo) (some hi) => typeName base ++ s!" between {lo} and {hi}"
  | .refine _ base (some lo) none => typeName base ++ s!" of at least {lo}"
  | .refine _ base none (some hi) => typeName base ++ s!" of at most {hi}"
  | .refine _ base none none => typeName base
  | .positive _ inner => "positive " ++ typeName inner
  | .nonEmpty _ inner => "non-empty " ++ typeName inner
  | .moneyIn _ code => "money in " ++ code
  | .union _ a b => typeName a ++ " or " ++ typeName b
  | t => t.text

/-- An operator in English; those without a word are shown as written. -/
def opName : BinaryOp → String
  | .and => "and"
  | .or => "or"
  | .implies => "implies"
  | op => op.symbol

/-- A pattern in English. -/
def patternText : Pattern → String
  | .wildcard _ => "otherwise"
  | .literal _ v => v.text
  | .variant _ t v => t.name ++ "::" ++ v.name
  | .binding n => n.name
  | .satisfies _ test => "satisfying " ++ test.name

/-- An operand: an operation inside another one stands in parentheses. -/
def operand (e : Expr) (text : String) : String :=
  match e with
  | .binary _ _ _ _ => "(" ++ text ++ ")"
  | _ => text

/-- The beginning of a quantified statement, with or without a capital letter. -/
def quantifierHead (q : Quantifier) (capital : Bool) (var : Ident) (type : TypeExpr) : String :=
  match q with
  | .all =>
    (if capital then "For all " else "for all ") ++ var.name ++ " of type " ++ typeName type ++ ","
  | .some =>
    (if capital then "There exists a " else "there exists a ") ++ var.name ++ " of type " ++
      typeName type ++ " such that"

mutual

/-- An expression on one line. -/
def inlineText : Expr → String
  | .literal _ v => v.text
  | .name _ id => id.name
  | .variant _ t v => t.name ++ "::" ++ v.name
  | .unary _ .not e => "not " ++ operand e (inlineText e)
  | .unary _ .neg e => "-" ++ operand e (inlineText e)
  | .binary _ op l r =>
    operand l (inlineText l) ++ " " ++ opName op ++ " " ++ operand r (inlineText r)
  | .member _ base field => inlineText base ++ "." ++ field.name
  | .call _ callee args => callee.name ++ "(" ++ ", ".intercalate (argTexts args) ++ ")"
  | .record _ type fields =>
    type.name ++ " \x7b " ++ ", ".intercalate (fieldTexts fields) ++ " \x7d"
  | .select _ _ e arms =>
    "depending on " ++ inlineText e ++ ": " ++ "; ".intercalate (armTexts arms)
  | .satisfies _ e test => inlineText e ++ " satisfies " ++ test.name
  | .quantified _ q var type body => quantifierHead q false var type ++ " " ++ inlineText body

/-- Arguments on one line. -/
def argTexts : List Expr → List String
  | [] => []
  | e :: es => inlineText e :: argTexts es

/-- Fields of a struct literal with their values. -/
def fieldTexts : List (Ident × Expr) → List String
  | [] => []
  | (f, e) :: fs => (f.name ++ ": " ++ inlineText e) :: fieldTexts fs

/-- Arms with their values; guards are not shown. -/
def armTexts : List (Arm Expr Expr) → List String
  | [] => []
  | ⟨_, p, _, body⟩ :: arms => (patternText p ++ " gives " ++ inlineText body) :: armTexts arms

end

/-- The blanks in front of a line. -/
def indent (depth : Nat) : String := String.join (List.replicate depth "  ")

/-- The lines of a statement below `depth` quantifiers. -/
def lines (depth : Nat) : Expr → String
  | .quantified _ q var type body =>
    indent (depth + 1) ++ quantifierHead q true var type ++ "\n" ++ lines (depth + 1) body
  | e => indent (depth + 1) ++ inlineText e

end Explain

/-- A principle in plain English. -/
def Principle.explain (p : Principle) : String :=
  "Principle '" ++ p.name.name ++ "' states that:\n\n" ++ Explain.lines 0 p.body

end Statute
