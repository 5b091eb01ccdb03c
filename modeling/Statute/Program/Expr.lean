import Statute.Program.Literal
import Statute.Program.TypeExpr

/-!
# Expressions

Expressions of principles, function bodies and field constraints, with the patterns of `match`.
-/

namespace Statute

/-- Operators with one operand. -/
inductive UnaryOp where
  | neg
  | not
  deriving DecidableEq, Repr, Inhabited

/-- Operators with two operands. -/
inductive BinaryOp where
  | add
  | sub
  | mul
  | div
  | mod
  | eq
  | ne
  | lt
  | gt
  | le
  | ge
  | and
  | or
  | implies
  deriving DecidableEq, Repr, Inhabited

namespace BinaryOp

/-- The sign of an operator. -/
def symbol : BinaryOp → String
  | .add => "+"
  | .sub => "-"
  | .mul => "*"
  | .div => "/"
  | .mod => "%"
  | .eq => "=="
  | .ne => "!="
  | .lt => "<"
  | .gt => ">"
  | .le => "<="
  | .ge => ">="
  | .and => "&&"
  | .or => "||"
  | .implies => "=>"

def isArithmetic : BinaryOp → Bool
  | .add | .sub | .mul | .div | .mod => true
  | _ => false

def isComparison : BinaryOp → Bool
  | .eq | .ne | .lt | .gt | .le | .ge => true
  | _ => false

def isLogical : BinaryOp → Bool
  | .and | .or | .implies => true
  | _ => false

/-- Whether a comparison holds of two things in the given order. No other operator holds. -/
def holdsOf : BinaryOp → Ordering → Bool
  | .eq, o => o == .eq
  | .ne, o => o != .eq
  | .lt, o => o == .lt
  | .gt, o => o == .gt
  | .le, o => o != .gt
  | .ge, o => o != .lt
  | _, _ => false

end BinaryOp

/-- The two quantifiers. -/
inductive Quantifier where
  | all
  | some
  deriving DecidableEq, Repr, Inhabited

/-- The word for a quantifier in a program. -/
def Quantifier.keyword : Quantifier → String
  | .all => "forall"
  | .some => "exists"

/-- What an arm of a `match` asks of the value. -/
inductive Pattern where
  | wildcard (span : Span)
  | literal (span : Span) (value : Literal)
  | variant (span : Span) (type variant : Ident)
  /-- Matches anything and names it. -/
  | binding (name : Ident)
  /-- Matches what passes a legal test. -/
  | satisfies (span : Span) (test : Ident)
  deriving Inhabited

namespace Pattern

/-- Where the pattern stands. -/
def span : Pattern → Span
  | wildcard s | literal s _ | variant s _ _ | satisfies s _ => s
  | binding n => n.span

def isWildcard : Pattern → Bool
  | wildcard _ => true
  | _ => false

end Pattern

/-- An arm of a `match`: a pattern, an optional guard of type `γ`, and a body of type `β`. -/
structure Arm (γ β : Type) where
  span : Span
  pattern : Pattern
  guard : Option γ
  body : β

/-- An expression. -/
inductive Expr where
  | literal (span : Span) (value : Literal)
  | name (span : Span) (id : Ident)
  /-- A variant of an enum. -/
  | variant (span : Span) (type variant : Ident)
  | unary (span : Span) (op : UnaryOp) (operand : Expr)
  | binary (span : Span) (op : BinaryOp) (left right : Expr)
  /-- A field of a struct value. -/
  | member (span : Span) (base : Expr) (field : Ident)
  | call (span : Span) (callee : Ident) (args : List Expr)
  /-- A struct value, field by field. -/
  | record (span : Span) (type : Ident) (fields : List (Ident × Expr))
  /-- The value of the first arm that applies; the `match` itself stands at `place`. -/
  | select (span place : Span) (scrutinee : Expr) (arms : List (Arm Expr Expr))
  /-- Whether a value passes a legal test. -/
  | satisfies (span : Span) (subject : Expr) (test : Ident)
  | quantified (span : Span) (quantifier : Quantifier) (var : Ident) (type : TypeExpr) (body : Expr)

instance : Inhabited Expr := ⟨.literal {} .pass⟩

/-- A name by itself as an expression. -/
instance : Coe Ident Expr := ⟨.name {}⟩

namespace Expr

/-- Where the expression stands. -/
def span : Expr → Span
  | literal s _ | name s _ | variant s _ _ | unary s _ _ | binary s _ _ _ | member s _ _
  | call s _ _ | record s _ _ | select s _ _ _ | satisfies s _ _ | quantified s _ _ _ _ => s

/-- The same expression at another place. -/
def setSpan (e : Expr) (s : Span) : Expr :=
  match e with
  | literal _ v => literal s v
  | name _ id => name s id
  | variant _ t v => variant s t v
  | unary _ op e => unary s op e
  | binary _ op l r => binary s op l r
  | member _ b f => member s b f
  | call _ f args => call s f args
  | record _ t fs => record s t fs
  | select _ p e arms => select s p e arms
  | satisfies _ e t => satisfies s e t
  | quantified _ q v t b => quantified s q v t b

/-- `count` nested universal quantifiers over `int`, from the outside `x0`, `x1` and so on, around
the statement that the innermost variable is not negative; without quantifiers, the literal
`true`. -/
def nestedForalls (count : Nat) : Expr :=
  let core : Expr :=
    if count == 0 then .literal {} (.bool true)
    else .binary {} .ge (.name {} ⟨s!"x{count - 1}", {}⟩) (.literal {} (.int 0))
  (List.range count).foldr
    (fun i body => .quantified {} .all ⟨s!"x{i}", {}⟩ (.prim {} .int) body) core

end Expr

mutual

/-- The names that an expression reads from outside, in the order in which they occur. Fields and
called functions do not count. -/
def Expr.freeNames : Expr → List Ident
  | .literal _ _ => []
  | .variant _ _ _ => []
  | .name _ id => [id]
  | .unary _ _ e => e.freeNames
  | .binary _ _ l r => l.freeNames ++ r.freeNames
  | .member _ b _ => b.freeNames
  | .call _ _ args => freeNamesOfArgs args
  | .record _ _ fields => freeNamesOfFields fields
  | .select _ _ e arms => e.freeNames ++ freeNamesOfArms arms
  | .satisfies _ e _ => e.freeNames
  | .quantified _ _ v _ b => b.freeNames.filter fun id => id.name != v.name

/-- The names read by arguments. -/
def freeNamesOfArgs : List Expr → List Ident
  | [] => []
  | e :: es => e.freeNames ++ freeNamesOfArgs es

/-- The names read by the values of fields. -/
def freeNamesOfFields : List (Ident × Expr) → List Ident
  | [] => []
  | (_, e) :: fs => e.freeNames ++ freeNamesOfFields fs

/-- The names read by guards and bodies of arms. What a pattern binds counts as read. -/
def freeNamesOfArms : List (Arm Expr Expr) → List Ident
  | [] => []
  | ⟨_, _, none, b⟩ :: arms => b.freeNames ++ freeNamesOfArms arms
  | ⟨_, _, some g, b⟩ :: arms => g.freeNames ++ b.freeNames ++ freeNamesOfArms arms

end

end Statute
