import Statute.Constant
import Statute.Program.Expr
import Statute.Whole

/-!
# Constant folding

`fold env e` is the value of `e` if it is constant, given constants for some of the names. Whole
numbers are folded exactly or not at all: overflow and division by zero leave an expression without
a value. A truth value on the left that settles `&&`, `||` or `=>` makes the right side irrelevant.
-/

namespace Statute

namespace Constant

/-- The order of two doubles, if they have one. -/
def compareFloats (a b : Float) : Option Ordering :=
  if a < b then some .lt
  else if a > b then some .gt
  else if a == b then some .eq
  else none

/-- An operator on two numbers, at least one of which is not whole. -/
def combineFloats (op : BinaryOp) (a b : Float) : Option Constant :=
  if op.isComparison then (compareFloats a b).map fun o => .bool (op.holdsOf o)
  else
    match op with
    | .add => some (.float (a + b))
    | .sub => some (.float (a - b))
    | .mul => some (.float (a * b))
    | .div => if b != 0.0 then some (.float (a / b)) else none
    | _ => none

/-- An operator on two whole numbers. -/
def combineInts (op : BinaryOp) (a b : Int) : Option Constant :=
  match op with
  | .add => (Whole.add? a b).map .int
  | .sub => (Whole.sub? a b).map .int
  | .mul => (Whole.mul? a b).map .int
  | .div => (Whole.quot? a b).map .int
  | .mod => (Whole.rem? a b).map .int
  | _ => if op.isComparison then some (.bool (op.holdsOf (compare a b))) else none

/-- An operator on two truth values. -/
def combineBools (op : BinaryOp) (a b : Bool) : Option Constant :=
  match op with
  | .and => some (.bool (a && b))
  | .or => some (.bool (a || b))
  | .implies => some (.bool (!a || b))
  | .eq => some (.bool (a == b))
  | .ne => some (.bool (a != b))
  | _ => none

/-- An operator on two texts. -/
def combineStrings (op : BinaryOp) (a b : String) : Option Constant :=
  match op with
  | .eq => some (.bool (a == b))
  | .ne => some (.bool (a != b))
  | _ => none

/-- An operator on two constants. -/
def combine (op : BinaryOp) : Constant → Constant → Option Constant
  | .int a, .int b => combineInts op a b
  | .bool a, .bool b => combineBools op a b
  | .string a, .string b => combineStrings op a b
  | l, r => do combineFloats op (← l.float?) (← r.float?)

/-- The value of a logical operator that its left side settles. -/
def settled? (op : BinaryOp) (l : Constant) : Option Constant :=
  match op, l with
  | .and, .bool false => some (.bool false)
  | .or, .bool true => some (.bool true)
  | .implies, .bool false => some (.bool true)
  | _, _ => none

/-- An operator on one constant. -/
def negate (op : UnaryOp) (v : Constant) : Option Constant :=
  match op, v with
  | .not, .bool b => some (.bool !b)
  | .neg, .int n => (Whole.neg? n).map .int
  | .neg, .float x => some (.float (-x))
  | _, _ => none

/-- The value of a literal; dates, durations and `pass` are not folded. -/
def ofLiteral? : Literal → Option Constant
  | .int n => some (.int n)
  | .float x => some (.float x)
  | .money x => some (.float x)
  | .percent x => some (.float x)
  | .bool b => some (.bool b)
  | .string s => some (.string s)
  | _ => none

end Constant

/-- The value of a constant expression. -/
def fold (env : String → Option Constant) : Expr → Option Constant
  | .literal _ v => Constant.ofLiteral? v
  | .name _ id => env id.name
  | .unary _ op e => (fold env e).bind (Constant.negate op)
  | .binary _ op l r =>
    (fold env l).bind fun a =>
      match Constant.settled? op a with
      | some v => some v
      | none => (fold env r).bind fun b => Constant.combine op a b
  | _ => none

/-- The value of an expression that is constant by itself. -/
def foldClosed (e : Expr) : Option Constant := fold (fun _ => none) e

end Statute
