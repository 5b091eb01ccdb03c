import Statute.Decimal.Shortest
import Statute.Logic.Sexpr
import Statute.Program.Expr

/-!
# Terms of the logic

Principles are lowered to terms of many-sorted first-order logic with whole and real numbers,
truth values, texts, finite enumerations and sorts about which nothing is assumed. Terms are written
as S-expressions in the SMT-LIB manner.
-/

namespace Statute.Logic

/-- The sorts of terms. -/
inductive SmtSort where
  | int
  | real
  | bool
  | string
  /-- The variants of a declared enum. -/
  | enum (name : String)
  /-- A sort about which nothing is assumed. -/
  | free (name : String)
  deriving DecidableEq, Repr, Inhabited

namespace SmtSort

def isNumeric : SmtSort → Bool
  | .int | .real => true
  | _ => false

def text : SmtSort → String
  | .int => "Int"
  | .real => "Real"
  | .bool => "Bool"
  | .string => "String"
  | .enum n => n
  | .free n => n

end SmtSort

/-- Comparisons. -/
inductive Comparison where
  | eq
  | distinct
  | lt
  | gt
  | le
  | ge
  deriving DecidableEq, Repr, Inhabited

def Comparison.text : Comparison → String
  | .eq => "="
  | .distinct => "distinct"
  | .lt => "<"
  | .gt => ">"
  | .le => "<="
  | .ge => ">="

/-- Arithmetic operators. -/
inductive Arithmetic where
  | add
  | sub
  | mul
  | div
  | mod
  deriving DecidableEq, Repr, Inhabited

/-- The sign of an operator; division of whole numbers has its own. -/
def Arithmetic.text : Arithmetic → SmtSort → String
  | .add, _ => "+"
  | .sub, _ => "-"
  | .mul, _ => "*"
  | .div, .real => "/"
  | .div, _ => "div"
  | .mod, _ => "mod"

/-- A term. -/
inductive Term where
  | int (n : Int)
  | real (x : Float)
  | bool (b : Bool)
  | str (s : String)
  /-- A bound variable or a declared constant. -/
  | var (symbol : String)
  | variant (sort variant : String)
  | not (t : Term)
  | and (ts : List Term)
  | or (ts : List Term)
  | implies (a b : Term)
  | cmp (op : Comparison) (a b : Term)
  | arith (op : Arithmetic) (sort : SmtSort) (a b : Term)
  | neg (t : Term)
  | toReal (t : Term)
  | ite (c a b : Term)
  /-- A declared function applied to arguments. -/
  | apply (function : String) (args : List Term)
  | quant (quantifier : Quantifier) (symbol : String) (sort : SmtSort) (body : Term)
  deriving Inhabited

namespace Term

/-- A conjunction; of one term it is that term, and of none it is true. -/
def conj : List Term → Term
  | [] => .bool true
  | [t] => t
  | ts => .and ts

mutual

/-- The largest number of quantifiers inside one another. -/
def depth : Term → Nat
  | .quant _ _ _ body => 1 + body.depth
  | .not t => t.depth
  | .neg t => t.depth
  | .toReal t => t.depth
  | .and ts => depths ts
  | .or ts => depths ts
  | .apply _ ts => depths ts
  | .implies a b => max a.depth b.depth
  | .cmp _ a b => max a.depth b.depth
  | .arith _ _ a b => max a.depth b.depth
  | .ite c a b => max (max c.depth a.depth) b.depth
  | .int _ => 0
  | .real _ => 0
  | .bool _ => 0
  | .str _ => 0
  | .var _ => 0
  | .variant _ _ => 0

/-- The largest depth of several terms. -/
def depths : List Term → Nat
  | [] => 0
  | t :: ts => max t.depth (depths ts)

end

/-- The constructor of a variant. -/
def constructor (sort variant : String) : String := sort ++ "." ++ variant

/-- A whole number; a negative one is written with a minus in front of it. -/
def intSexpr (n : Int) : Sexpr :=
  if n < 0 then .app "-" [.atom (toString n.natAbs)] else .atom (toString n)

/-- A real number with a point; a negative one is written with a minus in front of it. -/
def realSexpr (x : Float) : Sexpr :=
  let digits := Sexpr.atom (Decimal.magnitudeText x)
  if x < 0.0 then .app "-" [digits] else digits

/-- A text between quotes, with quotes inside it doubled. -/
def strText (s : String) : String :=
  String.ofList ('"' :: (s.toList.flatMap fun c => if c == '"' then [c, c] else [c]) ++ ['"'])

mutual

/-- The written form of a term. -/
def sexpr : Term → Sexpr
  | .int n => intSexpr n
  | .real x => realSexpr x
  | .bool b => .atom (if b then "true" else "false")
  | .str s => .atom (strText s)
  | .var s => .atom s
  | .variant s v => .atom (constructor s v)
  | .not t => .app "not" [t.sexpr]
  | .and ts => .app "and" (sexprs ts)
  | .or ts => .app "or" (sexprs ts)
  | .implies a b => .app "=>" [a.sexpr, b.sexpr]
  | .cmp op a b => .app op.text [a.sexpr, b.sexpr]
  | .arith op s a b => .app (op.text s) [a.sexpr, b.sexpr]
  | .neg t => .app "-" [t.sexpr]
  | .toReal t => .app "to_real" [t.sexpr]
  | .ite c a b => .app "ite" [c.sexpr, a.sexpr, b.sexpr]
  | .apply f [] => .atom f
  | .apply f (a :: args) => .app f (sexprs (a :: args))
  | .quant q symbol s body =>
    .app q.keyword [.list [.list [.atom symbol, .atom s.text]], body.sexpr]

/-- The written forms of several terms. -/
def sexprs : List Term → List Sexpr
  | [] => []
  | t :: ts => t.sexpr :: sexprs ts

end

/-- The text of a term. -/
def text (t : Term) : String := t.sexpr.text

end Term

end Statute.Logic
