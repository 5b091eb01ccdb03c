import Statute.Types.Ty

/-!
# Type parameters and what they stand for

A binding gives types to type parameters. Substitution puts them in place all at once; what is put
in is not substituted again.
-/

namespace Statute

/-- Types for type parameters. A later entry for a parameter comes first and hides earlier ones. -/
structure Binding where
  entries : List (String × Ty) := []
  deriving Inhabited

namespace Binding

/-- Gives a parameter a type, in place of any earlier one. -/
def bind (b : Binding) (param : String) (t : Ty) : Binding :=
  ⟨(param, t) :: b.entries.filter fun e => e.1 != param⟩

/-- Pairs parameters with types; of a repeated parameter the last pair counts. -/
def ofLists (params : List String) (args : List Ty) : Binding :=
  (params.zip args).foldl (fun b e => b.bind e.1 e.2) {}

/-- The type of a parameter. -/
def get? (b : Binding) (param : String) : Option Ty := b.entries.lookup param

/-- Number of parameters that have a type. -/
def size (b : Binding) : Nat := b.entries.length

def isEmpty (b : Binding) : Bool := b.entries.isEmpty

mutual

/-- The type with every bound parameter replaced by its type. -/
def apply (b : Binding) : Ty → Ty
  | .var v => (b.get? v).getD (.var v)
  | .struct n args => .struct n (applyAll b args)
  | .refine base lo hi => .refine (apply b base) lo hi
  | .temporal inner opens closes => .temporal (apply b inner) opens closes
  | .array inner => .array (apply b inner)
  | .positive inner => .positive (apply b inner)
  | .nonEmpty inner => .nonEmpty (apply b inner)
  | .union l r => .union (apply b l) (apply b r)
  | .unknown => .unknown
  | .prim p => .prim p
  | .enum n => .enum n
  | .citation c => .citation c
  | .validDate after before => .validDate after before
  | .moneyIn code => .moneyIn code

/-- Substitution in several types. -/
def applyAll (b : Binding) : List Ty → List Ty
  | [] => []
  | t :: ts => apply b t :: applyAll b ts

end

end Binding

end Statute
