import Statute.Types.Ty

/-!
# Which values fit a type

`expected.accepts got` says whether a value of type `got` may stand where `expected` is asked for,
going by the shape of the types alone: `int` fits every numeric type, constraints are looked
through, a union is accepted when each of its sides is and accepts what one of its sides accepts.
Inheritance between structs is not considered here.
-/

namespace Statute.Ty

/-- The predicate holds of every alternative of a type: constraints are looked through and both
sides of a union are asked. -/
def eachAlternative (p : Ty → Bool) : Ty → Bool
  | .refine base _ _ => base.eachAlternative p
  | .temporal inner _ _ => inner.eachAlternative p
  | .positive inner => inner.eachAlternative p
  | .nonEmpty inner => inner.eachAlternative p
  | .validDate _ _ => p (.prim .date)
  | .moneyIn _ => p (.prim .money)
  | .union a b => a.eachAlternative p && b.eachAlternative p
  | .unknown => p .unknown
  | .prim q => p (.prim q)
  | .struct n args => p (.struct n args)
  | .enum n => p (.enum n)
  | .var n => p (.var n)
  | .citation c => p (.citation c)
  | .array t => p (.array t)

/-- An unknown type or a type parameter, which fits anywhere. -/
def fitsAnywhere : Ty → Bool
  | .unknown => true
  | .var _ => true
  | _ => false

/-- Values of the built-in type `p` accept those of `got`. -/
def primAccepts (p : Prim) (got : Ty) : Bool :=
  got.eachAlternative fun
    | .prim q => p == q || (q == .int && p.isNumeric)
    | g => g.fitsAnywhere

mutual

/-- A value of the second type may stand where the first is asked for. -/
def accepts : Ty → Ty → Bool
  | .unknown, _ => true
  | .var _, _ => true
  | .refine base _ _, got => base.accepts got
  | .temporal inner _ _, got => inner.accepts got
  | .positive inner, got => inner.accepts got
  | .nonEmpty inner, got => inner.accepts got
  | .validDate _ _, got => primAccepts .date got
  | .moneyIn _, got => primAccepts .money got
  | .prim p, got => primAccepts p got
  | .union a b, got => a.accepts got || b.accepts got
  | .struct n args, got => got.eachAlternative fun
    | .struct m brgs => n == m && acceptsAll args brgs
    | g => g.fitsAnywhere
  | .enum n, got => got.eachAlternative fun
    | .enum m => n == m
    | g => g.fitsAnywhere
  | .citation _, got => got.eachAlternative fun
    | .citation _ => true
    | g => g.fitsAnywhere
  | .array a, got => got.eachAlternative fun
    | .array b => a.accepts b
    | g => g.fitsAnywhere

/-- As many types on both sides, each accepting its partner. -/
def acceptsAll : List Ty → List Ty → Bool
  | [], [] => true
  | a :: as, b :: bs => a.accepts b && acceptsAll as bs
  | _, _ => false

end

end Statute.Ty
