import Statute.Env
import Statute.Fault
import Statute.Folding

/-!
# Constants against the constraints of a type

A constant expression is compared with what its declared type asks for: the limits of refinements,
positive numbers, non-empty texts, dates inside a window, and the condition of a field.
-/

namespace Statute

/-- The constraint `Positive`, `NonEmpty` or `ValidDate` of a type that a constant violates, the
inner ones first. Periods are looked through; refinements are not. -/
def wrapperFaults : Ty → Expr → List Finding
  | .temporal inner _ _, value => wrapperFaults inner value
  | .positive inner, value =>
    wrapperFaults inner value ++
      match foldClosed value with
      | some (.float x) =>
        if x ≤ 0.0 then [⟨.constraintViolated (.positive inner), value.span⟩] else []
      | _ => []
  | .nonEmpty inner, value =>
    wrapperFaults inner value ++
      match foldClosed value with
      | some (.string s) =>
        if s.isEmpty then [⟨.constraintViolated (.nonEmpty inner), value.span⟩] else []
      | _ => []
  | .validDate after before, value =>
    match value with
    | .literal _ (.date text) =>
      match Date.parse? text with
      | some d =>
        if (after.map fun a => Date.le d a).getD false ||
            (before.map fun b => Date.le b d).getD false
        then [⟨.constraintViolated (.validDate after before), value.span⟩] else []
      | none => []
    | _ => []
  | _, _ => []

/-- The number lies outside the limits. -/
def outsideLimits (lo hi : Option Int) : Constant → Bool
  | .int n =>
    (lo.map fun l => decide (n < l)).getD false || (hi.map fun h => decide (n > h)).getD false
  | .float x =>
    (lo.map fun l => decide (x < Float.ofInt l)).getD false ||
      (hi.map fun h => decide (x > Float.ofInt h)).getD false
  | _ => false

/-- What is wrong with using a constant expression as a value of a type. -/
def constantFaults (t : Ty) (value : Expr) : List Finding :=
  wrapperFaults t value ++
    match t.limits?, foldClosed value with
    | some (lo, hi), some v =>
      if outsideLimits lo hi v then [⟨.outOfBounds v t, value.span⟩] else []
    | _, _ => []

/-- A constant that makes the condition of its field come out false. -/
def fieldConditionFaults (f : Field) (value : Expr) : List Finding :=
  match f.condition, foldClosed value with
  | some condition, some v =>
    match fold (fun name => if name == f.name then some v else none) condition with
    | some (.bool false) => [⟨.fieldConditionViolated f.name f.owner, value.span⟩]
    | _ => []
  | _, _ => []

end Statute
