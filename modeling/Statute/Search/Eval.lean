import Statute.Search.Space

/-!
# Evaluating terms

Evaluation in a chosen interpretation has three outcomes for a statement: true, false, or
undecided. A quantifier over a sample is decided only by an instance that settles it. Beside the
value it is noted whether a quantifier ranged over a free sort, whose elements are all of it only in
the model at hand.
-/

namespace Statute.Search

open Logic

/-- The outcome of evaluation. -/
structure Outcome where
  value : Option Value
  /-- A quantifier ranged over a free sort. -/
  inModel : Bool := false
  deriving Inhabited

/-- The outcome for a statement. -/
structure Truth where
  truth : Option Bool
  inModel : Bool := false
  deriving Inhabited

namespace Outcome

/-- The outcome read as that of a statement; values that are no truth values leave it undecided. -/
def truth (o : Outcome) : Truth :=
  match o.value with
  | some (.bool b) => ⟨some b, o.inModel⟩
  | _ => ⟨none, o.inModel⟩

end Outcome

/-- The outcome of a statement as a value. -/
def Truth.outcome (t : Truth) : Outcome := ⟨t.truth.map .bool, t.inModel⟩

/-- The number as a double. -/
def asFloat? : Value → Option Float
  | .int n => some (Float.ofInt n)
  | .real x => some x
  | _ => none

/-- The order of two numbers, if both are numbers and have one. -/
def orderOf? : Value → Value → Option Ordering
  | .int a, .int b => some (compare a b)
  | a, b => do
    let x ← asFloat? a
    let y ← asFloat? b
    if x < y then some .lt else if x > y then some .gt else if x == y then some .eq else none

/-- A comparison of two values. Equality is decided for all values, order only for numbers. -/
def compareValues (op : Comparison) (a b : Value) : Option Bool :=
  let order := orderOf? a b
  match op with
  | .eq => some ((order.map (· == .eq)).getD (a == b))
  | .distinct => some ((order.map (· != .eq)).getD (a != b))
  | .lt => order.map (· == .lt)
  | .gt => order.map (· == .gt)
  | .le => order.map (· != .gt)
  | .ge => order.map (· != .lt)

/-- Arithmetic on whole numbers; remainders are never negative. -/
def intArithmetic (op : Arithmetic) (a b : Int) : Option Int :=
  match op with
  | .add => Whole.add? a b
  | .sub => Whole.sub? a b
  | .mul => Whole.mul? a b
  | .div => Whole.div? a b
  | .mod => Whole.mod? a b

/-- Arithmetic on real numbers; there are no remainders. -/
def realArithmetic (op : Arithmetic) (a b : Float) : Option Float :=
  match op with
  | .add => some (a + b)
  | .sub => some (a - b)
  | .mul => some (a * b)
  | .div => if b != 0.0 then some (a / b) else none
  | .mod => none

/-- Arithmetic on values. Overflow and division by zero are undecided. -/
def arithmetic (op : Arithmetic) : Value → Value → Option Value
  | .int a, .int b => (intArithmetic op a b).map .int
  | a, b => do
    let x ← asFloat? a
    let y ← asFloat? b
    (realArithmetic op x y).map .real

/-- The negative of a number. -/
def negateValue : Value → Option Value
  | .int n => (Whole.neg? n).map .int
  | .real x => some (.real (-x))
  | _ => none

/-- A number as a real one. -/
def realValue : Value → Option Value
  | .int n => some (.real (Float.ofInt n))
  | .real x => some (.real x)
  | _ => none

/-- Applies a function to a value if there is one. -/
def Outcome.bindValue (o : Outcome) (f : Value → Option Value) : Outcome :=
  ⟨o.value.bind f, o.inModel⟩

/-- The first step, and then the second if the first gave a value. -/
def Outcome.andThen (o : Outcome) (f : Value → Outcome) : Outcome :=
  match o.value with
  | none => ⟨none, o.inModel⟩
  | some v =>
    let p := f v
    ⟨p.value, o.inModel || p.inModel⟩

/-- A quantifier over values, given the statement for each: an instance that settles it ends the
search; `undecided` says that some of the sort was not tried or not decided. -/
def quantify (q : Quantifier) (body : Value → Truth) (undecided inModel : Bool) : List Value → Truth
  | [] => ⟨if undecided then none else some (q == .all), inModel⟩
  | v :: vs =>
    let r := body v
    let inModel := inModel || r.inModel
    match q, r.truth with
    | .all, some false => ⟨some false, inModel⟩
    | .some, some true => ⟨some true, inModel⟩
    | _, none => quantify q body true inModel vs
    | _, _ => quantify q body undecided inModel vs

/-- The interpretation at hand. -/
structure Interpretation where
  space : Space
  chosen : Chosen

/-- The value of a symbol: a bound variable, a constant, or a function without arguments. -/
def Interpretation.symbol? (i : Interpretation) (bound : List (String × Value)) (name : String) :
    Option Value :=
  match bound.lookup name with
  | some v => some v
  | none =>
    match i.space.constants.lookup name with
    | some slot => i.chosen.value? slot
    | none => do
      let f ← i.space.functions.lookup name
      let slot ← f.slot? []
      i.chosen.value? slot

/-- The value of a function for arguments. -/
def Interpretation.result? (i : Interpretation) (name : String) (args : List Value) :
    Option Value := do
  let f ← i.space.functions.lookup name
  let slot ← f.slot? args
  i.chosen.value? slot

mutual

/-- The value of a term, given the values of bound variables, the innermost first. -/
def eval (i : Interpretation) (bound : List (String × Value)) : Term → Outcome
  | .int n => ⟨some (.int n), false⟩
  | .real x => ⟨some (.real x), false⟩
  | .bool b => ⟨some (.bool b), false⟩
  | .str s => ⟨some (.str s), false⟩
  | .var name => ⟨i.symbol? bound name, false⟩
  | .variant s v => ⟨some (.variant s v), false⟩
  | .not t =>
    let r := (eval i bound t).truth
    Truth.outcome ⟨r.truth.map (!·), r.inModel⟩
  | .and ts => (evalAll i bound (some true) false ts).outcome
  | .or ts => (evalAny i bound (some false) false ts).outcome
  | .implies a b =>
    let l := (eval i bound a).truth
    match l.truth with
    | some false => ⟨some (.bool true), l.inModel⟩
    | some true =>
      let r := (eval i bound b).truth
      Truth.outcome ⟨r.truth, l.inModel || r.inModel⟩
    | none =>
      let r := (eval i bound b).truth
      Truth.outcome ⟨if r.truth == some true then some true else none, l.inModel || r.inModel⟩
  | .cmp op a b =>
    (eval i bound a).andThen fun x =>
      (eval i bound b).bindValue fun y => (compareValues op x y).map .bool
  | .arith op _ a b =>
    (eval i bound a).andThen fun x =>
      (eval i bound b).bindValue fun y => arithmetic op x y
  | .neg t => (eval i bound t).bindValue negateValue
  | .toReal t => (eval i bound t).bindValue realValue
  | .ite c a b =>
    let r := (eval i bound c).truth
    match r.truth with
    | some true =>
      let o := eval i bound a
      ⟨o.value, r.inModel || o.inModel⟩
    | some false =>
      let o := eval i bound b
      ⟨o.value, r.inModel || o.inModel⟩
    | none =>
      let o := (eval i bound a).andThen fun x =>
        (eval i bound b).bindValue fun y => if x == y then some x else none
      ⟨o.value, r.inModel || o.inModel⟩
  | .apply name [] => ⟨i.symbol? bound name, false⟩
  | .apply name (a :: args) => evalArgs i bound name [] false (a :: args)
  | .quant q symbol s body =>
    let d := i.space.sorts.domain s
    (quantify q (fun v => (eval i ((symbol, v) :: bound) body).truth) (d.extent == .sampled)
      (d.extent == .inModel) d.values).outcome

/-- A conjunction: the first false statement settles it. `soFar` is the outcome of earlier ones. -/
def evalAll (i : Interpretation) (bound : List (String × Value)) (soFar : Option Bool)
    (inModel : Bool) : List Term → Truth
  | [] => ⟨soFar, inModel⟩
  | t :: ts =>
    let r := (eval i bound t).truth
    match r.truth with
    | some false => ⟨some false, inModel || r.inModel⟩
    | some true => evalAll i bound soFar (inModel || r.inModel) ts
    | none => evalAll i bound none (inModel || r.inModel) ts

/-- A disjunction: the first true statement settles it. -/
def evalAny (i : Interpretation) (bound : List (String × Value)) (soFar : Option Bool)
    (inModel : Bool) : List Term → Truth
  | [] => ⟨soFar, inModel⟩
  | t :: ts =>
    let r := (eval i bound t).truth
    match r.truth with
    | some true => ⟨some true, inModel || r.inModel⟩
    | some false => evalAny i bound soFar (inModel || r.inModel) ts
    | none => evalAny i bound none (inModel || r.inModel) ts

/-- A function applied to arguments, after the values of earlier ones in reverse. -/
def evalArgs (i : Interpretation) (bound : List (String × Value)) (name : String)
    (values : List Value) (inModel : Bool) : List Term → Outcome
  | [] => ⟨i.result? name values.reverse, inModel⟩
  | t :: ts =>
    let o := eval i bound t
    match o.value with
    | none => ⟨none, inModel || o.inModel⟩
    | some v => evalArgs i bound name (v :: values) (inModel || o.inModel) ts

end

end Statute.Search
