import Statute.Logic.Vocabulary

/-!
# Refutation

A principle holds if its negation cannot be satisfied together with the assumptions. The universal
quantifiers in front of the formula become constants of the query, so that a counterexample names
them; a guard that only states limits on such a constant becomes an assertion, and the limits are
noted on the constant.
-/

namespace Statute

open Logic

/-- The name that a symbol was made from. -/
def sourceName (symbol : String) : String :=
  String.ofList (symbol.toList.takeWhile (· != '@'))

/-- The term is the given symbol. -/
def isSymbol (symbol : String) : Term → Bool
  | .var s => s == symbol
  | _ => false

/-- A comparison that limits a symbol by a number: the constant with the limit noted. -/
def limitOn? (symbol : String) (c : ConstDecl) (a b : Term) : Option ConstDecl :=
  if isSymbol symbol b then
    match a with
    | .int n => some { c with lower := some n }
    | _ => none
  else if isSymbol symbol a then
    match b with
    | .int n => some { c with upper := some n }
    | _ => none
  else none

mutual

/-- Whether a guard only states limits on a symbol, and the constant with those limits noted that
were met before anything else. -/
def noteLimits (symbol : String) (c : ConstDecl) : Term → Bool × ConstDecl
  | .cmp .le a b =>
    match limitOn? symbol c a b with
    | some c' => (true, c')
    | none => (false, c)
  | .and (t :: ts) => noteAllLimits symbol c (t :: ts)
  | _ => (false, c)

/-- Whether all guards only state limits; the first that does not ends the search. -/
def noteAllLimits (symbol : String) (c : ConstDecl) : List Term → Bool × ConstDecl
  | [] => (true, c)
  | t :: ts =>
    match noteLimits symbol c t with
    | (true, c') => noteAllLimits symbol c' ts
    | (false, c') => (false, c')

end

/-- The query for a goal under the universal quantifiers that are still in front of it. -/
def refuteGoal (v : Vocabulary) (assertions : List Term) : Term → Query
  | .quant .all symbol s (.implies guard inner) =>
    match noteLimits symbol ⟨symbol, sourceName symbol, s, none, none⟩ guard with
    | (true, c) => refuteGoal (v.addConstant c) (assertions ++ [guard]) inner
    | (false, c) => ⟨v.addConstant c, assertions ++ [.not (.implies guard inner)]⟩
  | .quant .all symbol s body =>
    refuteGoal (v.addConstant ⟨symbol, sourceName symbol, s, none, none⟩) assertions body
  | goal => ⟨v, assertions ++ [.not goal]⟩

/-- The query that is satisfiable just if the form can be false while its assumptions hold. -/
def refutation (f : Form) : Query := refuteGoal f.vocabulary f.assumptions f.formula

end Statute
