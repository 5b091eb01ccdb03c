import Statute.Search.Eval

/-!
# Bounded search for a model

The interpretations of a query are tried one after the other. A model that is found is a genuine
one. That there is none is claimed only if every interpretation was covered, no statement was left
undecided and no quantifier ranged over a free sort; otherwise the answer is that nothing is known,
with the reason.
-/

namespace Statute

open Logic

/-- Why a search came to no answer. -/
inductive Inconclusive where
  | noValues
  | gaveUp (tried : Nat)
  | undecided (bound : Int)
  | largerModels
  | outsideWindow (bound : Int)
  /-- The reason given by another solver. -/
  | other (reason : String)
  deriving DecidableEq, Repr, Inhabited

/-- The wording of a reason. -/
def Inconclusive.message : Inconclusive → String
  | .noValues => "bounded search: a sort has no values to search"
  | .gaveUp n => s!"bounded search: gave up after {n} candidates"
  | .undecided b =>
    s!"bounded search (integers within ±{b}): a quantifier over an unbounded sort " ++
      "could not be decided"
  | .largerModels =>
    s!"bounded search: no model with {Search.freeSize} elements per " ++
      "uninterpreted sort; larger models were not searched"
  | .outsideWindow b => s!"bounded search: no model with integers within ±{b}"
  | .other reason => reason

/-- The answer of a solver to a query. -/
inductive Response where
  | sat (model : Assignment)
  | unsat
  | unknown (why : Inconclusive)
  | timeout

/-- Settings of bounded search. -/
structure BoundedSearch where
  /-- Whole numbers are tried from minus this to this, unless limits are tighter. -/
  bound : Int
  /-- How many interpretations are tried at most. -/
  maxCandidates : Nat := 200000
  deriving DecidableEq, Repr, Inhabited

namespace BoundedSearch

/-- Search within a bound of at least one. -/
def ofBound (bound : Int) : BoundedSearch := { bound := max bound 1 }

/-- The same search with another number of interpretations, at least one. -/
def withMaxCandidates (s : BoundedSearch) (n : Nat) : BoundedSearch :=
  { s with maxCandidates := max n 1 }

/-- What the interpretations tried so far have shown. -/
structure Progress where
  undecided : Bool := false
  inModel : Bool := false

/-- The answer when no interpretation is left. -/
def conclude (bound : Int) (exhaustive : Bool) (p : Progress) : Response :=
  if exhaustive && !p.undecided && !p.inModel then .unsat
  else if p.undecided then .unknown (.undecided bound)
  else if p.inModel then .unknown .largerModels
  else .unknown (.outsideWindow bound)

/-- Tries interpretations from a choice on, at most as many as the third argument says, after
`tried` earlier ones. -/
def run (bound : Int) (space : Search.Space) (assertions : List Term) (sizes : List Nat)
    (tried : Nat) : Nat → Progress → List Nat → Response
  | 0, _, _ => .unknown (.gaveUp tried)
  | left + 1, p, choice =>
    let chosen := space.chosen choice
    let r := Search.evalAll ⟨space, chosen⟩ [] (some true) false assertions
    let p := { p with inModel := p.inModel || r.inModel }
    match r.truth with
    | some true => .sat (space.assignment chosen)
    | verdict =>
      let p := { p with undecided := p.undecided || verdict.isNone }
      match Search.advance choice sizes with
      | none => conclude bound space.exhaustive p
      | some next => run bound space assertions sizes (tried + 1) left p next

/-- Answers a query within a time limit in milliseconds. Only a limit of zero is ever reached. -/
def check (s : BoundedSearch) (q : Query) (timeout : Nat) : Response :=
  let space := Search.Space.ofVocabulary q.vocabulary s.bound
  if space.hasEmptySlot then .unknown .noValues
  else if timeout == 0 then .timeout
  else
    let sizes := space.slots.toList.map Array.size
    run s.bound space q.assertions sizes 0 s.maxCandidates {} (sizes.map fun _ => 0)

end BoundedSearch

end Statute
