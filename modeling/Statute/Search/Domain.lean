import Statute.Logic.Value
import Statute.Logic.Vocabulary
import Statute.Whole

/-!
# Domains of bounded search

The values tried for each sort. Truth values and enums are tried in full. Of numbers and texts only
a sample is tried, unless limits make the range small enough. A free sort gets a fixed number of
elements, which are all of it in the model at hand, though other models may have more.
-/

namespace Statute.Search

open Logic

/-- How much of a sort a domain covers. -/
inductive Extent where
  /-- Every value of the sort. -/
  | exhaustive
  /-- Every element of the model at hand, but other models exist. -/
  | inModel
  /-- Part of an infinite sort. -/
  | sampled
  deriving DecidableEq, Repr, Inhabited

/-- The values to try, and how much of the sort they cover. -/
structure Domain where
  values : List Value := []
  extent : Extent := .sampled
  deriving Inhabited

/-- Number of elements of a free sort. -/
def freeSize : Nat := 2

/-- The texts to try. -/
def sampleTexts : List String := ["", "a", "b"]

/-- The point of a range nearest to zero. -/
def anchor (lo hi : Int) : Int := if hi < 0 then hi else if 0 < lo then lo else 0

/-- The whole numbers of a range around a point, at distances from 1 to `reach`, nearest first and
the larger before the smaller. -/
def around (lo hi center : Int) (reach : Nat) : List Int :=
  (List.range reach).flatMap fun (k : Nat) =>
    let d : Int := (k : Int) + 1
    [center + d, center - d].filter fun n => lo ≤ n && n ≤ hi

/-- The whole numbers to try between optional limits, from the one nearest to zero outwards. A range
with both limits no farther apart than twice the bound is covered in full. -/
def intWindow (bound : Int) (lower upper : Option Int) : List Int × Extent :=
  let lo := lower.getD Whole.least
  let hi := upper.getD Whole.greatest
  if hi < lo then ([], .exhaustive)
  else
    let full := lower.isSome && upper.isSome && hi - lo ≤ 2 * bound
    let reach := if full then hi - lo else bound
    let center := anchor lo hi
    (center :: around lo hi center reach.toNat, if full then .exhaustive else .sampled)

/-- The domain of a whole number between limits. -/
def intDomain (bound : Int) (lower upper : Option Int) : Domain :=
  let (ns, extent) := intWindow bound lower upper
  ⟨ns.map .int, extent⟩

/-- Zero and the halves up to the bound, of either sign. -/
def realSamples (bound : Int) : List Float :=
  0.0 :: (List.range (min Whole.greatest (2 * bound)).toNat).flatMap fun (k : Nat) =>
    let x := Float.ofNat (k + 1) / 2.0
    [x, -x]

/-- The domains of all sorts. -/
structure Universe where
  ints : Domain
  reals : Domain
  declared : List (SmtSort × Domain) := []
  deriving Inhabited

namespace Universe

/-- The domain of a declared sort. -/
def declaredDomain : SortDecl → SmtSort × Domain
  | .enum n vs => (.enum n, ⟨vs.map (Value.variant n), .exhaustive⟩)
  | .free n => (.free n, ⟨(List.range freeSize).map (Value.element n), .inModel⟩)

/-- The domains for a vocabulary, given the bound on whole numbers. -/
def ofVocabulary (v : Vocabulary) (bound : Int) : Universe where
  ints := intDomain bound none none
  reals := ⟨(realSamples bound).map .real, .sampled⟩
  declared := v.sorts.map declaredDomain

/-- The domain of a sort; an undeclared one has no values. -/
def domain (u : Universe) : SmtSort → Domain
  | .bool => ⟨[.bool false, .bool true], .exhaustive⟩
  | .int => u.ints
  | .real => u.reals
  | .string => ⟨sampleTexts.map .str, .sampled⟩
  | s => (u.declared.lookup s).getD {}

end Universe

end Statute.Search
