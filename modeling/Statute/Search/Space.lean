import Statute.Search.Domain

/-!
# The space of interpretations

An interpretation is chosen slot by slot: a constant has one slot, and a function has one for each
tuple of arguments if these are few, else a single one, which makes it constant. A choice gives each
slot the place of a value in the slot's domain.
-/

namespace Statute.Search

open Logic

/-- How a function is interpreted. -/
structure FunctionSlots where
  first : Nat
  /-- The domains of the arguments if there is a slot for each tuple of them. -/
  table : Option (List (List Value))

/-- Functions with more tuples of arguments than this have a single slot. -/
def maxTable : Nat := 16

/-- The place of a tuple of arguments among all tuples, the last argument varying fastest; `index`
is the place so far. -/
def tupleIndex (index : Nat) : List Value → List (List Value) → Option Nat
  | a :: args, d :: domains => do
    let i ← d.findIdx? (· == a)
    tupleIndex (index * d.length + i) args domains
  | _, _ => some index

/-- The slot that gives the value of a function for arguments. -/
def FunctionSlots.slot? (f : FunctionSlots) (args : List Value) : Option Nat :=
  match f.table with
  | none => some f.first
  | some domains => (tupleIndex 0 args domains).map (f.first + ·)

/-- The slots of all constants and functions. -/
structure Space where
  sorts : Universe
  slots : Array (Array Value) := #[]
  constants : List (String × Nat) := []
  functions : List (String × FunctionSlots) := []
  /-- The slots cover every interpretation. -/
  exhaustive : Bool := true

namespace Space

/-- The domain of a constant; limits count for whole numbers only. -/
def constDomain (u : Universe) (bound : Int) (c : ConstDecl) : Domain :=
  match c.sort with
  | .int => intDomain bound c.lower c.upper
  | s => u.domain s

/-- Adds the slot of a constant. -/
def addConstant (bound : Int) (s : Space) (c : ConstDecl) : Space :=
  let d := constDomain s.sorts bound c
  { s with
    slots := s.slots.push d.values.toArray
    constants := s.constants ++ [(c.symbol, s.slots.size)]
    exhaustive := s.exhaustive && d.extent == .exhaustive }

/-- Number of tuples of arguments from these domains on, after `count` tuples of earlier ones. It is
multiplied up from the first argument to the last, and a count that is too large for a word on the
way is no count, even if a later argument has no values. -/
def tupleCount? (count : Nat) : List Domain → Option Nat
  | [] => some count
  | d :: domains =>
    let next := count * d.values.length
    if next ≤ Decimal.maxWord then tupleCount? next domains else none

/-- Number of slots of a function that has one for each tuple of arguments: they are few and all of
them are tried. -/
def tableSize? (domains : List Domain) : Option Nat :=
  if domains.all fun d => d.extent != .sampled then
    (tupleCount? 1 domains).filter fun n => n ≤ maxTable
  else none

/-- Adds the slots of a function. -/
def addFunction (s : Space) (f : FunDecl) : Space :=
  let result := s.sorts.domain f.result
  let args := f.params.map s.sorts.domain
  let size := tableSize? args
  { s with
    slots := s.slots ++ Array.replicate (size.getD 1) result.values.toArray
    functions := s.functions ++
      [(f.name, ⟨s.slots.size, size.map fun _ => args.map (·.values)⟩)]
    exhaustive := s.exhaustive && result.extent == .exhaustive && size.isSome &&
      args.all fun d => d.extent == .exhaustive }

/-- The space for a vocabulary: constants first, then functions. -/
def ofVocabulary (v : Vocabulary) (bound : Int) : Space :=
  let start : Space := { sorts := Universe.ofVocabulary v bound }
  v.functions.foldl addFunction (v.constants.foldl (addConstant bound) start)

/-- Some slot has no value to choose. -/
def hasEmptySlot (s : Space) : Bool := s.slots.any fun d => d.isEmpty

end Space

/-- The next choice, the first slot varying fastest, for slots of the given sizes; none after the
last one. -/
def advance : List Nat → List Nat → Option (List Nat)
  | c :: choice, n :: sizes =>
    if c + 1 < n then some ((c + 1) :: choice)
    else (advance choice sizes).map (0 :: ·)
  | _, _ => none

/-- The values that a choice gives to the slots. -/
abbrev Chosen := Array (Option Value)

/-- The values of a choice. -/
def Space.chosen (s : Space) (choice : List Nat) : Chosen :=
  (s.slots.toList.zipWith (fun d c => d[c]?) choice).toArray

/-- The value chosen for a slot. -/
def Chosen.value? (chosen : Chosen) (slot : Nat) : Option Value := (chosen[slot]?).join

/-- The values that a choice gives to the constants. -/
def Space.assignment (s : Space) (c : Chosen) : Assignment :=
  NameMap.ofList (s.constants.filterMap fun (name, slot) =>
    (c.value? slot).map fun v => (name, v))

end Statute.Search
