/-!
# Maps from names

A map from names to values, held as a list of pairs in rising order of the names. Names are ordered
by their code points.
-/

namespace Statute

/-- Pairs of names and values, in rising order of the names, each name once. -/
structure NameMap (α : Type) where
  entries : List (String × α) := []
  deriving Inhabited

namespace NameMap

variable {α β : Type}

/-- Puts a pair in its place in a sorted list, instead of an earlier one of the same name. -/
def insertInto (name : String) (value : α) : List (String × α) → List (String × α)
  | [] => [(name, value)]
  | (n, v) :: rest =>
    if name == n then (name, value) :: rest
    else if name < n then (name, value) :: (n, v) :: rest
    else (n, v) :: insertInto name value rest

/-- Gives a name a value, in place of any earlier one. -/
def insert (m : NameMap α) (name : String) (value : α) : NameMap α :=
  ⟨insertInto name value m.entries⟩

/-- The value of a name. -/
def get? (m : NameMap α) (name : String) : Option α := m.entries.lookup name

def contains (m : NameMap α) (name : String) : Bool := (m.get? name).isSome

/-- Gives a name a value, unless it has one. -/
def insertIfNew (m : NameMap α) (name : String) (value : α) : NameMap α :=
  if m.contains name then m else m.insert name value

/-- The names in rising order. -/
def keys (m : NameMap α) : List String := m.entries.map (·.1)

def size (m : NameMap α) : Nat := m.entries.length

def isEmpty (m : NameMap α) : Bool := m.entries.isEmpty

/-- The map with every value changed. -/
def map (f : α → β) (m : NameMap α) : NameMap β := ⟨m.entries.map fun (n, v) => (n, f v)⟩

/-- Pairs entered one after the other. -/
def ofList (pairs : List (String × α)) : NameMap α :=
  pairs.foldl (fun m p => m.insert p.1 p.2) {}

/-- The first map, with what the second adds under new names. -/
def union (a b : NameMap α) : NameMap α :=
  b.entries.foldl (fun m p => m.insertIfNew p.1 p.2) a

end NameMap

end Statute
