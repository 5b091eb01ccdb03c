import Statute.Proofs.Check.Scopes

/-!
# The rounds of checking

A program is checked in rounds: the names of its types are collected, its structs get their fields
and parents, inheritance is checked, legal tests and functions are collected, and last the bodies of
items are checked. `Program.named`, `Program.typed` and `Program.declared` are the declarations
known after the rounds that add any; they depend on the program alone. Every round of the check of
an accepted program goes through, `Rounds.of_check`, and in the last one every item does,
`goesThrough_checkItem`.
-/

namespace Statute

open Checking

/-!
## No round takes back what has been reported
-/

section OnlyAdds

variable {cx : Context} {env : Env}

theorem onlyAdds_checkCycles (known : List Nat) (structs : List DeclaredStruct) :
    OnlyAdds (checkCycles env known structs) :=
  onlyAdds_iff.mpr fun r₀ r₀' =>
    parallel_checkCycles (fun _ _ _ => onlyAdds_iff.mp (.fault _ _) r₀ r₀') known structs

theorem onlyAdds_checkConditions (fields : List FieldDecl) (types : List Ty) :
    OnlyAdds (checkConditions cx fields types) :=
  .of_parallel fun _ h => parallel_checkConditions h fields types

theorem onlyAdds_forEachSound {act : DeclaredStruct → Checking Unit} (hact : ∀ s, OnlyAdds (act s))
    (structs : List DeclaredStruct) : OnlyAdds (forEachSound env act structs) :=
  onlyAdds_iff.mpr fun r₀ r₀' =>
    parallel_forEachSound (fun s => onlyAdds_iff.mp (hact s) r₀ r₀') structs

theorem onlyAdds_checkInheritance (structs : List DeclaredStruct) :
    OnlyAdds (checkInheritance cx structs) :=
  onlyAdds_iff.mpr fun r₀ r₀' => parallel_checkInheritance (tolerant_grown cx.options r₀ r₀')
    (fun _ _ _ => onlyAdds_iff.mp (.fault _ _) r₀ r₀') structs

theorem onlyAdds_checkItems (scope : Scope) (items : List Item) :
    OnlyAdds (checkItems cx scope items) :=
  .of_parallel fun _ h => parallel_checkItems h scope items

end OnlyAdds

/-!
## The declarations after each round
-/

namespace Program

/-- The structs at any depth, in order of declaration. -/
def structs (p : Program) : List StructDecl := p.leaves.filterMap Item.struct?

/-- The declarations when the names of types are known. -/
def named (p : Program) : Env := (collectTypes {} p.leaves).value.1

/-- The structs that have a place among the definitions. -/
def placed (p : Program) : List DeclaredStruct := (collectTypes {} p.leaves).value.2

/-- The declarations when structs have their fields and parents. -/
def typed (p : Program) : Env := (resolveStructs p.named p.placed).value

/-- The declarations in the end. -/
def declared (p : Program) : Env := (collectSignatures p.typed p.leaves).value

end Program

/-- The rounds of the check of a program, with the declarations known in each. -/
structure Rounds (p : Program) (options : CheckOptions) : Prop where
  types : GoesThrough (collectTypes {} p.leaves)
  structs : GoesThrough (resolveStructs p.named p.placed)
  inheritance : GoesThrough (checkInheritance ⟨p.typed, options, []⟩ p.placed)
  signatures : GoesThrough (collectSignatures p.typed p.leaves)
  items : GoesThrough (checkItems ⟨p.declared, options, []⟩ {} p.items)

/-- The check from the fourth round on. -/
def checkSignatures (options : CheckOptions) (p : Program) (typed : Env) : Checking Env := do
  let env ← collectSignatures typed p.leaves
  checkItems ⟨env, options, []⟩ {} p.items
  return env

/-- The check from the second round on. -/
def checkStructs (options : CheckOptions) (p : Program) (named : Env)
    (structs : List DeclaredStruct) : Checking Env := do
  let typed ← resolveStructs named structs
  checkInheritance ⟨typed, options, []⟩ structs
  checkSignatures options p typed

section Rounds

variable {p : Program} {options : CheckOptions}

theorem checkAll_eq : checkAll options p =
    collectTypes {} p.leaves >>= fun r => checkStructs options p r.1 r.2 :=
  rfl

theorem onlyAdds_checkSignatures (typed : Env) : OnlyAdds (checkSignatures options p typed) :=
  (tame_collectSignatures _ _).onlyAdds.bind fun _ => (onlyAdds_checkItems _ _).map _

theorem onlyAdds_checkStructs (named : Env) (structs : List DeclaredStruct) :
    OnlyAdds (checkStructs options p named structs) := by
  refine (tame_resolveStructs _ _).onlyAdds.bind fun typed => ?_
  exact (onlyAdds_checkInheritance _).bind fun _ => onlyAdds_checkSignatures typed

/-- The declarations that the check gives, whatever the options. -/
theorem value_checkAll : (checkAll options p).value = p.declared := by
  calc (checkAll options p).value
      = (checkStructs options p p.named p.placed).value :=
        OnlyAdds.value_bind (onlyAdds_checkStructs _ _)
    _ = (do
          checkInheritance ⟨p.typed, options, []⟩ p.placed
          checkSignatures options p p.typed : Checking Env).value :=
        OnlyAdds.value_bind ((onlyAdds_checkInheritance _).bind fun _ => onlyAdds_checkSignatures _)
    _ = (checkSignatures options p p.typed).value :=
        OnlyAdds.value_bind (onlyAdds_checkSignatures _)
    _ = p.declared := OnlyAdds.value_bind ((onlyAdds_checkItems _ _).map _)

/-- What the check of an accepted program gives, and that all its rounds go through. -/
theorem Rounds.of_check {cp : CheckedProgram} (h : p.check options = .ok cp) :
    cp.env = p.declared ∧ Rounds p options := by
  obtain ⟨-, henv, herrors⟩ := run_of_check h
  have hall : GoesThrough (collectTypes {} p.leaves >>= fun r => checkStructs options p r.1 r.2) :=
    ⟨{}, rfl, herrors⟩
  -- peel the rounds off from the first to the last
  obtain ⟨htypes, hrest⟩ := hall.bind (tame_collectTypes _ _).onlyAdds (onlyAdds_checkStructs _ _)
  obtain ⟨hstructs, hrest⟩ := hrest.bind (tame_resolveStructs _ _).onlyAdds
    ((onlyAdds_checkInheritance _).bind fun _ => onlyAdds_checkSignatures _)
  obtain ⟨hinheritance, hrest⟩ := hrest.bind (onlyAdds_checkInheritance _)
    (onlyAdds_checkSignatures _)
  obtain ⟨hsignatures, hrest⟩ := hrest.bind (tame_collectSignatures _ _).onlyAdds
    ((onlyAdds_checkItems _ _).map _)
  obtain ⟨hitems, -⟩ := hrest.bind (onlyAdds_checkItems _ _) (.pure _)
  exact ⟨henv.symm.trans value_checkAll,
    ⟨htypes, hstructs, hinheritance, hsignatures, hitems⟩⟩

end Rounds

/-!
## The last round
-/

mutual

/-- Each item inside an item that goes through does so itself. -/
theorem GoesThrough.of_mem_leaves {cx scope} {i j : Item} (h : GoesThrough (checkItem cx scope i))
    (hj : j ∈ i.leaves) : ∃ scope', GoesThrough (checkItem cx scope' j) := by
  cases i with
  | scope span name inner =>
    rw [checkItem] at h
    have hinner := (h.bind (passes_checkItems cx scope.push inner).onlyAdds (.pure scope)).1
    exact of_mem_leavesOf hinner hj
  | struct | enum | synonym | test | principle | function | value =>
    cases List.mem_singleton.mp hj
    exact ⟨scope, h⟩

theorem GoesThrough.of_mem_leavesOf {cx scope items j} (h : GoesThrough (checkItems cx scope items))
    (hj : j ∈ Item.leavesOf items) : ∃ scope', GoesThrough (checkItem cx scope' j) := by
  cases items with
  | nil => cases hj
  | cons i items =>
    rw [checkItems] at h
    obtain ⟨hfirst, hrest⟩ :=
      h.bind (passes_checkItem cx scope i).onlyAdds (passes_checkItems cx _ items).onlyAdds
    rcases List.mem_append.mp hj with hj | hj
    · exact hfirst.of_mem_leaves hj
    · exact hrest.of_mem_leavesOf hj

end

section Items

variable {p : Program} {options : CheckOptions} {cp : CheckedProgram}

/-- Every item of an accepted program goes through in some scope. -/
theorem goesThrough_checkItem (h : p.check options = .ok cp) {i : Item} (hi : i ∈ p.leaves) :
    ∃ scope, GoesThrough (checkItem ⟨cp.env, options, []⟩ scope i) := by
  obtain ⟨henv, hrounds⟩ := Rounds.of_check h
  rw [henv]
  exact hrounds.items.of_mem_leavesOf hi

theorem gives_checkItem (h : p.check options = .ok cp) {i : Item} (hi : i ∈ p.leaves) :
    ∃ scope next, Gives (checkItem ⟨cp.env, options, []⟩ scope i) next := by
  obtain ⟨scope, hitem⟩ := goesThrough_checkItem h hi
  exact ⟨scope, _, hitem.result (passes_checkItem _ scope i).onlyAdds.gives⟩

theorem Program.mem_values_iff {d : Declaration} : d ∈ p.values ↔ .value d ∈ p.leaves := by
  unfold Program.values
  rw [List.mem_filterMap]
  constructor
  · rintro ⟨i, hi, hid⟩
    split at hid
    · cases hid
      exact hi
    · cases hid
  · exact fun hd => ⟨_, hd, rfl⟩

end Items

end Statute
