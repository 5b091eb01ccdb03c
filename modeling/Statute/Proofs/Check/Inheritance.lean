import Mathlib.Logic.Relation
import Mathlib.Order.Defs.Unbundled
import Statute.Proofs.Check.Structs

/-!
# Inheritance in accepted programs

In an accepted program every struct stands after its parent, so parents cannot lead back to where
they started: the inheritance chain of a struct is the struct and the chain of its parent, its
effective fields are those of its parent and its own, and the subtypes are the structs that extend
one another directly or through others, `inheritance_well_founded`.

A field is declared only once along a chain as far as structs with a parent are concerned. The
fields of a struct without parent are not compared with one another: fields are distinct just if
they are distinct in the struct at the end of the chain, `effective_fields_distinct_iff`.
-/

namespace Statute

open Checking List

variable {child ancestor : String} {s : StructDecl}

variable {parent next : Option Nat} {fields : List Field} {steps a : Nat} {name : String}

/-!
## Chains
-/

namespace Env

variable {members : List Nat}

/-- The second struct is the parent of the first. -/
def Parent (env : Env) (id pid : Nat) : Prop := env.parent? id = some pid

/-- Every struct stands after its parent. -/
def Descending (env : Env) : Prop := ∀ id pid, env.Parent id pid → pid < id

variable {env : Env} {id pid : Nat}

theorem parent?_of_struct? (h : env.struct? id = some (parent, fields)) :
    env.parent? id = parent := by
  unfold parent?
  rw [h]
  rfl

theorem ownFields_of_struct? (h : env.struct? id = some (parent, fields)) :
    env.ownFields id = fields := by
  unfold ownFields
  rw [h]
  rfl

theorem Parent.isSome_struct? (h : env.Parent id pid) : (env.struct? id).isSome := by
  obtain ⟨struct, hstruct, -⟩ := Option.bind_eq_some_iff.mp h
  rw [hstruct]
  rfl

theorem climb_none (steps : Nat) (members : List Nat) :
    env.climb steps members none = ⟨members, none⟩ := by
  rw [climb]

theorem climb_new (h : id ∉ members) (steps : Nat) :
    env.climb (steps + 1) members (some id) =
      env.climb steps (members ++ [id]) (env.parent? id) := by
  rw [climb, if_neg (by simpa using h)]

theorem chain_of_root (hroot : env.parent? id = none) : env.chain id = ⟨[id], none⟩ := by
  unfold chain
  rw [climb_new (by simp), hroot, climb_none, nil_append]

theorem effectiveFields_of_root (hroot : env.parent? id = none) :
    env.effectiveFields id = env.ownFields id := by
  unfold effectiveFields
  rw [chain_of_root hroot]
  simp

/-- Whoever is met on the way up is reached through parents. -/
theorem reaches_of_mem_climb (hmembers : ∀ m ∈ members, Relation.ReflTransGen env.Parent id m)
    (hnext : ∀ n ∈ next, Relation.ReflTransGen env.Parent id n) :
    ∀ m ∈ (env.climb steps members next).members, Relation.ReflTransGen env.Parent id m := by
  induction steps generalizing members next with
  | zero =>
    cases next with
    | none | some n => exact hmembers
  | succ steps ih =>
    cases next with
    | none => exact hmembers
    | some n =>
      have hn := hnext n rfl
      rw [climb]
      split
      · exact hmembers
      refine ih (fun m hm => ?_) fun k hk => hn.tail hk
      rcases mem_append.mp hm with hm | hm
      · exact hmembers m hm
      · rwa [mem_singleton.mp hm]

theorem reaches_of_mem_chain (h : a ∈ (env.chain id).members) :
    Relation.ReflTransGen env.Parent id a := by
  refine reaches_of_mem_climb (by simp) (fun n hn => ?_) a h
  cases hn
  exact .refl

theorem subset_climb (steps : Nat) (members : List Nat) (next : Option Nat) :
    members ⊆ (env.climb steps members next).members := by
  induction steps generalizing members next with
  | zero => cases next <;> exact List.Subset.refl _
  | succ steps ih =>
    cases next with
    | none => exact List.Subset.refl _
    | some n =>
      rw [climb]
      split
      · exact List.Subset.refl _
      · exact fun m hm => ih _ _ (mem_append_left _ hm)

theorem mem_chain_self (id : Nat) : id ∈ (env.chain id).members := by
  unfold chain
  rw [climb_new (by simp), nil_append]
  exact subset_climb _ _ _ (mem_singleton_self id)

/-- A declared name is a subtype of itself, whatever else is declared. -/
theorem isSubtype_self (h : env.idOf? name = some id) : env.isSubtype name name := by
  unfold isSubtype
  rw [h]
  exact contains_iff_mem.mpr (mem_chain_self id)

namespace Descending

variable (h : env.Descending)

include h

theorem climb (hid : id < steps) (hmembers : ∀ m ∈ members, id < m) :
    env.climb steps members (some id) = ⟨members ++ (env.chain id).members, none⟩ := by
  induction id using Nat.strong_induction_on generalizing steps members with
  | _ id ih =>
    obtain ⟨n, rfl⟩ : ∃ n, steps = n + 1 := ⟨steps - 1, by omega⟩
    have hnew : id ∉ members := fun hmem => Nat.lt_irrefl id (hmembers id hmem)
    unfold chain
    rw [climb_new hnew, climb_new (by simp)]
    cases hparent : env.parent? id with
    | none => rw [climb_none, climb_none, nil_append]
    | some pid =>
      -- the parent comes before the struct and before all members
      have hlt := h id pid hparent
      have hsize := lt_size_of_struct? (Parent.isSome_struct? hparent)
      rw [ih pid hlt (by omega), ih pid hlt (by omega)]
      · rw [nil_append, append_assoc]
      · grind
      · grind

/-- The chain of a struct is the struct and the chain of its parent. -/
theorem chain_of_parent (hparent : env.Parent id pid) :
    env.chain id = ⟨id :: (env.chain pid).members, none⟩ := by
  have hlt := h id pid hparent
  have hsize := lt_size_of_struct? hparent.isSome_struct?
  have hfirst : env.chain id = env.climb env.size [id] (some pid) := by
    unfold chain
    rw [climb_new (by simp), hparent, nil_append]
  rw [hfirst, h.climb (by omega) (by simpa using hlt)]
  rfl

theorem repeated_chain (id : Nat) : (env.chain id).repeated = none := by
  cases hparent : env.parent? id with
  | none => rw [chain_of_root hparent]
  | some pid => rw [h.chain_of_parent hparent]

theorem mem_chain_iff : a ∈ (env.chain id).members ↔ Relation.ReflTransGen env.Parent id a := by
  refine ⟨reaches_of_mem_chain, fun hreaches => ?_⟩
  -- from the ancestor down: each step puts one more struct in front of the chain
  induction hreaches using Relation.ReflTransGen.head_induction_on with
  | refl =>
    cases hparent : env.parent? a with
    | none => simp [chain_of_root hparent]
    | some pid => simp [h.chain_of_parent hparent]
  | head hparent _ ih =>
    rw [h.chain_of_parent hparent]
    exact mem_cons_of_mem _ ih

/-- The effective fields are those of the parent and the own ones. -/
theorem effectiveFields_of_parent (hparent : env.Parent id pid) :
    env.effectiveFields id = env.effectiveFields pid ++ env.ownFields id := by
  unfold effectiveFields
  rw [h.chain_of_parent hparent]
  simp

theorem inheritedOwners_of_parent (hparent : env.Parent id pid) :
    env.inheritedOwners id = (env.effectiveFields pid).map fun f => (f.name, f.owner) := by
  unfold inheritedOwners effectiveFields
  rw [h.chain_of_parent hparent, map_flatMap]
  rfl

theorem le_of_reaches (hreaches : Relation.ReflTransGen env.Parent id a) : a ≤ id := by
  induction hreaches with
  | refl => exact Nat.le_refl _
  | tail _ hparent ih => exact Nat.le_trans (Nat.le_of_lt (h _ _ hparent)) ih

end Descending

end Env

/-!
## What the checks of inheritance ask for
-/

section Checks

variable {env : Env}

/-- Without a known loop, each loop is reported. -/
theorem passes_checkCycles (structs : List DeclaredStruct) :
    Passes (checkCycles env [] structs) fun _ =>
      ∀ s ∈ structs, env.loops s.id = false := by
  induction structs with
  | nil => exact .pure fun s hs => nomatch hs
  | cons s structs ih =>
    rw [checkCycles]
    unfold Env.Chain.loop?
    split
    next hloop =>
      refine ih.mono fun _ hrest => forall_mem_cons.mpr ⟨?_, hrest⟩
      simpa [Env.loops] using hloop
    · rw [if_neg (by simp)]
      exact .fault (onlyAdds_checkCycles _ _)

theorem passes_forEachSound {act : DeclaredStruct → Checking Unit} {P : DeclaredStruct → Prop}
    (hact : ∀ s, Passes (act s) fun _ => P s) (structs : List DeclaredStruct) :
    Passes (forEachSound env act structs) fun _ =>
      ∀ s ∈ structs, env.loops s.id = false → P s := by
  induction structs with
  | nil => exact .pure fun s hs => nomatch hs
  | cons s structs ih =>
    rw [forEachSound]
    split
    next hloops => grind
    · refine (hact s).bind fun _ => ih.mono fun _ hrest hs => ?_
      exact forall_mem_cons.mpr ⟨fun _ => hs, hrest⟩

/-- The fields of a struct are declared neither twice nor by those that are given. -/
theorem passes_checkOwnFields (struct : String) (owners : List (String × String))
    (fields : List FieldDecl) :
    Passes (checkOwnFields struct owners fields) fun _ =>
      (owners.map (·.1) ++ fields.map (·.name.name)).Nodup ↔ (owners.map (·.1)).Nodup := by
  induction fields generalizing owners with
  | nil => exact .pure (by simp)
  | cons f fields ih =>
    rw [checkOwnFields]
    split
    · exact .fault (tame_checkOwnFields _ _ _).onlyAdds
    next hnew =>
      refine (ih _).mono fun _ hrest => ?_
      have hnotMem : f.name.name ∉ owners.map (·.1) := by grind
      rw [map_append, append_assoc] at hrest
      refine hrest.trans ?_
      rw [map_singleton, nodup_append]
      refine ⟨fun h => h.1, fun h => ⟨h, by simp, fun a ha b hb heq => ?_⟩⟩
      rw [heq, mem_singleton.mp hb] at ha
      exact hnotMem ha

/-- A parent comes first, and the fields of a struct are new. -/
theorem passes_checkParent (s : DeclaredStruct) :
    Passes (checkParent env s) fun _ => ∀ pid, env.Parent s.id pid → pid < s.id ∧
      (((env.inheritedOwners s.id).map (·.1) ++ s.decl.fields.map (·.name.name)).Nodup ↔
        ((env.inheritedOwners s.id).map (·.1)).Nodup) := by
  unfold checkParent Env.Parent
  split
  next hparent =>
    refine .pure fun pid h => ?_
    rw [hparent] at h
    cases h
  next pid hparent =>
    refine (Passes.faultIf _ _ _).bind fun _ => ?_
    refine (passes_checkOwnFields _ _ _).mono fun _ hfields hlater pid' h => ?_
    rw [hparent] at h
    cases h
    exact ⟨by simpa using hlater, hfields⟩

theorem passes_checkInheritance (cx : Context) (structs : List DeclaredStruct) :
    Passes (checkInheritance cx structs) fun _ => ∀ s ∈ structs, ∀ pid, cx.env.Parent s.id pid →
      pid < s.id ∧
        (((cx.env.inheritedOwners s.id).map (·.1) ++ s.decl.fields.map (·.name.name)).Nodup ↔
          ((cx.env.inheritedOwners s.id).map (·.1)).Nodup) := by
  refine (passes_checkCycles structs).bind fun _ => ?_
  refine (passes_forEachSound passes_checkParent structs).bind fun _ => ?_
  refine (onlyAdds_forEachSound (fun s => onlyAdds_checkConditions _ _) structs).passes ?_
  exact fun _ _ hsound hcycles s hs => hsound s hs (hcycles s hs)

end Checks

/-!
## Structs that extend others
-/

namespace Env

variable {env env' : Env}

theorem idOf?_inj {a b id} (ha : env.idOf? a = some id) (hb : env.idOf? b = some id) : a = b := by
  obtain ⟨hlt, hname, -⟩ := findIdx?_eq_some_iff_getElem.mp ha
  obtain ⟨_, hname', -⟩ := findIdx?_eq_some_iff_getElem.mp hb
  exact (beq_iff_eq.mp hname).symm.trans (beq_iff_eq.mp hname')

theorem structId?_eq_some_iff {id : Nat} :
    env.structId? name = some id ↔ env.idOf? name = some id ∧ (env.struct? id).isSome :=
  Option.filter_eq_some_iff

section Defs

variable (h : env'.defs = env.defs)

include h

theorem struct?_of_defs (id : Nat) : env'.struct? id = env.struct? id := by
  refine struct?_of_def? ?_
  unfold def?
  rw [h]

theorem parent?_of_defs (id : Nat) : env'.parent? id = env.parent? id := by
  unfold parent?
  rw [struct?_of_defs h]

theorem ownFields_of_defs (id : Nat) : env'.ownFields id = env.ownFields id := by
  unfold ownFields
  rw [struct?_of_defs h]

theorem climb_of_defs (steps : Nat) (members : List Nat) (next : Option Nat) :
    env'.climb steps members next = env.climb steps members next := by
  induction steps generalizing members next with
  | zero => cases next <;> rfl
  | succ steps ih =>
    cases next with
    | none => rfl
    | some id =>
      rw [climb, climb, parent?_of_defs h, ih]

theorem chain_of_defs (id : Nat) : env'.chain id = env.chain id := by
  unfold chain size
  rw [h]
  exact climb_of_defs h _ _ _

theorem effectiveFields_of_defs (id : Nat) : env'.effectiveFields id = env.effectiveFields id := by
  unfold effectiveFields
  rw [chain_of_defs h, funext (ownFields_of_defs h)]

theorem inheritedOwners_of_defs (id : Nat) : env'.inheritedOwners id = env.inheritedOwners id := by
  unfold inheritedOwners
  rw [chain_of_defs h]
  simp only [ownFields_of_defs h]

theorem isSubtype_of_defs (child ancestor : String) :
    env'.isSubtype child ancestor = env.isSubtype child ancestor := by
  unfold isSubtype idOf?
  rw [h]
  simp only [chain_of_defs h]

end Defs

end Env

namespace Program

/-- A struct of the one name extends, as it is declared, one of the other. -/
def Extends (p : Program) (child parent : String) : Prop :=
  ∃ s ∈ p.structs, s.name.name = child ∧ s.parent.map (·.name) = some parent

variable {p : Program} {id pid : Nat}

/-- Who has a parent is declared to extend it. -/
theorem extends_of_parent (h : p.declared.Parent id pid) : ∃ child parent,
    p.declared.idOf? child = some id ∧ p.declared.idOf? parent = some pid ∧
      p.Extends child parent := by
  obtain ⟨s, hs, rfl⟩ := p.exists_placed h.isSome_struct?
  obtain ⟨hmem, hstored⟩ := p.stored hs
  rw [Env.Parent, Env.parent?_of_struct? hstored.struct] at h
  obtain ⟨parent, hparent, hpid⟩ := Option.bind_eq_some_iff.mp h
  have hplace := (Env.structId?_eq_some_iff.mp hpid).1
  refine ⟨_, parent.name, hstored.place, hplace, s.decl, hmem, rfl, ?_⟩
  rw [hparent]
  rfl

theorem extends_of_reaches (h : Relation.ReflTransGen p.declared.Parent id pid)
    (hchild : p.declared.idOf? child = some id) (hancestor : p.declared.idOf? ancestor = some pid) :
    Relation.ReflTransGen p.Extends child ancestor := by
  induction h generalizing ancestor with
  | refl =>
    rw [Env.idOf?_inj hchild hancestor]
  | tail _ hparent ih =>
    obtain ⟨c, a, hc, ha, hextends⟩ := extends_of_parent hparent
    rw [Env.idOf?_inj hancestor ha]
    exact (ih hc).tail hextends

/-- Subtypes extend one another, whether the program is accepted or not. -/
theorem extends_of_isSubtype (h : p.declared.isSubtype child ancestor) :
    Relation.ReflTransGen p.Extends child ancestor := by
  unfold Env.isSubtype at h
  split at h
  next c a hc ha => exact extends_of_reaches (Env.reaches_of_mem_chain (by simpa using h)) hc ha
  · cases h

end Program

section Accepted

variable {p : Program} {options : CheckOptions} {id pid : Nat}

section

variable (h : Rounds p options)

include h

theorem Rounds.exists_stored (hs : s ∈ p.structs) : ∃ id, s.Stored p.declared id := by
  rw [← h.placed] at hs
  obtain ⟨s', hs', rfl⟩ := mem_map.mp hs
  exact ⟨s'.id, (p.stored hs').2⟩

/-- What the checks of inheritance have found to hold. -/
theorem Rounds.inherits {s : DeclaredStruct} (hs : s ∈ p.placed)
    (hparent : p.declared.Parent s.id pid) :
    pid < s.id ∧
      (((p.declared.inheritedOwners s.id).map (·.1) ++ s.decl.fields.map (·.name.name)).Nodup ↔
        ((p.declared.inheritedOwners s.id).map (·.1)).Nodup) := by
  rw [Env.inheritedOwners_of_defs p.defs_declared]
  refine h.inheritance.result (passes_checkInheritance _ _) s hs pid ?_
  exact (Env.parent?_of_defs p.defs_declared s.id).symm.trans hparent

theorem Rounds.descending : p.declared.Descending := by
  intro id pid hparent
  obtain ⟨s, hs, rfl⟩ := p.exists_placed hparent.isSome_struct?
  exact (h.inherits hs hparent).1

/-- What is declared to extend another struct has it as its parent. -/
theorem Rounds.parent_of_extends {parent : String} (hextends : p.Extends child parent) :
    ∃ id pid, p.declared.idOf? child = some id ∧
      p.declared.idOf? parent = some pid ∧ p.declared.Parent id pid := by
  obtain ⟨s, hs, rfl, hname⟩ := hextends
  obtain ⟨ident, hident, rfl⟩ := Option.map_eq_some_iff.mp hname
  obtain ⟨id, hstored⟩ := h.exists_stored hs
  obtain ⟨pid, hpid, -⟩ := h.hasParentIn hs ident hident
  refine ⟨id, pid, hstored.place, (Env.structId?_eq_some_iff.mp hpid).1, ?_⟩
  rw [Env.Parent, Env.parent?_of_struct? hstored.struct, StructDecl.parentIn, hident]
  exact hpid

theorem Rounds.reaches_of_extends (hextends : Relation.ReflTransGen p.Extends child ancestor)
    (hchild : p.declared.idOf? child = some id) :
    ∃ aid,
      p.declared.idOf? ancestor = some aid ∧ Relation.ReflTransGen p.declared.Parent id aid := by
  induction hextends with
  | refl => exact ⟨id, hchild, .refl⟩
  | tail _ hlast ih =>
    obtain ⟨mid, hmid, hreaches⟩ := ih
    obtain ⟨mid', aid, hmid', haid, hparent⟩ := h.parent_of_extends hlast
    cases hmid.symm.trans hmid'
    exact ⟨aid, haid, hreaches.tail hparent⟩

/-- Subtypes of a struct are those that extend it. -/
theorem Rounds.isSubtype_iff (hchild : p.declared.idOf? child = some id) :
    p.declared.isSubtype child ancestor ↔
      Relation.ReflTransGen p.Extends child ancestor := by
  refine ⟨Program.extends_of_isSubtype, fun hextends => ?_⟩
  obtain ⟨aid, haid, hreaches⟩ := h.reaches_of_extends hextends hchild
  unfold Env.isSubtype
  rw [hchild, haid]
  exact contains_iff_mem.mpr (h.descending.mem_chain_iff.mpr hreaches)

/-- Who extends something stands after it. -/
theorem Rounds.wellFounded_extends : WellFounded fun parent child => p.Extends child parent := by
  refine Subrelation.wf ?_ (measure fun n => (p.declared.idOf? n).getD 0).wf
  intro parent child hextends
  -- both are declared, so what names without a place are measured by does not matter
  obtain ⟨id, pid, hid, hpid, hparent⟩ := h.parent_of_extends hextends
  show (p.declared.idOf? parent).getD 0 < (p.declared.idOf? child).getD 0
  rw [hid, hpid]
  exact h.descending id pid hparent

theorem Rounds.antisymm_extends {a b : String} (ha : p.declared.idOf? a = some id)
    (hab : Relation.ReflTransGen p.Extends a b) (hba : Relation.ReflTransGen p.Extends b a) :
    a = b := by
  obtain ⟨bid, hbid, hup⟩ := h.reaches_of_extends hab ha
  obtain ⟨aid, haid, hdown⟩ := h.reaches_of_extends hba hbid
  cases ha.symm.trans haid
  have hle := h.descending.le_of_reaches hup
  have hge := h.descending.le_of_reaches hdown
  rw [Nat.le_antisymm hle hge] at hbid
  exact Env.idOf?_inj ha hbid

theorem Rounds.isStruct_iff :
    p.declared.isStruct name ↔ ∃ s ∈ p.structs, s.name.name = name := by
  constructor
  · intro hstruct
    obtain ⟨id, hid⟩ := Option.isSome_iff_exists.mp hstruct
    obtain ⟨hplace, hsome⟩ := Env.structId?_eq_some_iff.mp hid
    obtain ⟨s, hs, rfl⟩ := p.exists_placed hsome
    obtain ⟨hmem, hstored⟩ := p.stored hs
    exact ⟨s.decl, hmem, Env.idOf?_inj hstored.place hplace⟩
  · rintro ⟨s, hs, rfl⟩
    obtain ⟨id, hstored⟩ := h.exists_stored hs
    refine Option.isSome_iff_exists.mpr ⟨id, Env.structId?_eq_some_iff.mpr ⟨hstored.place, ?_⟩⟩
    rw [hstored.struct]
    rfl

end

/-- How structs inherit from one another in a program with the declarations `env`. -/
structure WellInherited (p : Program) (env : Env) : Prop where
  stored : ∀ s ∈ p.structs, ∃ id, s.Stored env id
  structs : ∀ name, env.isStruct name = true ↔ ∃ s ∈ p.structs, s.name.name = name
  /-- A parent is a struct without type parameters that is declared earlier. -/
  parents : ∀ id pid, env.Parent id pid →
    pid < id ∧ ∃ s ∈ p.structs, s.params = [] ∧ s.Stored env pid
  chains : ∀ id, (env.chain id).repeated = none
  fields : ∀ id pid, env.Parent id pid →
    env.effectiveFields id = env.effectiveFields pid ++ env.ownFields id
  wellFounded : WellFounded fun parent child => p.Extends child parent
  subtypes : ∀ child ancestor, env.isStruct child = true →
    (env.isSubtype child ancestor = true ↔ Relation.ReflTransGen p.Extends child ancestor)
  order : IsPartialOrder {name // env.isStruct name = true}
    fun child ancestor => env.isSubtype child ancestor = true

theorem Rounds.exists_parent (h : Rounds p options) (hparent : p.declared.Parent id pid) :
    ∃ s ∈ p.structs, s.params = [] ∧ s.Stored p.declared pid := by
  obtain ⟨child, parent, -, hpid, s, hs, -, hname⟩ := Program.extends_of_parent hparent
  obtain ⟨ident, hident, rfl⟩ := Option.map_eq_some_iff.mp hname
  obtain ⟨pid', hpid', hparams⟩ := h.hasParentIn hs ident hident
  obtain ⟨hplace, hsome⟩ := Env.structId?_eq_some_iff.mp hpid'
  cases hpid.symm.trans hplace
  obtain ⟨a, ha, rfl⟩ := p.exists_placed hsome
  obtain ⟨hmem, hstored⟩ := p.stored ha
  refine ⟨a.decl, hmem, ?_, hstored⟩
  rw [hstored.params] at hparams
  simpa using hparams

/-- Inheritance in an accepted program is well-founded: parents are declared earlier, chains end,
effective fields are those of the parent and then the own ones, and the subtypes are the reflexive
and transitive closure of what is declared, a partial order. -/
theorem inheritance_well_founded {cp : CheckedProgram} (h : p.check options = .ok cp) :
    WellInherited p cp.env := by
  obtain ⟨henv, h⟩ := Rounds.of_check h
  rw [henv]
  have hsubtypes (child ancestor : String) (hchild : p.declared.isStruct child = true) :
      p.declared.isSubtype child ancestor = true ↔
        Relation.ReflTransGen p.Extends child ancestor := by
    obtain ⟨id, hid⟩ := Option.isSome_iff_exists.mp hchild
    exact h.isSubtype_iff (Env.structId?_eq_some_iff.mp hid).1
  refine
    { stored := fun s hs => h.exists_stored hs
      structs := fun name => h.isStruct_iff
      parents := fun id pid hparent => ⟨h.descending id pid hparent, h.exists_parent hparent⟩
      chains := h.descending.repeated_chain
      fields := fun id pid hparent => h.descending.effectiveFields_of_parent hparent
      wellFounded := h.wellFounded_extends
      subtypes := hsubtypes
      order := { refl := ?_, trans := ?_, antisymm := ?_ } }
  · rintro ⟨a, ha⟩
    exact (hsubtypes a a ha).mpr .refl
  · rintro ⟨a, ha⟩ ⟨b, hb⟩ ⟨c, hc⟩ hab hbc
    exact (hsubtypes a c ha).mpr (((hsubtypes a b ha).mp hab).trans ((hsubtypes b c hb).mp hbc))
  · rintro ⟨a, ha⟩ ⟨b, hb⟩ hab hba
    obtain ⟨id, hid⟩ := Option.isSome_iff_exists.mp ha
    have hplace := (Env.structId?_eq_some_iff.mp hid).1
    exact Subtype.ext (h.antisymm_extends hplace ((hsubtypes a b ha).mp hab)
      ((hsubtypes b a hb).mp hba))

end Accepted

/-!
### Offences
-/

/-- A robbery is a theft, which is an act; a robbery is armed or not. -/
def offences : Program where
  name := "offences"
  items :=
    [.struct ⟨{}, "Act", [], none, [⟨{}, "intent", .prim {} .bool, none⟩]⟩,
      .scope {} "Property"
        [.struct ⟨{}, "Theft", [], some "Act",
          [⟨{}, "value", .prim {} .money, none⟩]⟩],
      .struct ⟨{}, "Robbery", [], some "Theft",
        [⟨{}, "armed", .prim {} .bool, none⟩]⟩]

def offencesEnv : Env where
  defs := [⟨"Act", {}, [], .struct none [⟨"intent", .bool, {}, none, "Act"⟩]⟩,
    ⟨"Theft", {}, [], .struct (some 0) [⟨"value", .prim .money, {}, none, "Theft"⟩]⟩,
    ⟨"Robbery", {}, [], .struct (some 1) [⟨"armed", .bool, {}, none, "Robbery"⟩]⟩]

theorem check_offences : offences.check = .ok ⟨offences, offencesEnv, []⟩ := check_eq_ok rfl

/-- A robbery has the fields of a theft and its own, and is an act because it extends one. -/
theorem offences_well_founded :
    offences.check = .ok ⟨offences, offencesEnv, []⟩ ∧ WellInherited offences offencesEnv ∧
    offencesEnv.effectiveFields 2 = offencesEnv.effectiveFields 1 ++ offencesEnv.ownFields 2 ∧
    Relation.ReflTransGen offences.Extends "Robbery" "Act" := by
  have h := inheritance_well_founded check_offences
  exact ⟨check_offences, h, h.fields 2 1 rfl, (h.subtypes "Robbery" "Act" rfl).mp rfl⟩

/-!
## Fields declared twice
-/

section Accepted

variable {p : Program} {options : CheckOptions} {id pid : Nat}

/-- The names of the own fields are those of the declaration. -/
theorem StructDecl.Stored.map_ownFields {env : Env} (h : s.Stored env id) :
    (env.ownFields id).map (·.name) = s.fields.map (·.name.name) := by
  rw [Env.ownFields_of_struct? h.struct, StructDecl.fieldsIn, map_map]
  rfl

/-- The fields of a struct are distinct if those of its parent are. -/
theorem Rounds.nodup_effectiveFields_of_parent (h : Rounds p options)
    (hparent : p.declared.Parent id pid) :
    ((p.declared.effectiveFields id).map (·.name)).Nodup ↔
      ((p.declared.effectiveFields pid).map (·.name)).Nodup := by
  obtain ⟨s, hs, rfl⟩ := p.exists_placed hparent.isSome_struct?
  have hfields := (h.inherits hs hparent).2
  rw [h.descending.inheritedOwners_of_parent hparent, map_map] at hfields
  rw [h.descending.effectiveFields_of_parent hparent, map_append,
    (p.stored hs).2.map_ownFields]
  exact hfields

theorem Rounds.nodup_effectiveFields_of_reaches (h : Rounds p options) {root : Nat}
    (hroot : p.declared.parent? root = none)
    (hreaches : Relation.ReflTransGen p.declared.Parent id root) :
    ((p.declared.effectiveFields id).map (·.name)).Nodup ↔
      ((p.declared.ownFields root).map (·.name)).Nodup := by
  induction hreaches using Relation.ReflTransGen.head_induction_on with
  | refl => rw [Env.effectiveFields_of_root hroot]
  | head hparent _ ih => exact (h.nodup_effectiveFields_of_parent hparent).trans ih

/-- Every chain ends in a struct without parent. -/
theorem Rounds.exists_root (h : Rounds p options)
    (hstruct : (p.declared.struct? id).isSome) :
    ∃ root, (p.declared.struct? root).isSome ∧ p.declared.parent? root = none ∧
      Relation.ReflTransGen p.declared.Parent id root := by
  induction id using Nat.strong_induction_on with
  | _ id ih =>
    cases hparent : p.declared.parent? id with
    | none => exact ⟨id, hstruct, hparent, .refl⟩
    | some pid =>
      obtain ⟨s, -, -, hstored⟩ := h.exists_parent hparent
      obtain ⟨root, hsome, hroot, hreaches⟩ := ih pid (h.descending id pid hparent)
        (by rw [hstored.struct]; rfl)
      exact ⟨root, hsome, hroot, hreaches.head hparent⟩

theorem Rounds.parentIn_eq_none_iff (h : Rounds p options) (hs : s ∈ p.structs) :
    s.parentIn p.declared = none ↔ s.parent = none := by
  unfold StructDecl.parentIn
  cases hparent : s.parent with
  | none => simp
  | some parent =>
    obtain ⟨pid, hpid, -⟩ := h.hasParentIn hs parent hparent
    simp [hpid]

/-- The effective fields of a struct of an accepted program hold those of its parent and its own,
and no name occurs twice just if none occurs twice in the struct without parent at the end of its
chain. -/
theorem effective_fields_distinct_iff {cp : CheckedProgram} (h : p.check options = .ok cp)
    {s : StructDecl} (hs : s ∈ p.structs) : ∃ id, s.Stored cp.env id ∧
      (∀ pid, cp.env.Parent id pid → cp.env.effectiveFields pid ⊆ cp.env.effectiveFields id) ∧
      s.fieldsIn cp.env ⊆ cp.env.effectiveFields id ∧
      (((cp.env.effectiveFields id).map (·.name)).Nodup ↔ ∀ root ∈ p.structs, root.parent = none →
        Relation.ReflTransGen p.Extends s.name.name root.name.name →
          (root.fields.map (·.name.name)).Nodup) := by
  obtain ⟨henv, h⟩ := Rounds.of_check h
  rw [henv]
  obtain ⟨id, hstored⟩ := h.exists_stored hs
  have hown := Env.ownFields_of_struct? hstored.struct
  refine ⟨id, hstored, fun pid hparent => ?_, ?_, fun hnodup root hmem hroot hextends => ?_,
    fun hroots => ?_⟩
  · rw [h.descending.effectiveFields_of_parent hparent]
    exact subset_append_left _ _
  · rw [← hown]
    cases hparent : p.declared.parent? id with
    | none => rw [Env.effectiveFields_of_root hparent]; exact List.Subset.refl _
    | some pid =>
      rw [h.descending.effectiveFields_of_parent hparent]
      exact subset_append_right _ _
  · -- a root that the struct extends is the one at the end of its chain
    obtain ⟨rid, hrid, hreaches⟩ := h.reaches_of_extends hextends hstored.place
    obtain ⟨rid', hroot'⟩ := h.exists_stored hmem
    cases hrid.symm.trans hroot'.place
    have hnone := (Env.parent?_of_struct? hroot'.struct).trans
      ((h.parentIn_eq_none_iff hmem).mpr hroot)
    rw [← hroot'.map_ownFields]
    exact (h.nodup_effectiveFields_of_reaches hnone hreaches).mp hnodup
  · obtain ⟨rid, hsome, hnone, hreaches⟩ := h.exists_root (by rw [hstored.struct]; rfl)
    obtain ⟨root, hplaced, rfl⟩ := p.exists_placed hsome
    obtain ⟨hmem, hroot⟩ := p.stored hplaced
    refine (h.nodup_effectiveFields_of_reaches hnone hreaches).mpr ?_
    rw [hroot.map_ownFields]
    refine hroots root.decl hmem ?_ (Program.extends_of_reaches hreaches hstored.place hroot.place)
    exact (h.parentIn_eq_none_iff hmem).mp ((Env.parent?_of_struct? hroot.struct).symm.trans hnone)

end Accepted

theorem robbery_fields_distinct :
    offences.check = .ok ⟨offences, offencesEnv, []⟩ ∧
    ∃ s ∈ offences.structs, s.name.name = "Robbery" ∧ ∃ id, s.Stored offencesEnv id ∧
      ((offencesEnv.effectiveFields id).map (·.name)).Nodup := by
  have hs : offences.structs[2] ∈ offences.structs := getElem_mem _
  obtain ⟨id, hstored, -, -, hdistinct⟩ := effective_fields_distinct_iff check_offences hs
  refine ⟨check_offences, _, hs, rfl, id, hstored, hdistinct.mpr fun root hroot hnone _ => ?_⟩
  have hroots : ∀ root ∈ offences.structs, root.parent = none →
      (root.fields.map (·.name.name)).Nodup := by decide
  exact hroots root hroot hnone

/-- An act that has its intent twice, and a theft. -/
def repetitive : Program where
  name := "repetitive"
  items :=
    [.struct ⟨{}, "Act", [], none,
        [⟨{}, "intent", .prim {} .bool, none⟩, ⟨{}, "intent", .prim {} .bool, none⟩]⟩,
      .struct ⟨{}, "Theft", [], some "Act",
        [⟨{}, "value", .prim {} .money, none⟩]⟩]

def repetitiveEnv : Env where
  defs := [⟨"Act", {}, [], .struct none
      [⟨"intent", .bool, {}, none, "Act"⟩, ⟨"intent", .bool, {}, none, "Act"⟩]⟩,
    ⟨"Theft", {}, [], .struct (some 0) [⟨"value", .prim .money, {}, none, "Theft"⟩]⟩]

/-- A field declared twice in a struct without parent goes unnoticed, there and in the structs that
extend it. -/
theorem fields_repeated_unnoticed :
    repetitive.check = .ok ⟨repetitive, repetitiveEnv, []⟩ ∧
    (repetitiveEnv.effectiveFields 0).map (·.name) = ["intent", "intent"] ∧
    (repetitiveEnv.effectiveFields 1).map (·.name) = ["intent", "intent", "value"] :=
  ⟨check_eq_ok rfl, rfl, rfl⟩

end Statute
