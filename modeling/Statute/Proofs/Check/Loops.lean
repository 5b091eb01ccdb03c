import Mathlib.Data.List.Cycle
import Statute.Proofs.Check.Inheritance
import Statute.Proofs.Check.Options

/-!
# Loops of parents

A declared struct extends at most one other, so going up from a struct comes to an end or into a
loop. Each loop is reported once, by whichever struct leads into it first, and the report lists its
members from where it was entered: `loops_reported`. This holds of every program, whatever else is
wrong with it.

Two loops that share a member are the same, since parents are unique. So a loop is new exactly if
none of its members is known, which is how the check tells.
-/

namespace Statute

open Checking List

variable {name : String} {q : Nat × List Nat}

/-!
## Loops of a relation
-/

/-- One member leads to the next and the last to the first, and no member comes twice. -/
structure IsLoop {α : Type} (r : α → α → Prop) (c : Cycle α) : Prop where
  nonempty : c ≠ Cycle.nil
  nodup : c.Nodup
  chain : c.Chain r

section IsLoop

variable {α : Type} {r : α → α → Prop} {a : α} {c c' : Cycle α}

/-- A cycle can be entered at each of its members. -/
theorem exists_cons_of_mem (h : a ∈ c) : ∃ l : List α, c = (a :: l : List α) := by
  induction c using Quotient.inductionOn' with
  | h l =>
    obtain ⟨l₁, l₂, rfl⟩ := mem_iff_append.mp (Cycle.mem_coe_iff.mp h)
    exact ⟨l₂ ++ l₁, Cycle.coe_eq_coe.mpr isRotated_append⟩

/-- Whoever stands in a chain before something leads on. -/
theorem exists_next {x l} (h : (l ++ [x]).IsChain r) (ha : a ∈ l) : ∃ b ∈ l ++ [x], r a b := by
  obtain ⟨l₁, l₂, rfl⟩ := mem_iff_append.mp ha
  rw [append_assoc, cons_append] at h ⊢
  cases l₂ with
  | nil => exact ⟨x, by simp, (isChain_append_cons_cons.mp h).2.1⟩
  | cons b l₂ => exact ⟨b, by simp, (isChain_append_cons_cons.mp h).2.1⟩

theorem IsLoop.exists_next (h : IsLoop r c) (ha : a ∈ c) : ∃ b ∈ c, r a b := by
  obtain ⟨l, rfl⟩ := exists_cons_of_mem ha
  have hchain : ((a :: l) ++ [a]).IsChain r := (Cycle.chain_coe_cons r a l).mp h.chain
  obtain ⟨b, hb, hab⟩ := Statute.exists_next hchain mem_cons_self
  refine ⟨b, Cycle.mem_coe_iff.mpr ?_, hab⟩
  rcases mem_append.mp hb with hb | hb
  · exact hb
  · exact mem_singleton.mp hb ▸ mem_cons_self

variable (hr : ∀ a b b', r a b → r a b' → b = b')

include hr

/-- Where each leads to one thing only, there is one way to come to `x` for the first time. -/
theorem eq_of_isChain {x y l l'} (h : (y :: (l ++ [x])).IsChain r)
    (h' : (y :: (l' ++ [x])).IsChain r) (hx : x ∉ l) (hx' : x ∉ l') : l = l' := by
  induction l generalizing y l' with
  | nil =>
    cases l' with
    | nil => rfl
    | cons z l' => grind
  | cons z l ih =>
    obtain ⟨hz, hrest⟩ := isChain_cons_cons.mp h
    cases l' with
    | nil | cons z' l' => grind

/-- Loops that share a member are the same. -/
theorem IsLoop.unique (h : IsLoop r c) (h' : IsLoop r c') (ha : a ∈ c) (ha' : a ∈ c') :
    c = c' := by
  obtain ⟨l, rfl⟩ := exists_cons_of_mem ha
  obtain ⟨l', rfl⟩ := exists_cons_of_mem ha'
  have hnot := (nodup_cons.mp (Cycle.nodup_coe_iff.mp h.nodup)).1
  have hnot' := (nodup_cons.mp (Cycle.nodup_coe_iff.mp h'.nodup)).1
  rw [eq_of_isChain hr ((Cycle.chain_coe_cons r a l).mp h.chain)
    ((Cycle.chain_coe_cons r a l').mp h'.chain) hnot hnot']

end IsLoop

variable {members l : List Nat}

/-!
## Chains of parents
-/

namespace Env

/-- The chain goes from each member to its parent, through none twice, and ends where there is no
parent or where a member comes again. -/
structure Climbs (env : Env) (c : Chain) : Prop where
  nodup : c.members.Nodup
  path : c.members.IsChain env.Parent
  last : ∀ m ∈ c.members.getLast?, env.parent? m = c.repeated
  again : ∀ e ∈ c.repeated, e ∈ c.members

variable {env : Env}

theorem climbs_climb {steps next} (hnodup : members.Nodup) (hpath : members.IsChain env.Parent)
    (hlast : ∀ m ∈ members.getLast?, env.parent? m = next)
    (hsteps : members.length + steps = env.size + 1) :
    env.Climbs (env.climb steps members next) := by
  induction steps generalizing members next with
  | zero =>
    cases next with
    | none => exact ⟨hnodup, hpath, hlast, by simp [climb]⟩
    | some id =>
      -- all members have parents, so they are definitions, and there are not so many of them
      have hchain : (members ++ [id]).IsChain env.Parent :=
        isChain_append.mpr ⟨hpath, .singleton id, by simpa [Parent] using hlast⟩
      have hsub : members ⊆ List.range env.size := fun m hm => by
        obtain ⟨n, -, hparent⟩ := exists_next hchain hm
        exact mem_range.mpr (lt_size_of_struct? hparent.isSome_struct?)
      have hle := (hnodup.subperm hsub).length_le
      rw [length_range] at hle
      omega
  | succ steps ih =>
    cases next with
    | none => exact ⟨hnodup, hpath, hlast, by simp [climb]⟩
    | some id =>
      rw [climb]
      split
      next hmem => exact ⟨hnodup, hpath, hlast, by simpa using hmem⟩
      next hmem =>
        have hnew : id ∉ members := by simpa using hmem
        refine ih (nodup_append.mpr ⟨hnodup, by simp, ?_⟩)
          (isChain_append.mpr ⟨hpath, .singleton id, by simpa [Parent] using hlast⟩)
          (by simp) ?_
        · grind
        · grind

theorem climbs_chain (id : Nat) : env.Climbs (env.chain id) := by
  unfold chain
  rw [climb_new (by simp)]
  refine climbs_climb (by simp) (.singleton id) (by simp) ?_
  rw [nil_append, length_singleton]
  omega

/-- What is cut off from a chain as its loop is one. -/
theorem Climbs.loop {c : Chain} {e : Nat} (h : env.Climbs c) (hloop : c.loop? = some (e, l)) :
    ∃ l', l = e :: l' ∧ l ⊆ c.members ∧ IsLoop env.Parent (l : Cycle Nat) := by
  obtain ⟨e', hrepeated, heq⟩ := Option.map_eq_some_iff.mp hloop
  cases heq
  obtain ⟨l₁, l₂, hmembers⟩ := mem_iff_append.mp (h.again e hrepeated)
  have hnodup := h.nodup
  have hpath := h.path
  have hlast := h.last
  rw [hmembers] at hnodup hpath hlast ⊢
  have hcut : (l₁ ++ e :: l₂).dropWhile (· != e) = e :: l₂ := by
    rw [dropWhile_append_of_pos, dropWhile_cons_of_neg (by simp)]
    intro m hm
    have hne := (nodup_append.mp hnodup).2.2 m hm e mem_cons_self
    simpa using hne
  rw [hcut]
  refine ⟨l₂, rfl, subset_append_right _ _, by simp, ?_, ?_⟩
  · exact Cycle.nodup_coe_iff.mpr (nodup_append.mp hnodup).2.1
  rw [Cycle.chain_coe_cons, ← cons_append]
  refine isChain_append.mpr ⟨(isChain_append.mp hpath).2.1, .singleton e, ?_⟩
  intro m hm x hx
  obtain rfl : e = x := by simpa using hx
  exact (hlast m (by simpa using hm)).trans hrepeated

/-!
## What is found
-/

/-- The loops that are found from structs in turn, each with the member where it is entered, where
`known` lists the members of those that are known. -/
def newLoops (env : Env) : List Nat → List DeclaredStruct → List (Nat × List Nat)
  | _, [] => []
  | known, s :: rest =>
    match (env.chain s.id).loop? with
    | none => newLoops env known rest
    | some (e, members) =>
      if members.any known.contains then newLoops env known rest
      else (e, members) :: newLoops env (known ++ members) rest

/-- How a loop is reported. -/
def loopFinding (env : Env) (q : Nat × List Nat) : Finding :=
  ⟨.inheritanceCycle (env.nameOf q.1) ((q.2 ++ [q.1]).map env.nameOf),
    ((env.def? q.1).map (·.span)).getD {}⟩

theorem errors_checkCycles (known : List Nat) (structs : List DeclaredStruct) (r : Report) :
    ((checkCycles env known structs).run r).2.errors =
      r.errors ++ (env.newLoops known structs).map env.loopFinding := by
  induction structs generalizing known r with
  | nil => exact (append_nil _).symm
  | cons s rest ih =>
    rw [checkCycles, newLoops]
    cases (env.chain s.id).loop? with
    | none => exact ih known r
    | some q =>
      by_cases hknown : q.2.any known.contains = true
      · simpa only [hknown, if_true] using ih known r
      · simp only [hknown]
        exact (ih (known ++ q.2) _).trans (append_assoc _ [_] _)

/-- The loops that lie before the structs are all found, apart from those that are known, and none
twice. -/
structure FindsLoops (env : Env) (known : List Nat) (structs : List DeclaredStruct)
    (ls : List (Nat × List Nat)) : Prop where
  sound : ∀ q ∈ ls, (∃ s ∈ structs, (env.chain s.id).loop? = some q) ∧ ∀ m ∈ q.2, m ∉ known
  apart : ls.Pairwise fun q q' => ∀ m ∈ q.2, m ∉ q'.2
  complete : ∀ s ∈ structs, ∀ q, (env.chain s.id).loop? = some q →
    ∃ m ∈ q.2, m ∈ known ∨ ∃ q' ∈ ls, m ∈ q'.2

theorem findsLoops_newLoops (known : List Nat) (structs : List DeclaredStruct) :
    env.FindsLoops known structs (env.newLoops known structs) := by
  induction structs generalizing known with
  | nil => exact ⟨by simp [newLoops], .nil, by simp⟩
  | cons s rest ih =>
    have hskip (hs : ∀ q, (env.chain s.id).loop? = some q → ∃ m ∈ q.2, m ∈ known) :
        env.FindsLoops known (s :: rest) (env.newLoops known rest) := by
      refine ⟨fun q hq => ?_, (ih known).apart, forall_mem_cons.mpr ⟨fun q hq => ?_, ?_⟩⟩
      · obtain ⟨⟨s', hs', hloop⟩, hnew⟩ := (ih known).sound q hq
        exact ⟨⟨s', mem_cons_of_mem s hs', hloop⟩, hnew⟩
      · grind
      · exact (ih known).complete
    rw [newLoops]
    split
    next hnone => exact hskip fun q hq => by simp [hnone] at hq
    next e members hloop =>
      split
      next hknown =>
        refine hskip fun q hq => ?_
        cases hloop.symm.trans hq
        simpa using hknown
      next hnew =>
        have hnew : ∀ m ∈ members, m ∉ known := by simpa using hnew
        have hrest := ih (known ++ members)
        refine ⟨forall_mem_cons.mpr ⟨⟨⟨s, mem_cons_self, hloop⟩, hnew⟩, fun q hq => ?_⟩,
          pairwise_cons.mpr ⟨fun q hq m hm hmq => ?_, hrest.apart⟩, fun s' hs' q hq => ?_⟩
        · obtain ⟨⟨s', hs', hloop'⟩, hnew'⟩ := hrest.sound q hq
          exact ⟨⟨s', mem_cons_of_mem s hs', hloop'⟩,
            fun m hm hk => hnew' m hm (mem_append_left _ hk)⟩
        · exact (hrest.sound q hq).2 m hmq (mem_append_right _ hm)
        rcases mem_cons.mp hs' with rfl | hs'
        · cases hloop.symm.trans hq
          obtain ⟨l, rfl, -⟩ := (climbs_chain s'.id).loop hloop
          exact ⟨e, mem_cons_self, .inr ⟨_, mem_cons_self, mem_cons_self⟩⟩
        obtain ⟨m, hm, hknown | ⟨q', hq', hmq'⟩⟩ := hrest.complete s' hs' q hq
        · rcases mem_append.mp hknown with hknown | hmembers
          · exact ⟨m, hm, .inl hknown⟩
          · exact ⟨m, hm, .inr ⟨_, mem_cons_self, hmembers⟩⟩
        · exact ⟨m, hm, .inr ⟨q', mem_cons_of_mem _ hq', hmq'⟩⟩

/-!
## Names
-/

theorem nameOf_of_idOf? {i : Nat} (h : env.idOf? name = some i) : env.nameOf i = name := by
  obtain ⟨hlt, hname, -⟩ := findIdx?_eq_some_iff_getElem.mp h
  unfold nameOf def?
  rw [getElem?_eq_getElem hlt]
  exact beq_iff_eq.mp hname

/-- The struct of one name extends that of another. -/
def Links (env : Env) (a b : String) : Prop :=
  ∃ i j, env.idOf? a = some i ∧ env.idOf? b = some j ∧ env.Parent i j

theorem Links.unique {a b b' : String} (h : env.Links a b) (h' : env.Links a b') : b = b' := by
  obtain ⟨i, j, ha, hb, hij⟩ := h
  obtain ⟨i', j', ha', hb', hij'⟩ := h'
  cases ha.symm.trans ha'
  cases hij.symm.trans hij'
  exact idOf?_inj hb hb'

/-- The names of a loop. -/
def loopNames (env : Env) (q : Nat × List Nat) : Cycle String := (q.2.map env.nameOf : List String)

section Named

variable (hnamed : ∀ i j, env.Parent i j →
  env.idOf? (env.nameOf i) = some i ∧ env.idOf? (env.nameOf j) = some j)

include hnamed

theorem isLoop_map (h : IsLoop env.Parent (l : Cycle Nat)) :
    IsLoop env.Links (l.map env.nameOf : List String) where
  nonempty := by simpa using h.nonempty
  nodup := by
    refine Cycle.nodup_coe_iff.mpr (List.Nodup.map_on (fun i hi j hj heq => ?_)
      (Cycle.nodup_coe_iff.mp h.nodup))
    obtain ⟨i', -, hi⟩ := h.exists_next (Cycle.mem_coe_iff.mpr hi)
    obtain ⟨j', -, hj⟩ := h.exists_next (Cycle.mem_coe_iff.mpr hj)
    exact Option.some.inj ((hnamed i i' hi).1.symm.trans (heq ▸ (hnamed j j' hj).1))
  chain := by
    rw [← Cycle.map_coe, Cycle.chain_map]
    exact h.chain.imp fun i j hij => ⟨i, j, (hnamed i j hij).1, (hnamed i j hij).2, hij⟩

/-- From a member of a loop, all that is reached is in the loop. -/
theorem mem_of_reaches {c} (hc : IsLoop env.Links c) {i m}
    (h : Relation.ReflTransGen env.Parent i m)
    (hi : env.nameOf i ∈ c ∧ env.idOf? (env.nameOf i) = some i) :
    env.nameOf m ∈ c ∧ env.idOf? (env.nameOf m) = some m := by
  induction h with
  | refl => exact hi
  | @tail m n _ hparent ih =>
    obtain ⟨b, hb, hlink⟩ := hc.exists_next ih.1
    obtain ⟨hm, hn⟩ := hnamed m n hparent
    exact ⟨hlink.unique ⟨m, n, hm, hn, hparent⟩ ▸ hb, hn⟩

variable {structs : List DeclaredStruct} {ls : List (Nat × List Nat)}
  (h : env.FindsLoops [] structs ls)

include h

theorem FindsLoops.isLoop (hq : q ∈ ls) :
    (∃ l, q.2 = q.1 :: l) ∧ IsLoop env.Parent (q.2 : Cycle Nat) ∧
      IsLoop env.Links (env.loopNames q) := by
  obtain ⟨⟨s, -, hloop⟩, -⟩ := h.sound q hq
  obtain ⟨l, hl, -, hcycle⟩ := (climbs_chain s.id).loop hloop
  exact ⟨⟨l, hl⟩, hcycle, isLoop_map hnamed hcycle⟩

/-- Loops with other members have other names. -/
theorem FindsLoops.nameOf_ne {q'} (hq : q ∈ ls) (hq' : q' ∈ ls) (hapart : ∀ m ∈ q.2, m ∉ q'.2)
    {m m'} (hm : m ∈ q.2) (hm' : m' ∈ q'.2) : env.nameOf m ≠ env.nameOf m' := by
  intro heq
  obtain ⟨-, hloop, -⟩ := h.isLoop hnamed hq
  obtain ⟨-, hloop', -⟩ := h.isLoop hnamed hq'
  obtain ⟨n, -, hn⟩ := hloop.exists_next (Cycle.mem_coe_iff.mpr hm)
  obtain ⟨n', -, hn'⟩ := hloop'.exists_next (Cycle.mem_coe_iff.mpr hm')
  have hsame := Option.some.inj ((hnamed m n hn).1.symm.trans (heq ▸ (hnamed m' n' hn').1))
  exact hapart m hm (hsame ▸ hm')

theorem FindsLoops.nodup : (ls.map env.loopNames).Nodup := by
  refine pairwise_map.mpr (h.apart.imp_of_mem fun {q q'} hq hq' hapart heq => ?_)
  obtain ⟨⟨l, hl⟩, -⟩ := h.isLoop hnamed hq
  have hentry : env.nameOf q.1 ∈ env.loopNames q :=
    Cycle.mem_coe_iff.mpr (mem_map_of_mem (hl ▸ mem_cons_self))
  rw [heq] at hentry
  obtain ⟨m, hm, hname⟩ := mem_map.mp (Cycle.mem_coe_iff.mp hentry)
  exact h.nameOf_ne hnamed hq hq' hapart (hl ▸ mem_cons_self) hm hname.symm

/-- If all structs have been looked at, all loops have been found. -/
theorem FindsLoops.mem_iff
    (hall : ∀ i, (env.struct? i).isSome → ∃ s ∈ structs, s.id = i) (c : Cycle String) :
    c ∈ ls.map env.loopNames ↔ IsLoop env.Links c := by
  constructor
  · intro hc
    obtain ⟨q, hq, rfl⟩ := mem_map.mp hc
    exact (h.isLoop hnamed hq).2.2
  intro hc
  obtain ⟨a, ha⟩ : ∃ a, a ∈ c := by
    induction c using Cycle.induction_on with
    | nil => exact absurd rfl hc.nonempty
    | cons a l _ => exact ⟨a, by simp⟩
  obtain ⟨b, -, i, j, hi, -, hparent⟩ := hc.exists_next ha
  obtain ⟨s, hs, rfl⟩ := hall i hparent.isSome_struct?
  -- going up from a member of the loop never leaves it, and so comes back
  have hinside {m : Nat} (hm : m ∈ (env.chain s.id).members) :
      env.nameOf m ∈ c ∧ env.idOf? (env.nameOf m) = some m :=
    mem_of_reaches hnamed hc (reaches_of_mem_chain hm)
      ⟨nameOf_of_idOf? hi ▸ ha, (hnamed s.id j hparent).1⟩
  have hclimbs : env.Climbs (env.chain s.id) := climbs_chain s.id
  obtain ⟨m, hm⟩ : ∃ m, (env.chain s.id).members.getLast? = some m :=
    Option.isSome_iff_exists.mp
      (getLast?_isSome.mpr (ne_nil_of_mem (mem_chain_self s.id)))
  obtain ⟨hmc, hmid⟩ := hinside (mem_of_getLast? hm)
  obtain ⟨-, -, m', e, hm', -, hlast⟩ := hc.exists_next hmc
  cases hmid.symm.trans hm'
  have hrepeated : (env.chain s.id).repeated = some e := (hclimbs.last m hm).symm.trans hlast
  have hloop : (env.chain s.id).loop? = some (e, (env.chain s.id).members.dropWhile (· != e)) := by
    rw [Chain.loop?, hrepeated]
    rfl
  obtain ⟨n, hn, hnil | ⟨q, hq, hnq⟩⟩ := h.complete s hs _ hloop
  · cases hnil
  obtain ⟨-, -, hsub, -⟩ := hclimbs.loop hloop
  have heq : c = env.loopNames q :=
    hc.unique (fun _ _ _ hl hl' => hl.unique hl') (h.isLoop hnamed hq).2.2 (hinside (hsub hn)).1
      (Cycle.mem_coe_iff.mpr (mem_map_of_mem hnq))
  exact heq ▸ mem_map_of_mem hq

end Named

end Env

/-!
## Declared structs
-/

/-- The name of the type that the item declares, if it declares one. -/
def Item.typeName? : Item → Option String
  | .struct d => some d.name.name
  | .enum d => some d.name.name
  | .synonym d => some d.name.name
  | .test _ | .principle _ | .function _ | .value _ | .scope _ _ _ => none

/-- The item that declares the type of the name: the first that declares one so called. -/
def typeItem? (items : List Item) (name : String) : Option Item :=
  items.find? fun i => i.typeName? == some name

theorem typeItem?_cons {i : Item} {own : String} (h : i.typeName? = some own) (items : List Item)
    (name : String) :
    typeItem? (i :: items) name = if own = name then some i else typeItem? items name := by
  unfold typeItem?
  split <;> simp_all

/-- The struct of the name; the built-in types stay what they are. -/
def Program.struct? (p : Program) (name : String) : Option StructDecl :=
  if (Prim.ofName? name).isSome then none else (typeItem? p.leaves name).bind Item.struct?

/-- The struct of one name is declared to extend the struct of another. -/
def Program.Links (p : Program) (child parent : String) : Prop :=
  ∃ s, p.struct? child = some s ∧ s.parent.map (·.name) = some parent ∧
    (p.struct? parent).isSome = true

theorem Item.struct?_eq_some_iff {i : Item} {d : StructDecl} :
    i.struct? = some d ↔ i = .struct d := by
  cases i <;> simp [Item.struct?]

/-- A definition takes its own name and no other. -/
theorem Env.frees_append_iff {env : Env} {d : TypeDef} :
    Env.Frees { env with defs := env.defs ++ [d] } name ↔ env.Frees name ∧ d.name ≠ name := by
  grind [Env.Frees]

theorem Item.typeName?_eq (i : Item) : i.typeName? = i.typeDef?.map (·.name) := by
  cases i <;> rfl

/-- The structs that get a place are those of free names. -/
theorem Gathers.placed_iff {env : Env} {items r} (h : Gathers env items r) (d : StructDecl) :
    (∃ s ∈ r.2, s.decl = d) ↔
      env.Frees d.name.name ∧ typeItem? items d.name.name = some (.struct d) := by
  induction h with
  | nil => simp [typeItem?]
  | @skip env i items r hi _ ih =>
    have hname : i.typeName? = none := by rw [Item.typeName?_eq, hi]; rfl
    simpa [typeItem?, find?_cons, hname] using ih
  | @taken env i items e r hi htaken _ ih =>
    have hown : i.typeName? = some e.name := by rw [Item.typeName?_eq, hi]; rfl
    rw [ih, typeItem?_cons hown]
    by_cases hname : e.name = d.name.name
    · have hnot : ¬env.Frees d.name.name := hname ▸ htaken
      simp [hnot]
    · simp [hname]
  | @added env i items e r hi hfree _ ih =>
    rw [Env.frees_append_iff] at ih
    have hown : i.typeName? = some e.name := by rw [Item.typeName?_eq, hi]; rfl
    rw [typeItem?_cons hown]
    have hfirst : (∃ s ∈ (i.struct?.map (DeclaredStruct.mk env.size)).toList ++ r.2, s.decl = d) ↔
        i = .struct d ∨ ∃ s ∈ r.2, s.decl = d := by
      cases i <;> simp [Item.struct?]
    rw [hfirst, ih]
    by_cases hname : e.name = d.name.name
    · have hfree : env.Frees d.name.name := hname ▸ hfree
      simp [hname, hfree]
    have hother : i ≠ .struct d := by
      rintro rfl
      exact hname (congrArg TypeDef.name (Option.some.inj hi)).symm
    simp [hname, hother]

theorem Env.links_of_defs {env env' : Env} (h : env'.defs = env.defs) {a b : String} :
    env'.Links a b ↔ env.Links a b := by
  unfold Env.Links Env.Parent Env.idOf?
  simp only [h, Env.parent?_of_defs h]

namespace Program

variable {p : Program}

theorem struct?_eq_some_iff {name : String} {d : StructDecl} :
    p.struct? name = some d ↔ d.name.name = name ∧ ∃ s ∈ p.placed, s.decl = d := by
  have hplaced : (∃ s ∈ p.placed, s.decl = d) ↔ _ := p.gathers.placed_iff d
  rw [hplaced]
  unfold struct?
  constructor
  · intro h
    split at h
    · cases h
    next hbuiltin =>
      obtain ⟨i, hi, hstruct⟩ := Option.bind_eq_some_iff.mp h
      obtain rfl := Item.struct?_eq_some_iff.mp hstruct
      have hname := find?_some (p := fun i : Item => i.typeName? == some name) hi
      obtain rfl : d.name.name = name := by simpa [Item.typeName?] using hname
      exact ⟨rfl, ⟨not_mem_nil, by simpa using hbuiltin⟩, hi⟩
  · rintro ⟨rfl, ⟨-, hbuiltin⟩, hi⟩
    rw [hbuiltin, hi]
    rfl

/-- The structs that are declared to extend one another are stored so. -/
theorem links_iff {a b : String} : p.Links a b ↔ p.typed.Links a b := by
  rw [← Env.links_of_defs p.defs_declared]
  constructor
  · rintro ⟨d, hd, hparent, hstruct⟩
    obtain ⟨rfl, s, hs, rfl⟩ := struct?_eq_some_iff.mp hd
    obtain ⟨d', hd'⟩ := Option.isSome_iff_exists.mp hstruct
    obtain ⟨rfl, s', hs', rfl⟩ := struct?_eq_some_iff.mp hd'
    obtain ⟨ident, hident, hname⟩ := Option.map_eq_some_iff.mp hparent
    have hstored := (p.stored hs).2
    have hstored' := (p.stored hs').2
    have hplace : s.decl.parentIn p.declared = some s'.id := by
      rw [StructDecl.parentIn, hident, Option.bind_some, hname]
      exact Env.structId?_eq_some_iff.mpr ⟨hstored'.place, by rw [hstored'.struct]; rfl⟩
    refine ⟨s.id, s'.id, hstored.place, hstored'.place, ?_⟩
    rw [Env.Parent, Env.parent?, hstored.struct, Option.bind_some, hplace]
  · rintro ⟨i, j, ha, hb, hparent⟩
    obtain ⟨s, hs, rfl⟩ := p.exists_placed hparent.isSome_struct?
    have hstored := (p.stored hs).2
    have hplace : s.decl.parentIn p.declared = some j := by
      rwa [Env.Parent, Env.parent?, hstored.struct] at hparent
    obtain ⟨ident, hident, hid⟩ := Option.bind_eq_some_iff.mp hplace
    obtain ⟨hj, hstruct⟩ := Env.structId?_eq_some_iff.mp hid
    obtain ⟨s', hs', rfl⟩ := p.exists_placed hstruct
    refine ⟨s.decl, struct?_eq_some_iff.mpr ⟨Env.idOf?_inj hstored.place ha, s, hs, rfl⟩, ?_, ?_⟩
    · rw [hident, Option.map_some, Env.idOf?_inj hj hb]
    · exact Option.isSome_iff_exists.mpr ⟨s'.decl, struct?_eq_some_iff.mpr
        ⟨Env.idOf?_inj (p.stored hs').2.place hb, s', hs', rfl⟩⟩

/-- What extends something and what is extended has a name. -/
theorem named_of_parent (i j : Nat) (h : p.typed.Parent i j) :
    p.typed.idOf? (p.typed.nameOf i) = some i ∧ p.typed.idOf? (p.typed.nameOf j) = some j := by
  have hparent : p.declared.Parent i j := (Env.parent?_of_defs p.defs_declared i).trans h
  obtain ⟨a, b, ha, hb, -⟩ := extends_of_parent hparent
  have hid (name : String) : p.declared.idOf? name = p.typed.idOf? name := by
    unfold Env.idOf?
    rw [p.defs_declared]
  rw [hid] at ha hb
  rw [Env.nameOf_of_idOf? ha, Env.nameOf_of_idOf? hb]
  exact ⟨ha, hb⟩

end Program

/-!
## Reports
-/

namespace Finding

/-- The error is about a loop of parents: it speaks of circular inheritance. There are other errors
of that kind, about parents that are declared too late and about aliases. -/
def isLoopReport (f : Finding) : Bool :=
  match f.fault.kind with
  | .circularInheritance _ => "circular inheritance".toList.isPrefixOf f.fault.message.toList
  | _ => false

/-- The error names a member of the loop, and its message lists the loop from there, back to where
it starts. -/
def ReportsLoop (f : Finding) (c : Cycle String) : Prop :=
  ∃ a l, c = (a :: l : List String) ∧ f.fault.kind = .circularInheritance a ∧
    f.fault.message = "circular inheritance: " ++ Fault.pathText (a :: l ++ [a])

theorem isLoopReport_eq {f : Finding} {start rest : String}
    (hkind : f.fault.kind = .circularInheritance name) (hmessage : f.fault.message = start ++ rest) :
    f.isLoopReport = "circular inheritance".toList.isPrefixOf (start.toList ++ rest.toList) := by
  unfold isLoopReport
  rw [hkind, hmessage, String.toList_append]

theorem isLoopReport_of_isOrdinary (f : Finding) (h : f.fault.isOrdinary) :
    f.isLoopReport = false := by
  obtain ⟨fault, span⟩ := f
  cases fault with
  | inheritanceCycle => cases h
  | parentDeclaredLater s p =>
    have hmessage : (Fault.parentDeclaredLater s p).message =
        "struct `" ++ (s ++ "` extends `" ++ p ++ "`, which must be declared before it") := by
      rfl
    rw [isLoopReport_eq rfl hmessage]
    rfl
  | aliasCycle n path =>
    have hmessage : (Fault.aliasCycle n path).message =
        "type alias cycle: " ++ Fault.pathText path := rfl
    rw [isLoopReport_eq rfl hmessage]
    rfl
  | _ => rfl

theorem message_loopFinding (env : Env) (q : Nat × List Nat) :
    (env.loopFinding q).fault.message =
      "circular inheritance: " ++ Fault.pathText ((q.2 ++ [q.1]).map env.nameOf) :=
  rfl

theorem isLoopReport_loopFinding (env : Env) (q : Nat × List Nat) :
    (env.loopFinding q).isLoopReport := by
  rw [isLoopReport_eq rfl (message_loopFinding env q)]
  rfl

/-- Findings that are all reported differently are all kept. -/
theorem foldl_keep {kept fs : List Finding}
    (h : (kept ++ fs).Pairwise fun f g => f.diagnostic ≠ g.diagnostic) :
    fs.foldl keep kept = kept ++ fs := by
  induction fs generalizing kept with
  | nil => exact (append_nil kept).symm
  | cons f fs ih =>
    have hnew : (kept.any fun g => g.diagnostic == f.diagnostic) = false := by grind
    rw [append_cons] at h ⊢
    rw [foldl_cons, keep, hnew]
    exact ih h

end Finding

/-- Whatever else is reported, no other error is about loops of parents. -/
theorem tolerant_isLoopReport (o : CheckOptions) (fs : List Finding) :
    Tolerant (fun r _ : Report => r.errors.filter Finding.isLoopReport = fs) o o where
  toNeutral := neutral_filter Finding.isLoopReport_of_isOrdinary fs
  bounds t value := by
    refine parallel_filter (fun f hf => ?_) fs
    rcases fault_of_mem_constantFaults hf with ⟨u, hfault⟩ | ⟨v, u, hfault⟩
    all_goals
      rw [Finding.isLoopReport, hfault]
      rfl
  warn f span := by
    split
    · exact fun r r' h => ⟨rfl, h⟩
    · exact .pure ()
  verdicts body info := by
    split
    · refine parallel_filter (fun f hf => ?_) fs
      obtain ⟨vs, hkind⟩ := kind_of_exclusivityFault? (Option.mem_toList.mp hf)
      rw [Finding.isLoopReport, hkind]
    · exact .pure ()

/-- About loops of parents, a check reports those that are found going up from one struct after
another. -/
theorem finds_checkAll (p : Program) (o : CheckOptions) : Finds Finding.isLoopReport
    (checkAll o p) ((p.typed.newLoops [] p.placed).map p.typed.loopFinding) := by
  refine Finds.bind_value (.of_parallel fun fs => tame_collectTypes {} p.leaves
    (tolerant_isLoopReport o fs).toNeutral) (tame_collectTypes _ _).onlyAdds ?_
  refine Finds.bind_value (.of_parallel fun fs => tame_resolveStructs p.named p.placed
    (tolerant_isLoopReport o fs).toNeutral) (tame_resolveStructs _ _).onlyAdds ?_
  have hcycles : Finds Finding.isLoopReport (checkCycles p.typed [] p.placed)
      ((p.typed.newLoops [] p.placed).map p.typed.loopFinding) := by
    intro r
    rw [Env.errors_checkCycles, filter_append]
    congr 1
    refine filter_eq_self.mpr fun f hf => ?_
    obtain ⟨q, -, rfl⟩ := mem_map.mp hf
    exact Finding.isLoopReport_loopFinding _ _
  refine Finds.bind (hcycles.bind fun _ => .of_parallel fun fs => ?_) fun _ =>
    .of_parallel fun fs => ?_
  · have h := tolerant_isLoopReport o fs
    refine (parallel_forEachSound (fun s => tame_checkParent s h.toNeutral) _).bind fun _ => ?_
    exact parallel_forEachSound (fun s => parallel_checkConditions h _ _) _
  have h := tolerant_isLoopReport o fs
  refine (tame_collectSignatures _ p.leaves h.toNeutral).bind fun env => ?_
  exact (parallel_checkItems h {} p.items).map _

section Loops

variable (p : Program)

/-- The loops of a program with their members by place, each from where it is entered. -/
def Program.loops : List (Nat × List Nat) := p.typed.newLoops [] p.placed

theorem Program.findsLoops : p.typed.FindsLoops [] p.placed p.loops :=
  Env.findsLoops_newLoops [] p.placed

/-- Loops are entered at different members, so that their errors are different. -/
theorem Program.distinct_loopFinding :
    Finding.distinct (p.loops.map p.typed.loopFinding) = p.loops.map p.typed.loopFinding := by
  have hfound := p.findsLoops
  refine @Finding.foldl_keep [] _ (pairwise_map.mpr ?_)
  refine hfound.apart.imp_of_mem fun {q q'} hq hq' hapart heq => ?_
  obtain ⟨⟨l, hl⟩, -⟩ := hfound.isLoop p.named_of_parent hq
  obtain ⟨⟨l', hl'⟩, -⟩ := hfound.isLoop p.named_of_parent hq'
  exact hfound.nameOf_ne p.named_of_parent hq hq' hapart (hl ▸ mem_cons_self)
    (hl' ▸ mem_cons_self) (FaultKind.circularInheritance.inj (congrArg Diagnostic.kind heq))

theorem Program.reportsLoop (hq : q ∈ p.loops) :
    (p.typed.loopFinding q).ReportsLoop (p.typed.loopNames q) := by
  obtain ⟨⟨l, hl⟩, -⟩ := p.findsLoops.isLoop p.named_of_parent hq
  refine ⟨p.typed.nameOf q.1, l.map p.typed.nameOf, ?_, rfl, ?_⟩
  · rw [Env.loopNames, hl, map_cons]
  · rw [Finding.message_loopFinding, hl, map_append]
    rfl

/-- Of the errors of a check, in whatever order they come, those about loops are these. -/
theorem Program.filter_isLoopReport (o : CheckOptions) :
    (p.outcome o).errors.filter Finding.isLoopReport =
      Finding.inOrder (p.loops.map p.typed.loopFinding) := by
  have herrors : (p.outcome o).errors =
      Finding.inOrder (Finding.distinct ((checkAll o p).run {}).2.errors) := rfl
  rw [herrors, Finding.filter_inOrder, Finding.filter_distinct, finds_checkAll p o {}]
  · exact congrArg Finding.inOrder p.distinct_loopFinding
  intro f g hsame
  unfold Finding.isLoopReport
  rw [show f.fault.kind = g.fault.kind from congrArg Diagnostic.kind hsame,
    show f.fault.message = g.fault.message from congrArg Diagnostic.message hsame]

end Loops

end Statute
