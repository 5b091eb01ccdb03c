import Statute.Proofs.NameMap
import Statute.Proofs.Search.Choice

/-!
# Every slot and every choice once

The slots of constants and functions lie one after the other, so that each slot belongs to one of
them: `tiled_ofVocabulary`. In the table of a function each slot is that of one tuple of arguments,
`slot?_bijOn`. A walk from the first choice on meets each choice once, `exists_visits`. The three
together are `slots_and_choices_once`.
-/

namespace Statute.Search

open Logic List BoundedSearch

/-!
## Slots
-/

/-- The slots of a function: one for each tuple of arguments, or a single one. -/
def FunctionSlots.slots (f : FunctionSlots) : List Nat :=
  List.range' f.first ((f.table.map tuples).getD 1)

/-- The slots found under the name of a constant. -/
def Space.constantSlots (s : Space) (c : ConstDecl) : List Nat :=
  (s.constants.lookup c.symbol).toList

/-- The slots found under the name of a function. -/
def Space.functionSlots (s : Space) (f : FunDecl) : List Nat :=
  (s.functions.lookup f.name).toList.flatMap FunctionSlots.slots

/-- The slots of all entries, one after the other, are all slots. -/
def Space.Tiled (s : Space) : Prop :=
  s.constants.flatMap ([·.2]) ++ s.functions.flatMap (·.2.slots) = List.range s.slots.size

/-- A function has as many slots as its table has tuples. -/
theorem tuples_of_tableSize? (domains : List Domain) :
    ((Space.tableSize? domains).map fun _ => tuples (domains.map (·.values))) =
      Space.tableSize? domains := by
  cases h : Space.tableSize? domains with
  | none => rfl
  | some n => rw [tupleCount?_eq_some (tupleCount?_of_tableSize? h).1, Nat.one_mul]; rfl

section Tiles

variable {s : Space}

theorem Space.Tiled.addConstant (h : s.Tiled) (hs : s.functions = []) (bound : Int)
    (c : ConstDecl) : (s.addConstant bound c).Tiled := by
  rw [Tiled, hs, flatMap_nil, append_nil] at h
  simp [Tiled, Space.addConstant, hs, h, List.range_succ]

theorem Space.Tiled.addFunction (h : s.Tiled) (f : FunDecl) : (s.addFunction f).Tiled := by
  have hsize : (s.addFunction f).slots.size = s.slots.size + slotCount s.sorts f := by
    simp [Space.addFunction, slotCount, argDomains]
  have hentry : (s.addFunction f).functions.flatMap (·.2.slots) =
      s.functions.flatMap (·.2.slots) ++ List.range' s.slots.size (slotCount s.sorts f) := by
    rw [slotCount, ← tuples_of_tableSize?]
    simp [Space.addFunction, FunctionSlots.slots, argDomains, Function.comp_def]
  rw [Tiled, hentry, hsize, ← append_assoc]
  refine (congrArg (· ++ _) h).trans ?_
  simpa [List.range_eq_range'] using List.range'_append_1 (s := 0)

theorem tiled_constants (bound : Int) (constants : List ConstDecl) (h : s.Tiled)
    (hs : s.functions = []) : (constants.foldl (Space.addConstant bound) s).Tiled := by
  induction constants generalizing s with
  | nil => exact h
  | cons c constants ih => exact ih (h.addConstant hs bound c) hs

theorem tiled_functions (functions : List FunDecl) (h : s.Tiled) :
    (functions.foldl Space.addFunction s).Tiled := by
  induction functions generalizing s with
  | nil => exact h
  | cons f functions ih => exact ih (h.addFunction f)

end Tiles

theorem tiled_ofVocabulary (v : Vocabulary) (bound : Int) : (Space.ofVocabulary v bound).Tiled :=
  tiled_functions _ (tiled_constants _ _ rfl rfl)

section Entries

variable {β γ δ : Type} {name : β → String} {R : β → γ → Prop} {as : List β}
  {entries : List (String × γ)}
  (h : List.Forall₂ (fun a entry => entry.1 = name a ∧ R a entry.2) as entries)
  (hnames : (as.map name).Nodup)

include h

theorem keys_eq : entries.map Prod.fst = as.map name := by
  rw [← forall₂_eq_eq_eq, forall₂_map_left_iff, forall₂_map_right_iff]
  exact h.flip.imp fun _ _ hentry => hentry.1

include hnames

/-- Under names that differ, each finds its own entry. -/
theorem lookup_of_mem {a : β} (ha : a ∈ as) : ∃ b, entries.lookup (name a) = some b ∧ R a b := by
  obtain ⟨⟨n, b⟩, hentry, hn, hR⟩ := exists_of_mem_left h ha
  obtain rfl : n = name a := hn
  exact ⟨b, (NameMap.lookup_eq_some_iff (keys_eq h ▸ hnames)).mpr hentry, hR⟩

theorem flatMap_lookup (g : γ → List δ) :
    as.flatMap (fun a => (entries.lookup (name a)).toList.flatMap g) =
      entries.flatMap (g ·.2) := by
  rw [← flatMap_map name fun n => (entries.lookup n).toList.flatMap g, ← keys_eq h, flatMap_map]
  refine flatMap_congr fun entry hentry => ?_
  rw [(NameMap.lookup_eq_some_iff (keys_eq h ▸ hnames)).mpr hentry]
  exact flatMap_singleton ..

end Entries

variable {v : Vocabulary} {bound : Int}

/-!
## Tables
-/

section Tables

universe u

variable {α : Type u} {e : Elements α} {domains : List (List Value)} {args : List Value}
  {index k : Nat}

/-- A value stands at one place only in a domain without repeats. -/
theorem findIdx?_getElem {d : List Value} (hd : d.Nodup) {i : Nat} (hi : i < d.length)
    (hmeaning : Meaningful e d[i]) : d.findIdx? (· == d[i]) = some i := by
  obtain ⟨x, hx⟩ := hmeaning
  refine findIdx?_eq_some_iff_getElem.mpr ⟨hi, (beq_iff_of_denotes hx).mpr rfl, ?_⟩
  intro j hj hsame
  have hij := hd.getElem_inj_iff.mp (eq_of_beq_of_denotes hx hsame)
  omega

/-- Each place is that of some tuple. -/
theorem exists_tuple (hnodup : ∀ d ∈ domains, d.Nodup)
    (hmeaning : ∀ d ∈ domains, ∀ a ∈ d, Meaningful e a) (hlow : index * tuples domains ≤ k)
    (hhigh : k < (index + 1) * tuples domains) :
    ∃ args, List.Forall₂ (· ∈ ·) args domains ∧ tupleIndex index args domains = some k := by
  induction domains generalizing index with
  | nil =>
    simp only [tuples, Nat.mul_one] at hlow hhigh
    exact ⟨[], .nil, congrArg some (by omega)⟩
  | cons d domains ih =>
    rw [forall_mem_cons] at hnodup hmeaning
    rw [tuples, ← Nat.mul_assoc] at hlow hhigh
    have hpos : 0 < tuples domains := Nat.pos_of_mul_pos_left (Nat.zero_lt_of_lt hhigh)
    -- the first argument is told by how many tuples of the others fit in front
    have hfirst := (Nat.le_div_iff_mul_le hpos).mpr hlow
    have hlast := (Nat.div_lt_iff_lt_mul hpos).mpr hhigh
    rw [Nat.succ_mul] at hlast
    have hi : k / tuples domains - index * d.length < d.length := by omega
    obtain ⟨args, hargs, hplace⟩ := ih hnodup.2 hmeaning.2 (Nat.div_mul_le_self k _)
      ((Nat.div_lt_iff_lt_mul hpos).mp (Nat.lt_succ_self _))
    refine ⟨d[k / tuples domains - index * d.length] :: args, .cons (getElem_mem hi) hargs, ?_⟩
    rw [tupleIndex, findIdx?_getElem hnodup.1 hi (hmeaning.1 _ (getElem_mem hi))]
    simpa [Nat.add_sub_cancel' hfirst] using hplace

/-- In a table each slot is that of one tuple of arguments. -/
theorem slot?_bijOn {entry : FunctionSlots} (htable : entry.table = some domains)
    (hnodup : ∀ d ∈ domains, d.Nodup) (hmeaning : ∀ d ∈ domains, ∀ a ∈ d, Meaningful e a) :
    Set.BijOn entry.slot? {args | List.Forall₂ (· ∈ ·) args domains}
      (some '' {slot | slot ∈ entry.slots}) := by
  have hslot (args : List Value) :
      entry.slot? args = (tupleIndex 0 args domains).map (entry.first + ·) := by
    rw [FunctionSlots.slot?, htable]
  have hargs {args : List Value} (h : List.Forall₂ (· ∈ ·) args domains) :
      ∀ a ∈ args, Meaningful e a := by
    intro a ha
    obtain ⟨d, hd, had⟩ := exists_of_mem_left h ha
    exact hmeaning d hd a had
  have hplace {args : List Value} (h : List.Forall₂ (· ∈ ·) args domains) :
      ∃ k, tupleIndex 0 args domains = some k :=
    Option.isSome_iff_exists.mp (tupleIndex_isSome (hargs h) h)
  refine ⟨?_, ?_, ?_⟩
  · intro args h
    obtain ⟨k, hk⟩ := hplace h
    obtain ⟨-, hlt⟩ := tupleIndex_bounds (hargs h) h.length_eq hk
    refine ⟨entry.first + k, ?_, by rw [hslot, hk]; rfl⟩
    simp [FunctionSlots.slots, htable]
    omega
  · intro args h args' h' heq
    obtain ⟨k, hk⟩ := hplace h
    rw [hslot, hslot, hk] at heq
    obtain ⟨k', hk', hsame⟩ := Option.map_eq_some_iff.mp heq.symm
    obtain rfl := Nat.add_left_cancel hsame
    exact (tupleIndex_injective (hargs h) (hargs h') h.length_eq h'.length_eq hk hk').2
  · rintro _ ⟨slot, hmem, rfl⟩
    have hmem : entry.first ≤ slot ∧ slot < entry.first + tuples domains := by
      simpa [FunctionSlots.slots, htable] using hmem
    obtain ⟨args, h, hk⟩ := exists_tuple hnodup hmeaning
      (by omega : 0 * _ ≤ slot - entry.first) (by omega)
    refine ⟨args, h, ?_⟩
    rw [hslot, hk, Option.map_some, Nat.add_sub_cancel' hmem.1]

/-- The values of a sort that is tried in full can be told apart. -/
theorem meaningful_of_mem_domain {s : SmtSort}
    (hs : ((Universe.ofVocabulary v bound).domain s).extent ≠ .sampled) {a : Value}
    (ha : a ∈ ((Universe.ofVocabulary v bound).domain s).values) :
    Meaningful (fun _ k => some k) a := by
  have hdeclared {s : SmtSort}
      (ha : a ∈ (((v.sorts.map Universe.declaredDomain).lookup s).getD {}).values) :
      Meaningful (fun _ k => some k) a := by
    cases h : (v.sorts.map Universe.declaredDomain).lookup s with
    | none =>
      rw [h] at ha
      cases ha
    | some D =>
      rw [h] at ha
      rcases domain_of_lookup h with ⟨n, vs, -, -, rfl⟩ | ⟨n, -, -, rfl⟩
      all_goals
        obtain ⟨x, -, rfl⟩ := mem_map.mp ha
        exact ⟨_, rfl⟩
  cases s with
  | int | real | string => exact absurd rfl hs
  | bool => rcases mem_pair.mp ha with rfl | rfl <;> exact ⟨_, rfl⟩
  | enum n | free n => exact hdeclared ha

end Tables

/-!
## Choices
-/

section Choices

variable {choice sizes : List Nat}

/-- Number of choices for slots of these sizes. -/
def choices : List Nat → Nat
  | [] => 1
  | n :: sizes => n * choices sizes

theorem rank_lt (h : Valid choice sizes) : rank choice sizes < choices sizes := by
  induction h with
  | nil => exact Nat.one_pos
  | @cons c n choice sizes hc _ ih =>
    rw [rank, choices]
    have := Nat.mul_le_mul_left n ih
    rw [Nat.mul_succ] at this
    omega

/-- The choices in the order of a walk that goes from the first to the last and meets each once. -/
structure Walk (sizes : List Nat) (visited : List (List Nat)) : Prop where
  first : visited.head? = some (sizes.map fun _ => 0)
  step : visited.IsChain fun c next => advance c sizes = some next
  last : ∀ c ∈ visited.getLast?, advance c sizes = none
  once : visited.Nodup
  all : ∀ c, c ∈ visited ↔ Valid c sizes

/-- The choices from this one on are met one after the other. -/
theorem exists_visits (h : Valid choice sizes) :
    ∃ rest, (choice :: rest).IsChain (fun c next => advance c sizes = some next) ∧
      (∀ c ∈ (choice :: rest).getLast?, advance c sizes = none) ∧ (choice :: rest).Nodup ∧
      ∀ c, c ∈ choice :: rest ↔ Valid c sizes ∧ rank choice sizes ≤ rank c sizes := by
  -- the number of choices that are left goes down
  induction hleft : choices sizes - rank choice sizes using Nat.strong_induction_on
    generalizing choice with
  | _ left ih =>
    cases hnext : advance choice sizes with
    | none =>
      refine ⟨[], .singleton _, by simpa using hnext, nodup_singleton _, fun c => ?_⟩
      rw [mem_singleton]
      constructor
      · rintro rfl
        exact ⟨h, Nat.le_refl _⟩
      · rintro ⟨hc, hle⟩
        exact (rank_injective h hc (hle.antisymm (rank_le_of_advance h hnext hc))).symm
    | some next =>
      obtain ⟨hvalid, hrank⟩ := rank_advance h hnext
      have hlt := rank_lt hvalid
      obtain ⟨rest, hchain, hlast, hnodup, hmem⟩ := ih _ (by omega) hvalid rfl
      refine ⟨next :: rest, .cons_cons hnext hchain, by simpa using hlast,
        nodup_cons.mpr ⟨?_, hnodup⟩, fun c => ?_⟩
      · rw [hmem, hrank]
        omega
      rw [mem_cons, hmem, hrank]
      constructor
      · rintro (rfl | ⟨hc, hle⟩)
        · exact ⟨h, Nat.le_refl _⟩
        · exact ⟨hc, by omega⟩
      rintro ⟨hc, hle⟩
      rcases Nat.eq_or_lt_of_le hle with heq | hlt
      · exact .inl (rank_injective h hc heq).symm
      · exact .inr ⟨hc, hlt⟩

end Choices

/-- The slots of a space are divided among its constants and functions: each of them has a range of
its own, and together these are all slots. A constant has one slot. In the table of a function whose
argument domains have no repeats, each slot is that of one tuple of arguments. And where no slot is
empty, going on from the first choice leads to each choice once, so that all values of the slots are
met. -/
theorem slots_and_choices_once {space : Space} (hspace : Space.ofVocabulary v bound = space)
    (hconstants : (v.constants.map (·.symbol)).Nodup)
    (hfunctions : (v.functions.map (·.name)).Nodup) :
    (v.constants.map space.constantSlots ++ v.functions.map space.functionSlots).flatten =
        List.range space.slots.size ∧
    (∀ c ∈ v.constants, ∃ slot, space.constantSlots c = [slot]) ∧
    (∀ f ∈ v.functions, ∃ entry, space.functions.lookup f.name = some entry ∧
      space.functionSlots f = entry.slots ∧
      ∀ domains, entry.table = some domains →
        domains = f.params.map (fun s => (space.sorts.domain s).values) ∧
        ((∀ d ∈ domains, d.Nodup) →
          Set.BijOn entry.slot? {args | List.Forall₂ (· ∈ ·) args domains}
            (some '' {slot | slot ∈ entry.slots}))) ∧
    (space.hasEmptySlot = false →
      ∃ visited, Walk (space.slots.toList.map Array.size) visited ∧
        ∀ values, Picks space values → ∃ c ∈ visited, space.chosen c = chosenOf values) := by
  subst hspace
  obtain ⟨owners, hlaid⟩ := laid_ofVocabulary v bound
  refine ⟨?_, fun c hc => ?_, fun f hf => ?_, fun hslots => ?_⟩
  · rw [flatten_append, ← flatMap_def, ← flatMap_def, ← tiled_ofVocabulary v bound,
      ← flatMap_lookup hlaid.functions_rel hfunctions]
    have hslots := flatMap_lookup (R := fun c k => owners[k]? = some (Owner.constant c))
      hlaid.constants_rel hconstants fun slot => [slot]
    rw [← hslots]
    simp only [flatMap_singleton']
    rfl
  · obtain ⟨slot, hslot⟩ := Option.isSome_iff_exists.mp (hlaid.lookup_isSome hc)
    exact ⟨slot, by rw [Space.constantSlots, hslot]; rfl⟩
  · obtain ⟨entry, hentry, hfor⟩ := lookup_of_mem hlaid.functions_rel hfunctions hf
    refine ⟨entry, hentry, by simp [Space.functionSlots, hentry], fun domains htable => ?_⟩
    have htable' := hfor.table_eq.symm.trans htable
    obtain ⟨n, hsize, rfl⟩ := Option.map_eq_some_iff.mp htable'
    refine ⟨by simp [argDomains, Function.comp_def, hlaid.sorts_eq], fun hnodup => ?_⟩
    refine slot?_bijOn (e := fun _ k => some k) htable hnodup fun d hd a ha => ?_
    obtain ⟨D, hD, rfl⟩ := mem_map.mp hd
    obtain ⟨s, -, rfl⟩ := mem_map.mp hD
    exact meaningful_of_mem_domain ((tupleCount?_of_tableSize? hsize).2 _ hD) ha
  · obtain ⟨rest, hstep, hlast, honce, hmem⟩ := exists_visits (valid_first hslots)
    simp only [rank_first, Nat.zero_le, and_true] at hmem
    refine ⟨_, ⟨rfl, hstep, hlast, honce, hmem⟩, fun values hvalues => ?_⟩
    obtain ⟨c, hc, heq⟩ := valid_of_picks hvalues
    exact ⟨c, (hmem c).mpr hc, by rw [Space.chosen, heq]; rfl⟩

/-- An enum of three, one without variants, and functions of all kinds: with a table, without
arguments, with an argument that has no values, and with one whose values are only sampled. -/
def assorted : Vocabulary where
  sorts := [.enum "Colour" ["red", "green", "blue"], .enum "Void" []]
  constants := [⟨"n", "n", .int, some 0, some 4⟩, ⟨"b", "b", .bool, none, none⟩]
  functions := [⟨"pair", [.enum "Colour", .bool], .bool⟩, ⟨"fixed", [], .enum "Colour"⟩,
    ⟨"never", [.enum "Void", .bool], .bool⟩, ⟨"next", [.int], .bool⟩]

theorem assorted_once :
    (Space.ofVocabulary assorted 2).slots.size = 10 ∧
    (Space.ofVocabulary assorted 2).functionSlots ⟨"pair", [.enum "Colour", .bool], .bool⟩ =
      [2, 3, 4, 5, 6, 7] ∧
    ∃ visited, Walk ((Space.ofVocabulary assorted 2).slots.toList.map Array.size) visited := by
  obtain ⟨-, -, -, hwalk⟩ := slots_and_choices_once (rfl : Space.ofVocabulary assorted 2 = _)
    (by decide) (by decide)
  obtain ⟨visited, hvisited, -⟩ := hwalk (by rw [hasEmptySlot_eq]; decide)
  exact ⟨by decide, by decide, visited, hvisited⟩

end Statute.Search
