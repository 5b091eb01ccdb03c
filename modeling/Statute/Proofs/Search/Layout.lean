import Mathlib.Data.List.Forall2
import Statute.Proofs.Search.Domain

/-!
# How slots are laid out

A space is built by adding constants and functions one after the other. `Laid` says what the result
looks like: each slot belongs to one constant, or to one tuple of arguments of a function, and is
found through the entry of its owner. The step lemmas are `Laid.addConstant` and
`Laid.addFunction`; `laid_ofVocabulary` is about the whole space. The place of a tuple among all
tuples of arguments is `tupleIndex`, which tells different tuples apart (`tupleIndex_injective`).
-/

namespace Statute.Search

open Logic List

universe u

variable {β : Type} {k : Nat}

/-- What a slot is for: a constant, or the result of a function for the tuple of arguments at a
place. -/
inductive Owner where
  | constant (c : ConstDecl)
  | result (f : FunDecl) (place : Nat)

/-- The domains of the arguments of a function. -/
def argDomains (sorts : Universe) (f : FunDecl) : List Domain := f.params.map sorts.domain

/-- Number of slots of a function. -/
def slotCount (sorts : Universe) (f : FunDecl) : Nat :=
  (Space.tableSize? (argDomains sorts f)).getD 1

/-- The domain of a slot. -/
def Owner.domain (sorts : Universe) (bound : Int) : Owner → Domain
  | .constant c => Space.constDomain sorts bound c
  | .result f _ => sorts.domain f.result

/-- The entry of a function leads to its slots. -/
structure FunctionSlots.For (sorts : Universe) (owners : List Owner) (f : FunDecl)
    (entry : FunctionSlots) : Prop where
  table_eq : entry.table =
    (Space.tableSize? (argDomains sorts f)).map fun _ => (argDomains sorts f).map (·.values)
  owner_eq : ∀ k < slotCount sorts f, owners[entry.first + k]? = some (.result f k)

/-- Everything about a function is tried. -/
structure Exhausts (sorts : Universe) (f : FunDecl) : Prop where
  result : (sorts.domain f.result).extent = .exhaustive
  table : (Space.tableSize? (argDomains sorts f)).isSome
  args : ∀ D ∈ argDomains sorts f, D.extent = .exhaustive

/-- The slots of the space are those of the constants and functions, in the order of `owners`. -/
structure Laid (s : Space) (sorts : Universe) (bound : Int) (constants : List ConstDecl)
    (functions : List FunDecl) (owners : List Owner) : Prop where
  sorts_eq : s.sorts = sorts
  slots_eq : s.slots.toList = owners.map fun o => (o.domain sorts bound).values.toArray
  constants_rel : List.Forall₂
    (fun c entry => entry.1 = c.symbol ∧ owners[entry.2]? = some (.constant c))
    constants s.constants
  functions_rel : List.Forall₂
    (fun f entry => entry.1 = f.name ∧ entry.2.For sorts owners f) functions s.functions
  owners_mem : ∀ o ∈ owners, (∃ c ∈ constants, o = .constant c) ∨
    ∃ f ∈ functions, ∃ k < slotCount sorts f, o = .result f k
  exhaustive : s.exhaustive = true →
    (∀ c ∈ constants, (Space.constDomain sorts bound c).extent = .exhaustive) ∧
      ∀ f ∈ functions, Exhausts sorts f

variable {l : List β} {x : β}

theorem getElem?_append_of_eq_some (h : l[k]? = some x) (l' : List β) : (l ++ l')[k]? = some x := by
  rw [getElem?_append_left (List.getElem?_eq_some_iff.mp h).1, h]

theorem exists_of_mem_left {γ : Type} {R : β → γ → Prop} {l'} (h : List.Forall₂ R l l') {a}
    (ha : a ∈ l) : ∃ b ∈ l', R a b := by
  induction h with
  | nil => cases ha
  | @cons a' b l l' hR _ ih => grind

namespace Laid

variable {s : Space} {sorts : Universe} {bound : Int} {constants : List ConstDecl}
  {functions : List FunDecl} {owners : List Owner}
  (h : Laid s sorts bound constants functions owners)

include h

theorem length_eq : s.slots.size = owners.length := by
  rw [← Array.length_toList, h.slots_eq, length_map]

/-- Entries lead to the same slots when more are added. -/
theorem constants_append (more : List Owner) :
    List.Forall₂ (fun c entry => entry.1 = c.symbol ∧
      (owners ++ more)[entry.2]? = some (.constant c)) constants s.constants :=
  h.constants_rel.imp fun _ _ hc => ⟨hc.1, getElem?_append_of_eq_some hc.2 more⟩

theorem functions_append (more : List Owner) :
    List.Forall₂ (fun f entry => entry.1 = f.name ∧ entry.2.For sorts (owners ++ more) f)
      functions s.functions :=
  h.functions_rel.imp fun _ _ hf =>
    ⟨hf.1, hf.2.table_eq, fun k hk => getElem?_append_of_eq_some (hf.2.owner_eq k hk) more⟩

theorem addConstant (c : ConstDecl) :
    Laid (s.addConstant bound c) sorts bound (constants ++ [c]) functions
      (owners ++ [.constant c]) where
  sorts_eq := h.sorts_eq
  slots_eq := by
    simp [Space.addConstant, h.slots_eq, h.sorts_eq, Owner.domain]
  constants_rel := by
    refine rel_append (h.constants_append _) (.cons ⟨rfl, ?_⟩ .nil)
    rw [h.length_eq, getElem?_append_right (Nat.le_refl _), Nat.sub_self]
    rfl
  functions_rel := h.functions_append _
  owners_mem := by grind [Search.Laid.owners_mem]
  exhaustive := by
    intro hall
    simp only [Space.addConstant, Bool.and_eq_true, beq_iff_eq, h.sorts_eq] at hall
    obtain ⟨hcs, hfs⟩ := h.exhaustive hall.1
    refine ⟨?_, hfs⟩
    rw [forall_mem_append, forall_mem_singleton]
    exact ⟨hcs, hall.2⟩

theorem addFunction (f : FunDecl) :
    Laid (s.addFunction f) sorts bound constants (functions ++ [f])
      (owners ++ (List.range (slotCount sorts f)).map (.result f)) where
  sorts_eq := h.sorts_eq
  slots_eq := by
    have hnew : ((List.range (slotCount sorts f)).map (Owner.result f)).map
        (fun o => (o.domain sorts bound).values.toArray) =
          List.replicate (slotCount sorts f) (sorts.domain f.result).values.toArray := by
      rw [map_map]
      simp [Function.comp_def, Owner.domain, map_const']
    rw [map_append, hnew, ← h.slots_eq]
    simp [Space.addFunction, h.sorts_eq, slotCount, argDomains]
  constants_rel := h.constants_append _
  functions_rel := by
    refine rel_append (h.functions_append _) (.cons ⟨rfl, ?_, ?_⟩ .nil)
    · simp [h.sorts_eq, argDomains]
    intro k hk
    rw [h.length_eq, getElem?_append_right (Nat.le_add_right _ _), Nat.add_sub_cancel_left]
    simp [hk]
  owners_mem := by grind [Search.Laid.owners_mem]
  exhaustive := by
    intro hall
    simp only [Space.addFunction, Bool.and_eq_true, beq_iff_eq, all_eq_true,
      h.sorts_eq] at hall
    obtain ⟨⟨⟨hs, hresult⟩, htable⟩, hargs⟩ := hall
    obtain ⟨hcs, hfs⟩ := h.exhaustive hs
    refine ⟨hcs, ?_⟩
    rw [forall_mem_append, forall_mem_singleton]
    exact ⟨hfs, hresult, htable, hargs⟩

/-- The entry of a constant leads to a slot of a constant of that name. -/
theorem constant_of_mem {x : String} (hx : (x, k) ∈ s.constants) :
    ∃ c ∈ constants, c.symbol = x ∧ owners[k]? = some (.constant c) := by
  obtain ⟨c, hc, hsym, hk⟩ := exists_of_mem_left h.constants_rel.flip hx
  exact ⟨c, hc, hsym.symm, hk⟩

theorem lookup_isSome {c : ConstDecl} (hc : c ∈ constants) :
    (s.constants.lookup c.symbol).isSome := by
  obtain ⟨entry, hentry, hsym, -⟩ := exists_of_mem_left h.constants_rel hc
  exact lookup_isSome_iff.mpr ⟨entry, hentry, by simp [hsym]⟩

theorem lookup_eq_none {f : String} (hf : ∀ c ∈ constants, c.symbol ≠ f) :
    s.constants.lookup f = none := by
  rw [lookup_eq_none_iff]
  rintro ⟨x, k⟩ hx
  obtain ⟨c, hc, hsym, -⟩ := h.constant_of_mem hx
  rw [bne_iff_ne, ← hsym]
  exact (hf c hc).symm

end Laid

variable {sorts : Universe} {bound : Int} {s : Space} {constants : List ConstDecl}
  {functions : List FunDecl} {owners : List Owner}

theorem laid_constants (more : List ConstDecl) (h : Laid s sorts bound constants functions owners) :
    ∃ owners', Laid (more.foldl (Space.addConstant bound) s) sorts bound (constants ++ more)
      functions owners' := by
  induction more generalizing s constants owners with
  | nil => exact ⟨owners, by rwa [append_nil]⟩
  | cons c more ih =>
    obtain ⟨owners', h'⟩ := ih (h.addConstant c)
    exact ⟨owners', by rwa [append_assoc] at h'⟩

theorem laid_functions (more : List FunDecl) (h : Laid s sorts bound constants functions owners) :
    ∃ owners', Laid (more.foldl Space.addFunction s) sorts bound constants (functions ++ more)
      owners' := by
  induction more generalizing s functions owners with
  | nil => exact ⟨owners, by rwa [append_nil]⟩
  | cons f more ih =>
    obtain ⟨owners', h'⟩ := ih (h.addFunction f)
    exact ⟨owners', by rwa [append_assoc] at h'⟩

/-- The space of a vocabulary has the slots of its constants and functions. -/
theorem laid_ofVocabulary (v : Vocabulary) (bound : Int) :
    ∃ owners, Laid (Space.ofVocabulary v bound) (Universe.ofVocabulary v bound) bound v.constants
      v.functions owners := by
  have hstart : Laid { sorts := Universe.ofVocabulary v bound } (Universe.ofVocabulary v bound)
      bound [] [] [] :=
    ⟨rfl, rfl, .nil, .nil, by simp, by simp⟩
  obtain ⟨owners, hconstants⟩ := laid_constants v.constants hstart
  exact laid_functions v.functions hconstants

/-- What is found first under a name comes from the first declaration of that name. -/
theorem lookup_of_find? {γ : Type} {name : β → String} {R : β → γ → Prop} {as : List β}
    {entries : List (String × γ)}
    (h : List.Forall₂ (fun a entry => entry.1 = name a ∧ R a entry.2) as entries) {n a}
    (ha : as.find? (fun a => name a == n) = some a) : ∃ b, entries.lookup n = some b ∧ R a b := by
  induction h with
  | nil => cases ha
  | @cons a' entry as entries hentry _ ih =>
    obtain ⟨n', b⟩ := entry
    obtain ⟨rfl, hR⟩ := hentry
    rw [find?_cons] at ha
    rw [lookup_cons, BEq.comm]
    cases hn : name a' == n with
    | true => grind
    | false =>
      rw [hn] at ha
      exact ih ha

section Tuples

variable {α : Type u} {e : Elements α} {index : Nat} {args : List Value}
  {domains : List (List Value)}

/-- The value stands for something. -/
def Meaningful (e : Elements α) (w : Value) : Prop := ∃ d, Denotes e w d

/-- Number of tuples with a member of each list. -/
def tuples : List (List Value) → Nat
  | [] => 1
  | d :: domains => d.length * tuples domains

/-- The count of tuples is right, if it is one. -/
theorem tupleCount?_eq_some {count n : Nat} {domains : List Domain}
    (h : Space.tupleCount? count domains = some n) :
    n = count * tuples (domains.map (·.values)) := by
  induction domains generalizing count with
  | nil =>
    cases h
    exact (Nat.mul_one _).symm
  | cons D domains ih =>
    rw [Space.tupleCount?] at h
    split at h
    · rw [ih h, map_cons, tuples, Nat.mul_assoc]
    · cases h

/-- What a step of `tupleIndex` looks up. -/
theorem tupleIndex_cons {a : Value} {dom : List Value} (ha : Meaningful e a)
    (h : tupleIndex index (a :: args) (dom :: domains) = some k) :
    ∃ i, dom[i]? = some a ∧ tupleIndex (index * dom.length + i) args domains = some k := by
  obtain ⟨i, hi, hrest⟩ := Option.bind_eq_some_iff.mp h
  obtain ⟨hlt, heq, -⟩ := findIdx?_eq_some_iff_getElem.mp hi
  obtain ⟨d, hd⟩ := ha
  refine ⟨i, ?_, hrest⟩
  rw [getElem?_eq_getElem hlt, eq_of_beq_of_denotes hd heq]

theorem lt_of_getElem?_eq_some {i : Nat} (h : l[i]? = some x) : i < l.length :=
  (List.getElem?_eq_some_iff.mp h).1

section

variable (hargs : ∀ a ∈ args, Meaningful e a)

include hargs

/-- A tuple that has a place consists of values of the domains. -/
theorem mem_of_tupleIndex (hlen : args.length = domains.length)
    (h : tupleIndex index args domains = some k) : List.Forall₂ (· ∈ ·) args domains := by
  induction args generalizing index domains with
  | nil =>
    cases domains with
    | nil => exact .nil
    | cons _ _ => cases hlen
  | cons a args ih =>
    cases domains with
    | nil => cases hlen
    | cons dom domains =>
      rw [forall_mem_cons] at hargs
      obtain ⟨i, hi, hrest⟩ := tupleIndex_cons hargs.1 h
      exact .cons (mem_of_getElem? hi) (ih hargs.2 (Nat.succ.inj hlen) hrest)

/-- Different tuples have different places. -/
theorem tupleIndex_injective {index' : Nat} {args' : List Value}
    (hargs' : ∀ a ∈ args', Meaningful e a) (hlen : args.length = domains.length)
    (hlen' : args'.length = domains.length) (h : tupleIndex index args domains = some k)
    (h' : tupleIndex index' args' domains = some k) : index = index' ∧ args = args' := by
  induction domains generalizing index index' args args' with
  | nil =>
    obtain rfl := length_eq_zero_iff.mp hlen
    obtain rfl := length_eq_zero_iff.mp hlen'
    cases h
    cases h'
    exact ⟨rfl, rfl⟩
  | cons dom domains ih =>
    obtain ⟨a, args, rfl⟩ := exists_cons_of_length_eq_add_one hlen
    obtain ⟨a', args', rfl⟩ := exists_cons_of_length_eq_add_one hlen'
    rw [forall_mem_cons] at hargs hargs'
    obtain ⟨i, hi, hrest⟩ := tupleIndex_cons hargs.1 h
    obtain ⟨i', hi', hrest'⟩ := tupleIndex_cons hargs'.1 h'
    obtain ⟨hindex, rfl⟩ :=
      ih hargs.2 hargs'.2 (Nat.succ.inj hlen) (Nat.succ.inj hlen') hrest hrest'
    -- both places are less than the size of the domain, so quotient and remainder are the same
    have hlt := lt_of_getElem?_eq_some hi
    have hlt' := lt_of_getElem?_eq_some hi'
    have hmod : i = i' := by
      have := congrArg (· % dom.length) hindex
      simpa [Nat.mul_add_mod_of_lt, Nat.mod_eq_of_lt, hlt, hlt'] using this
    subst hmod
    have hmul : index * dom.length = index' * dom.length := by omega
    refine ⟨Nat.eq_of_mul_eq_mul_right (Nat.zero_lt_of_lt hlt) hmul, ?_⟩
    rw [Option.some.inj (hi.symm.trans hi')]

/-- The tuples with the same beginning have places of their own. -/
theorem tupleIndex_bounds (hlen : args.length = domains.length)
    (h : tupleIndex index args domains = some k) :
    index * tuples domains ≤ k ∧ k < (index + 1) * tuples domains := by
  induction domains generalizing index args with
  | nil =>
    obtain rfl := length_eq_zero_iff.mp hlen
    cases h
    simp [tuples]
  | cons d domains ih =>
    obtain ⟨a, args, rfl⟩ := exists_cons_of_length_eq_add_one hlen
    rw [forall_mem_cons] at hargs
    obtain ⟨i, hi, hrest⟩ := tupleIndex_cons hargs.1 h
    obtain ⟨hlow, hhigh⟩ := ih hargs.2 (Nat.succ.inj hlen) hrest
    have hlt : i < d.length := lt_of_getElem?_eq_some hi
    have hstart : index * d.length ≤ index * d.length + i := by omega
    have hstop : index * d.length + i + 1 ≤ (index + 1) * d.length := by
      rw [Nat.succ_mul]
      omega
    rw [tuples, ← Nat.mul_assoc, ← Nat.mul_assoc]
    exact ⟨(Nat.mul_le_mul_right _ hstart).trans hlow,
      hhigh.trans_le (Nat.mul_le_mul_right _ hstop)⟩

/-- The places are less than the number of tuples. -/
theorem tupleIndex_lt {n : Nat} {domains : List Domain} (hlen : args.length = domains.length)
    (hcount : Space.tupleCount? 1 domains = some n)
    (h : tupleIndex 0 args (domains.map (·.values)) = some k) : k < n := by
  obtain ⟨-, hlt⟩ := tupleIndex_bounds hargs (by simpa using hlen) h
  rwa [tupleCount?_eq_some hcount]

/-- A tuple of values of the domains has a place. -/
theorem tupleIndex_isSome (hmem : List.Forall₂ (· ∈ ·) args domains) :
    (tupleIndex index args domains).isSome := by
  induction hmem generalizing index with
  | nil => rfl
  | @cons a dom args domains ha _ ih =>
    rw [forall_mem_cons] at hargs
    obtain ⟨d, hd⟩ := hargs.1
    have hfound : (dom.findIdx? (· == a)).isSome := by grind [beq_iff_of_denotes]
    obtain ⟨i, hi⟩ := Option.isSome_iff_exists.mp hfound
    rw [tupleIndex, hi]
    exact ih hargs.2

end

end Tuples

end Statute.Search
