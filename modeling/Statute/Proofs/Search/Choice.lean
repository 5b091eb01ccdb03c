import Statute.Proofs.Logic.Sorting
import Statute.Proofs.Search.Evaluation
import Statute.Proofs.Search.Layout
import Statute.Proofs.Search.Walk

/-!
# What a choice of values comes to

A choice gives a value to each slot. The value of a constant or of a function is found in its slot
(`result?_eq_some`), and if the values realize a structure, the search judges the assertions of a
query as the structure does (`outcomeOf_sound`). A query has to be `Ready` for that: its symbols are
declared, and no function that is applied to nothing has the name of a constant or variable.
-/

namespace Statute.Search

open Logic BoundedSearch

universe u

variable {α : Type u}

theorem value?_chosenOf (values : List Value) (k : Nat) :
    (chosenOf values).value? k = values[k]? := by
  simp only [Chosen.value?, chosenOf, List.getElem?_toArray, List.getElem?_map]
  cases values[k]? <;> rfl

/-- The places of a table are counted. -/
theorem tupleCount?_of_tableSize? {domains : List Domain} {n : Nat}
    (h : Space.tableSize? domains = some n) :
    Space.tupleCount? 1 domains = some n ∧ ∀ D ∈ domains, D.extent ≠ .sampled := by
  unfold Space.tableSize? at h
  split at h
  next hall =>
    refine ⟨(Option.filter_eq_some_iff.mp h).1, fun D hD => ?_⟩
    have := List.all_eq_true.mp hall D hD
    simpa using this
  · cases h

variable {values args : List Value}

section Function

variable {e : Elements α} {v : Vocabulary} {bound : Int} {owners : List Owner}

/-- The value of a function for arguments is that of the slot for their place; or of its only slot,
if it has no table. -/
theorem result?_eq_some
    (hlaid : Laid (Space.ofVocabulary v bound) (Universe.ofVocabulary v bound) bound v.constants
      v.functions owners) {f : String} {d : FunDecl} (hd : v.function? f = some d)
    (hargs : ∀ a ∈ args, Meaningful e a) (hlen : args.length = d.params.length) {w : Value}
    (hw : Interpretation.result? ⟨Space.ofVocabulary v bound, chosenOf values⟩ f args = some w) :
    ∃ slot k : Nat, values[slot]? = some w ∧ owners[slot]? = some (.result d k) ∧
      (Space.tableSize? (argDomains (Universe.ofVocabulary v bound) d) = none ∨
        tupleIndex 0 args ((argDomains (Universe.ofVocabulary v bound) d).map (·.values)) =
          some k) := by
  obtain ⟨entry, hentry, hfor⟩ := lookup_of_find? hlaid.functions_rel hd
  simp only [Interpretation.result?, hentry, Option.bind_eq_bind, Option.bind_some] at hw
  obtain ⟨slot, hslot, hvalue⟩ := Option.bind_eq_some_iff.mp hw
  rw [value?_chosenOf] at hvalue
  unfold FunctionSlots.slot? at hslot
  rw [hfor.table_eq] at hslot
  cases hsize : Space.tableSize? (argDomains (Universe.ofVocabulary v bound) d) with
  | none =>
    rw [hsize] at hslot
    cases hslot
    have howner := hfor.owner_eq 0 (by simp [slotCount, hsize])
    exact ⟨entry.first, 0, hvalue, howner, Or.inl rfl⟩
  | some n =>
    rw [hsize] at hslot
    obtain ⟨k, hk, rfl⟩ := Option.map_eq_some_iff.mp hslot
    have hcount := (tupleCount?_of_tableSize? hsize).1
    have hlt : k < n :=
      tupleIndex_lt hargs (by simpa [argDomains] using hlen) hcount hk
    have howner := hfor.owner_eq k (by simpa [slotCount, hsize] using hlt)
    exact ⟨entry.first + k, k, hvalue, howner, Or.inr hk⟩

end Function

theorem meaningful_of_denotes {e : Elements α} {ds : List (Datum α)}
    (h : List.Forall₂ (Denotes e) args ds) : ∀ a ∈ args, Meaningful e a := by
  induction h with
  | nil => simp
  | cons hd _ ih => exact List.forall_mem_cons.mpr ⟨⟨_, hd⟩, ih⟩

/-- The assertions of a query can be evaluated, and no constant has the name of a function that is
applied to nothing. -/
structure Ready (q : Query) (S : Set String) : Prop where
  constants : ∀ c ∈ q.vocabulary.constants, c.symbol ∉ S
  assertions : ∀ t ∈ q.assertions, Answerable q.vocabulary S t

/-- What the assertions of a query come to in an interpretation that realizes a structure. -/
theorem outcomeOf_sound {q : Query} {S : Set String} (hq : Ready q S) {e : Elements α}
    (he : Separates e) {F : Prop} {M : Structure α} {ρ : Valuation α} {bound : Int}
    (hi : Interpretation.Realizes ⟨Space.ofVocabulary q.vocabulary bound, chosenOf values⟩ e F
      q.vocabulary M ρ) :
    (outcomeOf (Space.ofVocabulary q.vocabulary bound) q.assertions (chosenOf values)).Sound F
      (∀ t ∈ q.assertions, M.Holds ρ t) := by
  obtain ⟨owners, hlaid⟩ := laid_ofVocabulary q.vocabulary bound
  have hS : ∀ f ∈ S, (Space.ofVocabulary q.vocabulary bound).constants.lookup f = none := by
    intro f hf
    refine hlaid.lookup_eq_none fun c hc hcf => ?_
    exact hq.constants c hc (hcf ▸ hf)
  have hts : ∀ t ∈ q.assertions, (eval ⟨Space.ofVocabulary q.vocabulary bound, chosenOf values⟩ []
      t).Sound e F (M.value ρ t) := fun t ht =>
    eval_sound he hi hS (hq.assertions t ht).searchable (Binds.nil ρ) (fun _ _ => rfl)
      fun x hx => Or.inr ((hq.assertions t ht).free x hx)
  exact evalAll_sound hts

/-- The names of the functions of a vocabulary. -/
def functionNames (v : Vocabulary) : Set String := {n | ∃ f ∈ v.functions, f.name = n}

/-- A well-sorted query whose functions have names of their own is ready. -/
theorem ready_of_wellSorted {q : Query} (hsorted : q.WellSorted) (hreal : q.RealFree)
    (hapart : q.NamesApart) : Ready q (functionNames q.vocabulary) where
  constants := by
    rintro c hc ⟨f, hf, hname⟩
    exact hapart.constants f hf c hc hname
  assertions t ht := by
    have happlies := Term.appliesIn_of_sort? (hsorted.assertions t ht)
    have hfree := fun x (hx : x ∈ t.free) => Term.free_of_sort? (hsorted.assertions t ht) hx
    refine ⟨?_, fun x hx => (hfree x hx).resolve_left (by simp)⟩
    refine (((hreal.assertions t ht).and happlies).and (hapart.binders t ht)).imp ?_
    rintro u ⟨⟨hu, hu'⟩, hbinder⟩
    refine ⟨hu, hu', ?_, ?_⟩
    · intro f hf
      cases u with
      | apply g args =>
        obtain ⟨d, hd, -⟩ := hu'
        cases args with
        | nil =>
          cases hf
          exact ⟨d, List.mem_of_find?_eq_some hd, by simpa using List.find?_some hd⟩
        | cons => cases hf
      | int | real | bool | str | var | variant | not | and | or | implies | cmp | arith | neg
      | toReal | ite | quant => cases hf
    · rintro x hx ⟨f, hf, hname⟩
      exact hbinder x hx f hf hname

end Statute.Search
