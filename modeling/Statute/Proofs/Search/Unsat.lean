import Statute.Proofs.Search.Choice

/-!
# The answer that there is no model

A search that says there is no model is right about all structures, however large. Every structure
and valuation is matched by values for the slots (`exists_picks`), which the walk has met and found
to make some assertion false. Main statement: `check_unsat_sound`.
-/

namespace Statute.Search

open Logic BoundedSearch List

universe u

variable {α : Type u}

/-- The arguments stand for `ds`, and their place is `k` among the tuples of arguments. -/
structure Placed (e : Elements α) (sorts : Universe) (f : FunDecl) (k : Nat) (args : List Value)
    (ds : List (Datum α)) : Prop where
  length_eq : args.length = f.params.length
  denotes : List.Forall₂ (Denotes e) args ds
  index_eq : tupleIndex 0 args ((argDomains sorts f).map (·.values)) = some k

/-- The place determines the arguments and what they stand for. -/
theorem Placed.unique {e : Elements α} {sorts : Universe} {f : FunDecl} {k : Nat}
    {args args' : List Value} {ds ds' : List (Datum α)} (h : Placed e sorts f k args ds)
    (h' : Placed e sorts f k args' ds') : ds = ds' := by
  have hlen : ((argDomains sorts f).map (·.values)).length = f.params.length := by
    simp [argDomains]
  obtain ⟨-, rfl⟩ := tupleIndex_injective (meaningful_of_denotes h.denotes)
    (meaningful_of_denotes h'.denotes) (h.length_eq.trans hlen.symm)
    (h'.length_eq.trans hlen.symm) h.index_eq h'.index_eq
  exact right_unique_forall₂' (fun _ _ _ hd hd' => hd.unique hd') h.denotes h'.denotes

variable {M : Structure α}

/-- Values of domains that keep their word stand for values of the sorts. -/
theorem fit_of_mem {e} (domain : SmtSort → Domain) {params : List SmtSort}
    (hsound : ∀ s ∈ params, ∀ w ∈ (domain s).values, ∃ d ∈ M.carrier s, Denotes e w d) {args ds}
    (hden : List.Forall₂ (Denotes e) args ds)
    (hmem : List.Forall₂ (· ∈ ·) args (params.map fun s => (domain s).values)) :
    M.Fit ds params := by
  induction params generalizing args ds with
  | nil =>
    cases hmem
    cases hden
    exact .nil
  | cons s params ih =>
    cases hmem with
    | cons ha hargs =>
      cases hden with
      | cons hd hds =>
        rw [forall_mem_cons] at hsound
        obtain ⟨d', hd', hden'⟩ := hsound.1 _ ha
        exact .cons (hd.unique hden' ▸ hd') (ih hsound.2 hds hargs)

section Unsat

variable {M : Structure α} {ρ : Valuation α} {v : Vocabulary} {bound : Int} {owners : List Owner}

/-- No value of the search stands for an element of a free sort. -/
def noElements : Elements α := fun _ _ => none

theorem separates_noElements : Separates (noElements : Elements α) :=
  fun _ _ _ _ h => nomatch h

/-- The value is the right one for its slot: it stands for the value of the constant, or for the
value of the function for the arguments at the place of the slot. -/
def Owner.Suits (M : Structure α) (ρ : Valuation α) (sorts : Universe) : Owner → Value → Prop
  | .constant c, w => Denotes noElements w (ρ c.symbol)
  | .result f k, w =>
    ∀ args ds, Placed noElements sorts f k args ds → Denotes noElements w (M.function f.name ds)

section Laid

variable (hM : M.Interprets v) (hexh : (Space.ofVocabulary v bound).exhaustive = true)
  (hlaid : Laid (Space.ofVocabulary v bound) (Universe.ofVocabulary v bound) bound v.constants
    v.functions owners)

include hM hexh hlaid

/-- Where all is tried, each slot has the right value among its values. -/
theorem exists_suits (hfits : ρ.Fits M v) (hwithin : ρ.Within v) (hreal : v.RealFree) {o : Owner}
    (ho : o ∈ owners) (hne : (o.domain (Universe.ofVocabulary v bound) bound).values ≠ []) :
    ∃ w ∈ (o.domain (Universe.ofVocabulary v bound) bound).values,
      o.Suits M ρ (Universe.ofVocabulary v bound) w := by
  obtain ⟨hcs, hfs⟩ := hlaid.exhaustive hexh
  have hF : False → ElementsAre (noElements : Elements α) M v := fun h => h.elim
  rcases hlaid.owners_mem o ho with ⟨c, hc, rfl⟩ | ⟨f, hf, k, -, rfl⟩
  · exact constDomain_full hM.variants_eq hF bound (hreal.constants c hc) (hcs c hc) hne
      (hfits c hc) (hwithin c hc)
  obtain ⟨hresult, -, hargs⟩ := hfs f hf
  obtain ⟨hfr, hfp⟩ := hreal.functions f hf
  by_cases hplace : ∃ args ds,
      Placed (noElements : Elements α) (Universe.ofVocabulary v bound) f k args ds
  · obtain ⟨args, ds, hp⟩ := hplace
    have hmem := mem_of_tupleIndex (meaningful_of_denotes hp.denotes)
      (by simpa [argDomains] using hp.length_eq) hp.index_eq
    have hfit : M.Fit ds f.params := by
      refine fit_of_mem (Universe.ofVocabulary v bound).domain ?_ hp.denotes
        (by simpa [argDomains, Function.comp_def] using hmem)
      intro s hs
      refine (faithful_domain hM.variants_eq hF bound (hfp s hs)).sound fun h => ?_
      rw [hargs _ (mem_map_of_mem hs)] at h
      cases h
    have hfull := (faithful_domain hM.variants_eq hF bound hfr).full
      (by rw [hresult]; intro h; cases h) (by rw [hresult]; intro h; cases h)
    obtain ⟨w, hw, hwd⟩ := hfull _ (hM.result_mem f hf ds hfit)
    refine ⟨w, hw, fun args' ds' hp' => ?_⟩
    rw [← hp.unique hp']
    exact hwd
  · -- no arguments have this place, and any value will do
    obtain ⟨w, hw⟩ := exists_mem_of_ne_nil _ hne
    exact ⟨w, hw, fun args ds hp => absurd ⟨args, ds, hp⟩ hplace⟩

/-- Values that suit their slots realize the structure. -/
theorem realizes_of_suits {pick : Owner → Value}
    (hpick : ∀ o ∈ owners, o.Suits M ρ (Universe.ofVocabulary v bound) (pick o)) :
    Interpretation.Realizes ⟨Space.ofVocabulary v bound, chosenOf (owners.map pick)⟩ noElements
      False v M ρ where
  declared c hc := hlaid.lookup_isSome hc
  constant := by
    intro x k w hx hw
    obtain ⟨c, hc, rfl, howner⟩ := hlaid.constant_of_mem (mem_of_lookup hx)
    rw [value?_chosenOf, getElem?_map, howner] at hw
    cases hw
    exact hpick _ (mem_of_getElem? howner)
  function := by
    intro f d hd args ds w hlen hden hw
    obtain ⟨slot, k, hvalue, howner, hplace⟩ :=
      result?_eq_some hlaid hd (meaningful_of_denotes hden) hlen hw
    rw [getElem?_map, howner] at hvalue
    cases hvalue
    have hdmem := mem_of_find?_eq_some hd
    obtain rfl : d.name = f := by simpa using find?_some hd
    have htable := ((hlaid.exhaustive hexh).2 d hdmem).table
    rcases hplace with hnone | hk
    · rw [hnone] at htable
      cases htable
    · exact hpick _ (mem_of_getElem? howner) args ds ⟨hlen, hden, hk⟩
  domain := by
    intro s hs
    rw [hlaid.sorts_eq]
    exact faithful_domain hM.variants_eq (fun h => h.elim) bound hs

end Laid

/-- Every structure is matched by values for the slots, if all is tried. -/
theorem exists_picks (hM : M.Interprets v) (hfits : ρ.Fits M v) (hwithin : ρ.Within v)
    (hreal : v.RealFree) (hexh : (Space.ofVocabulary v bound).exhaustive)
    (hslots : (Space.ofVocabulary v bound).hasEmptySlot = false) :
    ∃ values, Picks (Space.ofVocabulary v bound) values ∧
      Interpretation.Realizes ⟨Space.ofVocabulary v bound, chosenOf values⟩ noElements False v M
        ρ := by
  obtain ⟨owners, hlaid⟩ := laid_ofVocabulary v bound
  have hne : ∀ o ∈ owners, (o.domain (Universe.ofVocabulary v bound) bound).values ≠ [] := by
    intro o ho hnil
    have hmem : #[] ∈ (Space.ofVocabulary v bound).slots := by
      rw [Array.mem_def, hlaid.slots_eq]
      exact mem_map.mpr ⟨o, ho, by rw [hnil]⟩
    obtain ⟨i, hi, heq⟩ := Array.mem_iff_getElem.mp hmem
    have := Array.any_eq_false.mp hslots i hi
    simp [heq] at this
  have hsuits : ∀ o, ∃ w, o ∈ owners →
      w ∈ (o.domain (Universe.ofVocabulary v bound) bound).values ∧
        o.Suits M ρ (Universe.ofVocabulary v bound) w := by
    intro o
    by_cases ho : o ∈ owners
    · grind [exists_suits]
    · exact ⟨default, fun h => absurd h ho⟩
  choose pick hpick using hsuits
  refine ⟨owners.map pick, ?_, realizes_of_suits hM hexh hlaid fun o ho => (hpick o ho).2⟩
  rw [Picks, hlaid.slots_eq, forall₂_map_left_iff, forall₂_map_right_iff,
    forall₂_same]
  intro o ho
  simpa using (hpick o ho).1

end Unsat

/-- The core of the first answer: no structure satisfies a query of which all was tried. -/
theorem not_satisfiedBy_of_unsat {s : BoundedSearch} {q : Query} {timeout}
    (h : s.check q timeout = .unsat) {S} (hq : Ready q S) (hreal : q.vocabulary.RealFree)
    {ρ : Valuation α} (hwithin : ρ.Within q.vocabulary) : ¬q.SatisfiedBy M ρ := by
  rintro ⟨hM, hfits, hholds⟩
  obtain ⟨hexh, hslots, hall⟩ := check_unsat h
  obtain ⟨values, hpicks, hi⟩ := exists_picks hM hfits hwithin hreal hexh hslots
  have hsound := outcomeOf_sound hq separates_noElements hi
  rw [hall values hpicks] at hsound
  exact absurd ((hsound (fun h => nomatch h) false rfl).mp hholds) (by simp)

/-- If the search says that there is no model, there is none: no structure and no valuation within
the limits of the constants makes all assertions true, whatever the bound of the search and the
number of candidates. Whole numbers are all integers here, texts are all texts, free sorts are any
sets that are not empty, and functions and quotients by zero are arbitrary. -/
theorem check_unsat_sound {s : BoundedSearch} {q : Query} {timeout : Nat} (hsorted : q.WellSorted)
    (hreal : q.RealFree) (hapart : q.NamesApart) (h : s.check q timeout = .unsat) (α : Type u)
    (M : Structure α) (ρ : Valuation α) (hwithin : ρ.Within q.vocabulary) :
    ¬q.SatisfiedBy M ρ :=
  not_satisfiedBy_of_unsat h (ready_of_wellSorted hsorted hreal hapart) hreal.vocabulary hwithin

/-- A function on truth values that is applied three times does not differ from itself applied
once. -/
def tripleQuery : Query where
  vocabulary :=
    { functions := [⟨"f", [.bool], .bool⟩]
      constants := [⟨"x", "x", .bool, none, none⟩, ⟨"n", "n", .int, some 1, some 2⟩] }
  assertions :=
    [.cmp .distinct (.apply "f" [.apply "f" [.apply "f" [.var "x"]]]) (.apply "f" [.var "x"]),
      .cmp .lt (.int 0) (.var "n")]

theorem tripleQuery_unsat :
    (BoundedSearch.mk 8 200000).check tripleQuery 5000 = .unsat ∧
      ∀ (M : Structure Nat) (ρ : Valuation Nat), ρ.Within tripleQuery.vocabulary →
        ¬tripleQuery.SatisfiedBy M ρ := by
  have hsorted : tripleQuery.WellSorted :=
    ⟨⟨by decide, by decide, by decide⟩, by decide, by decide, by decide⟩
  have hreal : tripleQuery.RealFree :=
    ⟨⟨by decide, by decide⟩, by simp [tripleQuery, Term.RealFree, Term.Everywhere, Term.isReal]⟩
  have hapart : tripleQuery.NamesApart :=
    ⟨by decide, by simp [tripleQuery, Term.Binders, Term.Everywhere, Term.binder?]⟩
  have hunsat : (BoundedSearch.mk 8 200000).check tripleQuery 5000 = .unsat := by
    rw [BoundedSearch.check_eq_walk _ (by decide)]
    · rfl
    · exact BoundedSearch.hasEmptySlot_eq _
  exact ⟨hunsat, fun M ρ => check_unsat_sound hsorted hreal hapart hunsat Nat M ρ⟩

end Statute.Search
