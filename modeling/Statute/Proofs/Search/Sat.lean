import Statute.Proofs.NameMap
import Statute.Proofs.Search.Choice

/-!
# The answer that there is a model

The values of the slots that make all assertions true are turned into a structure (`modelOf`): free
sorts have two elements, and a function gives for arguments what its slots say. Functions are total
that way: a function with a table has a slot for every tuple of arguments, and one without has the
same value everywhere. Main statement: `check_sat_sound`.
-/

namespace Statute.Search

open Logic BoundedSearch List

/-- Elements of free sorts are numbers. -/
def numbered : Elements Nat := fun _ k => some k

theorem separates_numbered : Separates numbered := by
  intro s k l x hk hl
  exact Option.some.inj (hk.trans hl.symm)

/-- The value of the search that stands for a value of the structure. -/
def valueOf : Datum Nat → Value
  | .int n => .int n
  | .bool b => .bool b
  | .str s => .str s
  | .variant s v => .variant s v
  | .element s k => .element s k
  | .real _ => .raw ""

theorem valueOf_of_denotes {w d} (h : Denotes numbered w d) : valueOf d = w := by
  cases w with
  | real x => exact absurd h not_denotes_real
  | raw t => exact absurd h not_denotes_raw
  | element s k =>
    obtain ⟨x, hx, rfl⟩ := denotes_element.mp h
    cases hx
    rfl
  | int | bool | str | variant =>
    simp at h
    rw [h]
    rfl

/-- The structure that the chosen values make up. -/
def modelOf (v : Vocabulary) (i : Interpretation) : Structure Nat where
  variants n := (v.variants? n).getD []
  elements _ := {k | k < freeSize}
  function f ds := ((i.result? f (ds.map valueOf)).bind (datum? numbered)).getD default
  written _ := 0
  quotientByZero := id
  remainderByZero := id
  realQuotientByZero := id

/-- The valuation that the chosen values make up. -/
def valuationOf (i : Interpretation) : Valuation Nat := fun x =>
  (((i.space.constants.lookup x).bind i.chosen.value?).bind (datum? numbered)).getD default

theorem elementsAre_modelOf (v : Vocabulary) (i : Interpretation) :
    ElementsAre numbered (modelOf v i) v := by
  intro n _
  exact ⟨fun k hk => ⟨k, hk, rfl⟩, fun k hk => ⟨k, hk, rfl⟩⟩

variable {ds : List (Datum Nat)}

section Model

variable {v : Vocabulary} {bound : Int} {owners : List Owner} {values : List Value}

/-- Each slot has one of its values. -/
theorem picks_at
    (hlaid : Laid (Space.ofVocabulary v bound) (Universe.ofVocabulary v bound) bound v.constants
      v.functions owners) (hpicks : Picks (Space.ofVocabulary v bound) values) {k : Nat}
    {o : Owner} (ho : owners[k]? = some o) :
    ∃ w ∈ (o.domain (Universe.ofVocabulary v bound) bound).values, values[k]? = some w := by
  rw [Picks, hlaid.slots_eq, forall₂_map_right_iff] at hpicks
  obtain ⟨hk, rfl⟩ := List.getElem?_eq_some_iff.mp ho
  have hk' : k < values.length := by rw [hpicks.length_eq]; exact hk
  refine ⟨values[k], ?_, getElem?_eq_getElem hk'⟩
  simpa using hpicks.get hk' hk

/-- The interpretation of the values. -/
abbrev interpretationOf (v : Vocabulary) (bound : Int) (values : List Value) : Interpretation :=
  ⟨Space.ofVocabulary v bound, chosenOf values⟩

theorem variantsAre_modelOf (hv : v.Distinct) (i : Interpretation) :
    VariantsAre (modelOf v i) v := by
  intro n vs hn
  simp only [modelOf, hv.variants?_eq hn, Option.getD_some]

/-- The domains of all sorts are right about the model. -/
theorem faithful_modelOf (hv : v.Distinct) (i : Interpretation) (bound : Int) {s : SmtSort}
    (hs : s ≠ .real) :
    ((Universe.ofVocabulary v bound).domain s).Faithful numbered True ((modelOf v i).carrier s) :=
  faithful_domain (variantsAre_modelOf hv i) (fun _ => elementsAre_modelOf v i) bound hs

/-- Arguments of the sorts of a table are found in its domains. -/
theorem mem_of_fit {M : Structure Nat} (domain : SmtSort → Domain) {params : List SmtSort}
    (hfull : ∀ s ∈ params, ∀ d ∈ M.carrier s, ∃ w ∈ (domain s).values, Denotes numbered w d)
    (hfit : M.Fit ds params) :
    List.Forall₂ (Denotes numbered) (ds.map valueOf) ds ∧
      List.Forall₂ (· ∈ ·) (ds.map valueOf) (params.map fun s => (domain s).values) := by
  induction hfit with
  | nil => exact ⟨.nil, .nil⟩
  | @cons d s ds params hd _ ih =>
    rw [forall_mem_cons] at hfull
    obtain ⟨hden, hmem⟩ := ih hfull.2
    obtain ⟨w, hw, hwd⟩ := hfull.1 d hd
    obtain rfl := valueOf_of_denotes hwd
    exact ⟨.cons hwd hden, .cons hw hmem⟩

variable (hv : v.Distinct) (hreal : v.RealFree)
  (hpicks : Picks (Space.ofVocabulary v bound) values)

include hv hreal hpicks

/-- A function has a value for all arguments of its sorts. -/
theorem exists_result {f : FunDecl} (hf : f ∈ v.functions)
    (hfit : (modelOf v (interpretationOf v bound values)).Fit ds f.params) :
    ∃ w ∈ ((Universe.ofVocabulary v bound).domain f.result).values,
      (interpretationOf v bound values).result? f.name (ds.map valueOf) = some w := by
  obtain ⟨owners, hlaid⟩ := laid_ofVocabulary v bound
  obtain ⟨entry, hentry, hfor⟩ := lookup_of_find? hlaid.functions_rel (hv.function?_eq hf)
  simp only [Interpretation.result?, hentry, Option.bind_eq_bind, Option.bind_some,
    FunctionSlots.slot?, hfor.table_eq, value?_chosenOf]
  cases hsize : Space.tableSize? (argDomains (Universe.ofVocabulary v bound) f) with
  | none =>
    -- without a table there is one slot
    exact picks_at hlaid hpicks (hfor.owner_eq 0 (by simp [slotCount, hsize]))
  | some n =>
    obtain ⟨hcount, hsampled⟩ := tupleCount?_of_tableSize? hsize
    have hfull : ∀ s ∈ f.params, ∀ d ∈ (modelOf v (interpretationOf v bound values)).carrier s,
        ∃ w ∈ ((Universe.ofVocabulary v bound).domain s).values, Denotes numbered w d := by
      intro s hs
      exact (faithful_modelOf hv _ bound ((hreal.functions f hf).2 s hs)).full (fun _ => trivial)
        (hsampled _ (mem_map_of_mem hs))
    obtain ⟨hden, hmem⟩ := mem_of_fit (Universe.ofVocabulary v bound).domain hfull hfit
    have hargs := meaningful_of_denotes hden
    have hmem' : List.Forall₂ (· ∈ ·) (ds.map valueOf)
        ((argDomains (Universe.ofVocabulary v bound) f).map (·.values)) := by
      simpa [argDomains, Function.comp_def] using hmem
    have hplace : (tupleIndex 0 (ds.map valueOf)
        ((argDomains (Universe.ofVocabulary v bound) f).map (·.values))).isSome :=
      tupleIndex_isSome hargs hmem'
    obtain ⟨k, hk⟩ := Option.isSome_iff_exists.mp hplace
    have hlt : k < n := tupleIndex_lt hargs (by simpa using hmem'.length_eq) hcount hk
    have howner := hfor.owner_eq k (by simpa [slotCount, hsize] using hlt)
    simp only [Option.map_some, hk, Option.bind_some]
    exact picks_at hlaid hpicks howner

/-- The values make up a structure for the vocabulary. -/
theorem interprets_modelOf : (modelOf v (interpretationOf v bound values)).Interprets v where
  variants_eq := variantsAre_modelOf hv _
  nonempty n _ := ⟨0, Nat.two_pos⟩
  result_mem := by
    intro f hf ds hfit
    obtain ⟨w, hw, hresult⟩ := exists_result hv hreal hpicks hf hfit
    obtain ⟨d, hd, hwd⟩ :=
      (faithful_modelOf hv (interpretationOf v bound values) bound
        (hreal.functions f hf).1).sound (fun _ => trivial) w hw
    have hvalue : (modelOf v (interpretationOf v bound values)).function f.name ds = d := by
      simp only [modelOf, hresult, Option.bind_some]
      rw [hwd, Option.getD_some]
    rwa [hvalue]

/-- The constants have values of their sorts, within their limits, and they are the ones in the
slots. -/
theorem valuationOf_spec {c : ConstDecl} (hc : c ∈ v.constants) :
    ∃ k w, (Space.ofVocabulary v bound).constants.lookup c.symbol = some k ∧ values[k]? = some w ∧
      Denotes numbered w (valuationOf (interpretationOf v bound values) c.symbol) ∧
        valuationOf (interpretationOf v bound values) c.symbol ∈
          (modelOf v (interpretationOf v bound values)).carrier c.sort ∧
        (c.sort = .int → c.Within (valuationOf (interpretationOf v bound values) c.symbol)) := by
  obtain ⟨owners, hlaid⟩ := laid_ofVocabulary v bound
  obtain ⟨k, hx⟩ := Option.isSome_iff_exists.mp (hlaid.lookup_isSome hc)
  obtain ⟨c', hc', hsym, howner⟩ := hlaid.constant_of_mem (mem_of_lookup hx)
  obtain rfl := inj_on_of_nodup_map hv.constants hc' hc hsym
  obtain ⟨w, hw, hk⟩ := picks_at hlaid hpicks howner
  obtain ⟨d, hd, hwd, hwithin⟩ :=
    constDomain_sound (variantsAre_modelOf hv (interpretationOf v bound values))
      (fun _ => elementsAre_modelOf v _) bound (hreal.constants _ hc) (fun _ => trivial) w hw
  have hvalue : valuationOf (interpretationOf v bound values) c'.symbol = d := by
    simp only [valuationOf, hx, Option.bind_some, value?_chosenOf, hk]
    rw [hwd, Option.getD_some]
  refine ⟨k, w, hx, hk, ?_⟩
  rw [hvalue]
  exact ⟨hwd, hd, hwithin⟩

theorem fits_valuationOf :
    (valuationOf (interpretationOf v bound values)).Fits
        (modelOf v (interpretationOf v bound values)) v ∧
      (valuationOf (interpretationOf v bound values)).Within v := by
  refine ⟨fun c hc => ?_, fun c hc => ?_⟩
  · grind [valuationOf_spec]
  · grind [valuationOf_spec]

/-- The values realize the structure they make up. -/
theorem realizes_modelOf :
    (interpretationOf v bound values).Realizes numbered True v
      (modelOf v (interpretationOf v bound values))
      (valuationOf (interpretationOf v bound values)) := by
  obtain ⟨owners, hlaid⟩ := laid_ofVocabulary v bound
  refine ⟨fun c hc => hlaid.lookup_isSome hc, ?_, ?_, fun s hs => ?_⟩
  · intro x k w hx hw
    obtain ⟨c, hc, rfl, -⟩ := hlaid.constant_of_mem (mem_of_lookup hx)
    obtain ⟨k', w', hk', hw', hden, -⟩ := valuationOf_spec hv hreal hpicks hc
    rw [hx] at hk'
    cases hk'
    rw [value?_chosenOf, hw'] at hw
    cases hw
    exact hden
  · intro f d hd args ds w hlen hden hw
    obtain ⟨slot, k, hvalue, howner, -⟩ :=
      result?_eq_some hlaid hd (meaningful_of_denotes hden) hlen hw
    obtain ⟨w', hw', hslot⟩ := picks_at hlaid hpicks howner
    rw [hvalue] at hslot
    cases hslot
    obtain ⟨d', -, hwd⟩ :=
      (faithful_modelOf hv (interpretationOf v bound values) bound
        (hreal.functions d (mem_of_find?_eq_some hd)).1).sound (fun _ => trivial) w hw'
    have hargs : ds.map valueOf = args := by
      clear hw hlen
      induction hden with
      | nil => rfl
      | cons h _ ih => rw [map_cons, valueOf_of_denotes h, ih]
    simp only [modelOf, hargs, hw, Option.bind_some]
    rw [hwd, Option.getD_some]
    exact hwd
  · rw [hlaid.sorts_eq]
    exact faithful_modelOf hv _ bound hs

end Model

section Assignment

variable {β : Type}

/-- The names of pairs that are kept are among all names, in the same order. -/
theorem filterMap_names_sublist {γ : Type} (g : γ → Option β) (l : List (String × γ)) :
    ((l.filterMap fun (n, x) => (g x).map fun y => (n, y)).map Prod.fst).Sublist
      (l.map Prod.fst) := by
  induction l with
  | nil => exact .slnil
  | cons p l ih =>
    rw [filterMap_cons, map_cons]
    cases hg : g p.2 with
    | none => simpa [hg] using ih.cons p.1
    | some y => simpa [hg] using ih

end Assignment

section Answer

variable {v : Vocabulary} {bound : Int} {values : List Value} (hv : v.Distinct)

include hv

theorem nodup_entries : ((Space.ofVocabulary v bound).constants.map Prod.fst).Nodup := by
  obtain ⟨owners, hlaid⟩ := laid_ofVocabulary v bound
  have hnames : (Space.ofVocabulary v bound).constants.map Prod.fst =
      v.constants.map ConstDecl.symbol := by
    have hrel := hlaid.constants_rel
    generalize (Space.ofVocabulary v bound).constants = entries at hrel
    generalize v.constants = constants at hrel
    induction hrel with
    | nil => rfl
    | cons h _ ih => rw [map_cons, map_cons, h.1, ih]
  rw [hnames]
  exact hv.constants

/-- A model has the value of a constant that is in its slot, and no other. -/
theorem mem_assignment {x w} :
    (x, w) ∈ ((Space.ofVocabulary v bound).assignment (chosenOf values)).entries ↔
      ∃ k, (Space.ofVocabulary v bound).constants.lookup x = some k ∧ values[k]? = some w := by
  have hnodup : ((Space.ofVocabulary v bound).constants.map Prod.fst).Nodup := nodup_entries hv
  rw [Space.assignment, NameMap.mem_ofList ((filterMap_names_sublist _ _).nodup hnodup)]
  simp only [value?_chosenOf, mem_filterMap, Option.map_eq_some_iff, Prod.mk.injEq,
    Prod.exists]
  constructor
  · grind [NameMap.lookup_eq_some_iff]
  · grind [mem_of_lookup]

end Answer

/-- If the search finds a model, it is one. It gives each constant exactly one value, which is of
the sort of the constant and within its limits. And a structure extends it in which free sorts have
two elements, functions are total, and all assertions are true. -/
theorem check_sat_sound {s : BoundedSearch} {q : Query} {timeout : Nat} {model : Assignment}
    (hsorted : q.WellSorted) (hreal : q.RealFree) (hapart : q.NamesApart)
    (h : s.check q timeout = .sat model) :
    ∃ (M : Structure Nat) (ρ : Valuation Nat), q.SatisfiedBy M ρ ∧ ρ.Within q.vocabulary ∧
      (∀ n, M.elements n = {0, 1}) ∧
      ∀ c ∈ q.vocabulary.constants, ∃ w, Denotes numbered w (ρ c.symbol) ∧
        ∀ w', (c.symbol, w') ∈ model.entries ↔ w' = w := by
  obtain ⟨values, hpicks, htrue, rfl⟩ := check_sat h
  have hv := hsorted.distinct
  have hi := realizes_modelOf hv hreal.vocabulary hpicks
  have hready := ready_of_wellSorted hsorted hreal hapart
  have hsound := outcomeOf_sound hready separates_numbered hi
  have hholds := (hsound (fun _ => trivial) true htrue).mpr rfl
  obtain ⟨hfits, hwithin⟩ := fits_valuationOf hv hreal.vocabulary hpicks
  refine ⟨_, _, ⟨interprets_modelOf hv hreal.vocabulary hpicks, hfits, hholds⟩, hwithin, ?_, ?_⟩
  · intro n
    ext k
    simp only [modelOf, freeSize, Set.mem_ofPred_eq, Set.mem_insert_iff, Set.mem_singleton_iff]
    omega
  · intro c hc
    obtain ⟨k, w, hk, hw, hden, -⟩ := valuationOf_spec hv hreal.vocabulary hpicks hc
    refine ⟨w, hden, fun w' => ?_⟩
    rw [mem_assignment hv, hk]
    constructor
    · rintro ⟨k', hk', hw'⟩
      cases hk'
      exact Option.some.inj (hw'.symm.trans hw)
    · rintro rfl
      exact ⟨k, rfl, hw⟩

/-- Someone is liable and someone is not, and a term is longer than a year. -/
def liableQuery : Query where
  vocabulary :=
    { sorts := [.free "Person"]
      functions := [⟨"liable", [.free "Person"], .bool⟩]
      constants := [⟨"a", "a", .free "Person", none, none⟩, ⟨"term", "term", .int, some 1, none⟩] }
  assertions :=
    [.apply "liable" [.var "a"],
      .quant .some "p" (.free "Person") (.not (.apply "liable" [.var "p"])),
      .cmp .lt (.int 1) (.var "term")]

theorem liableQuery_sat :
    ∃ model, (BoundedSearch.mk 8 200000).check liableQuery 5000 = .sat model ∧
      ∃ (M : Structure Nat) (ρ : Valuation Nat), liableQuery.SatisfiedBy M ρ ∧
        ∃ w, ("term", w) ∈ model.entries ∧ Denotes numbered w (ρ "term") := by
  have hsorted : liableQuery.WellSorted :=
    ⟨⟨by decide, by decide, by decide⟩, by decide, by decide, by decide⟩
  have hreal : liableQuery.RealFree :=
    ⟨⟨by decide, by decide⟩, by simp [liableQuery, Term.RealFree, Term.Everywhere, Term.isReal]⟩
  have hapart : liableQuery.NamesApart :=
    ⟨by decide, by simp [liableQuery, Term.Binders, Term.Everywhere, Term.binder?]⟩
  have hsat : ∃ model, (BoundedSearch.mk 8 200000).check liableQuery 5000 = .sat model := by
    refine ⟨⟨[("a", .element "Person" 0), ("term", .int 2)]⟩, ?_⟩
    rw [BoundedSearch.check_eq_walk _ (by decide)]
    · rfl
    · exact BoundedSearch.hasEmptySlot_eq _
  obtain ⟨model, hmodel⟩ := hsat
  obtain ⟨M, ρ, hq, -, -, hconstants⟩ := check_sat_sound hsorted hreal hapart hmodel
  obtain ⟨w, hw, hentry⟩ :=
    hconstants ⟨"term", "term", .int, some 1, none⟩ (by simp [liableQuery])
  exact ⟨model, hmodel, M, ρ, hq, w, (hentry w).mpr rfl, hw⟩

end Statute.Search
