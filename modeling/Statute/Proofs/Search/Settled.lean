import Statute.Proofs.Search.Fragment
import Statute.Proofs.Search.Sat

/-!
# Evaluation that always decides

In the finite fragment every term of a query has a value, and no quantifier meets a free sort:
`eval_settled`. What the values are is known from the soundness of evaluation; here it is shown that
there is one, by going through the operators. It takes an interpretation that is complete
(`Interpretation.Complete`), and all that are made up of values for the slots are
(`complete_of_finite`). So the assertions of a query are always decided, `outcomeOf_settled`.
-/

namespace Statute.Search

open Logic BoundedSearch List

universe u

/-- A value was found, and no quantifier ranged over a free sort. -/
def Outcome.Settled (o : Outcome) : Prop := ∃ w, o = ⟨some w, false⟩

/-- The statement was decided, and no quantifier ranged over a free sort. -/
def Truth.Settled (t : Truth) : Prop := ∃ b, t = ⟨some b, false⟩

section Operators

variable {α : Type u} {e : Elements α} {F : Prop} {M : Structure α} {w w' : Value} {d d' : Datum α}

theorem Truth.Settled.outcome {t : Truth} (h : t.Settled) : t.outcome.Settled := by
  obtain ⟨b, rfl⟩ := h
  exact ⟨.bool b, rfl⟩

theorem Outcome.Settled.exists_denotes {o : Outcome} (h : o.Settled) (hs : o.Sound e F d) :
    ∃ w, o = ⟨some w, false⟩ ∧ Denotes e w d := by
  obtain ⟨w, rfl⟩ := h
  exact ⟨w, rfl, hs (fun h => by cases h) w rfl⟩

theorem eq_bool_of_denotes {b : Bool} (h : Denotes e w (.bool b)) : w = .bool b := by
  cases w <;> simp_all

/-- A number of a numeric sort that a value stands for is a whole one. -/
theorem eq_int_of_denotes {s : SmtSort} (hs : s.isNumeric) (hd : d ∈ M.carrier s)
    (h : Denotes e w d) : ∃ n, w = .int n ∧ d = .int n := by
  cases s with
  | int =>
    obtain ⟨n, rfl⟩ := hd
    refine ⟨n, ?_, rfl⟩
    cases w <;> simp_all
  | real =>
    obtain ⟨x, rfl⟩ := hd
    cases w <;> simp at h
  | bool | string | enum | free => cases hs

/-- Equality is always decided, and order for numbers. -/
theorem compareValues_isSome {s : SmtSort} (h : Denotes e w d) (h' : Denotes e w' d')
    (hd : d ∈ M.carrier s) (hd' : d' ∈ M.carrier s) {op : Comparison}
    (hop : op = .eq ∨ op = .distinct ∨ s.isNumeric) :
    ∃ b, compareValues op w w' = some b := by
  rcases hop with rfl | rfl | hs
  · exact ⟨_, rfl⟩
  · exact ⟨_, rfl⟩
  obtain ⟨m, rfl, -⟩ := eq_int_of_denotes hs hd h
  obtain ⟨n, rfl, -⟩ := eq_int_of_denotes hs hd' h'
  cases op <;> exact ⟨_, rfl⟩

theorem fit_of_inRange {n : Int} (h : Whole.InRange n) : Whole.fit n = some n := if_pos h

/-- Arithmetic has a result if the exact one is in range, and for a remainder also the quotient. -/
theorem intArithmetic_isSome {op m n} (hzero : op = .div ∨ op = .mod → n ≠ 0)
    (hrange : Whole.InRange (M.intArith op m n)) (hquotient : op = .mod → Whole.InRange (m / n)) :
    ∃ k, intArithmetic op m n = some k := by
  cases op with
  | add | sub | mul => exact ⟨_, fit_of_inRange hrange⟩
  | div =>
    have hn := hzero (Or.inl rfl)
    rw [Structure.intArith, if_neg hn] at hrange
    exact ⟨_, (if_neg hn).trans (fit_of_inRange hrange)⟩
  | mod =>
    have hdiv : Whole.div? m n = some (m / n) :=
      (if_neg (hzero (Or.inr rfl))).trans (fit_of_inRange (hquotient rfl))
    exact ⟨m % n, by rw [intArithmetic, Whole.mod?, hdiv]; rfl⟩

/-- A statement about a list is decided if all instances are. -/
theorem settle_settled {ι : Type} {q} {body : ι → Truth} {vs} (h : ∀ v ∈ vs, (body v).Settled) :
    (settle q body false false vs).Settled := by
  induction vs with
  | nil => exact ⟨_, rfl⟩
  | cons v vs ih =>
    rw [forall_mem_cons] at h
    obtain ⟨b, hb⟩ := h.1
    rw [settle, hb]
    dsimp only [Bool.or_self]
    split
    · exact ⟨_, rfl⟩
    · exact ih h.2

end Operators

section Lists

variable {i : Interpretation} {bound : List (String × Value)} {ts : List Term}

/-- A function applied to arguments that have values; `values` are those of earlier ones. -/
theorem evalArgs_settled {f : String} {ds : List (Datum Nat)} (h : List.Forall₂ (fun t d => ∃ w,
      eval i bound t = ⟨some w, false⟩ ∧ Denotes numbered w d) ts ds) {values : List Value}
    (hresult : ∃ w, i.result? f (values.reverse ++ ds.map valueOf) = some w) :
    (evalArgs i bound f values false ts).Settled := by
  induction h generalizing values with
  | nil =>
    obtain ⟨w, hw⟩ := hresult
    rw [map_nil, append_nil] at hw
    exact ⟨w, by rw [evalArgs, hw]⟩
  | @cons t d ts ds ht _ ih =>
    obtain ⟨w, hw, hden⟩ := ht
    obtain rfl := valueOf_of_denotes hden
    rw [evalArgs, hw]
    refine ih ?_
    simpa using hresult

end Lists

/-- An interpretation in which all terms of the finite fragment have a value: it realizes a
structure for the vocabulary, all constants have values and all functions do for arguments of their
sorts, and all values of finite sorts are tried. -/
structure Interpretation.Complete (i : Interpretation) (v : Vocabulary) (S : Set String)
    (M : Structure Nat) (ρ : Valuation Nat) : Prop where
  realizes : i.Realizes numbered True v M ρ
  interprets : M.Interprets v
  names : ∀ f ∈ S, i.space.constants.lookup f = none
  constant : ∀ c ∈ v.constants, ∃ w,
    (i.space.constants.lookup c.symbol).bind i.chosen.value? = some w
  function : ∀ f ∈ v.functions, ∀ ds, M.Fit ds f.params →
    ∃ w, i.result? f.name (ds.map valueOf) = some w
  extent : ∀ s, s.isFinite = true → v.declares s = true →
    (i.space.sorts.domain s).extent = .exhaustive

/-- Bound variables have values, which are of their sorts. -/
structure Scoped (v : Vocabulary) (S : Set String) (M : Structure Nat) (ρ : Valuation Nat)
    (sorts : List (String × SmtSort)) (bound : List (String × Value)) (ρ' : Valuation Nat) :
    Prop where
  binds : Binds numbered bound ρ ρ'
  sorted : M.Sorted v sorts ρ'
  same : ∀ x, (bound.lookup x).isSome = (sorts.lookup x).isSome
  fresh : ∀ f ∈ S, bound.lookup f = none

theorem Scoped.cons {v S} {M : Structure Nat} {ρ ρ'} {sorts : List (String × SmtSort)} {bound}
    (h : Scoped v S M ρ sorts bound ρ') {x} (hx : x ∉ S) {s : SmtSort} {w d}
    (hw : Denotes numbered w d) (hd : d ∈ M.carrier s) :
    Scoped v S M ρ ((x, s) :: sorts) ((x, w) :: bound) (Function.update ρ' x d) where
  binds := h.binds.cons hw
  sorted := h.sorted.update hd
  same y := by grind [Search.Scoped.same]
  fresh f hf := by
    have hfx : (f == x) = false := beq_false_of_ne fun heq => hx (heq ▸ hf)
    rw [lookup_cons, hfx]
    exact h.fresh f hf

section Eval

variable {i : Interpretation} {v : Vocabulary} {S : Set String} {M : Structure Nat}
  {ρ ρ' : Valuation Nat} {sorts : List (String × SmtSort)} {bound : List (String × Value)}
  {t : Term} {s : SmtSort}

section

variable (hi : i.Complete v S M ρ) (hscope : Scoped v S M ρ sorts bound ρ')

include hi hscope

/-- A value that is found stands for the value of the term, which is of the sort of the term. -/
theorem exists_value (ht : Searchable v S t) (hsort : t.sort? v sorts = some s)
    (h : (eval i bound t).Settled) :
    ∃ w, eval i bound t = ⟨some w, false⟩ ∧ Denotes numbered w (M.value ρ' t) ∧
      M.value ρ' t ∈ M.carrier s := by
  have hsound := eval_sound separates_numbered hi.realizes hi.names ht hscope.binds hscope.fresh
    fun x hx => by
      rw [hscope.same]
      exact Term.free_of_sort? hsort hx
  obtain ⟨w, hw, hden⟩ := h.exists_denotes hsound
  exact ⟨w, hw, hden, Structure.value_mem_carrier hi.interprets hsort hscope.sorted⟩

theorem truth_settled (ht : Searchable v S t) (hsort : t.sort? v sorts = some .bool)
    (h : (eval i bound t).Settled) : (eval i bound t).truth.Settled := by
  obtain ⟨w, hw, hden, b, hb⟩ := exists_value hi hscope ht hsort h
  rw [← hb] at hden
  rw [hw, eq_bool_of_denotes hden]
  exact ⟨b, rfl⟩

/-- A symbol that has a sort has a value. -/
theorem symbol?_settled {x : String} (hsort : (Term.var x).sort? v sorts = some s) :
    ∃ w, i.symbol? bound x = some w := by
  rw [Interpretation.symbol?]
  cases hb : bound.lookup x with
  | some w => exact ⟨w, rfl⟩
  | none =>
    have hnone := hscope.same x
    rw [hb] at hnone
    obtain hbound | ⟨c, hc, rfl⟩ := Term.free_of_sort? hsort (mem_singleton_self x)
    · rw [← hnone] at hbound
      cases hbound
    obtain ⟨w, hw⟩ := hi.constant c hc
    obtain ⟨k, hk, hvalue⟩ := Option.bind_eq_some_iff.mp hw
    exact ⟨w, by simp only [hk, hvalue]⟩

/-- In the finite fragment every term has a value. -/
theorem eval_settled (ht : Searchable v S t) (hsort : t.sort? v sorts = some s)
    (hfinite : t.Everywhere fun u => ∀ r ∈ u.rangeSort?, r.isFinite)
    (hexact : M.Throughout (fun ρ u => M.InRangeAt ρ u ∧ M.QuotientAt ρ u) ρ' t) :
    (eval i bound t).Settled := by
  induction t generalizing sorts bound ρ' s with
  | int | bool | str | variant => exact ⟨_, by rw [eval]⟩
  | real x => exact absurd ht.1 (by simp [Term.isReal])
  | toReal t => exact absurd ht.1.1 (by simp [Term.isReal])
  | var x =>
    obtain ⟨w, hw⟩ := symbol?_settled hi hscope hsort
    exact ⟨w, by rw [eval, hw]⟩
  | not t ih =>
    simp only [Term.sort?, Option.ite_none_right_eq_some] at hsort
    obtain ⟨b, hb⟩ := truth_settled hi hscope ht.2 hsort.1
      (ih hscope ht.2 hsort.1 hfinite.2 hexact.2)
    rw [eval, hb]
    exact ⟨_, rfl⟩
  | and ts ih =>
    simp only [Term.sort?, Option.ite_none_right_eq_some] at hsort
    have hsorts := Term.sort?_of_areBool hsort.1
    have hts := Term.everywhereIn_iff.mp ht.2
    refine Truth.Settled.outcome (evalAll_eq ts false false ▸ settle_settled fun t h => ?_)
    refine truth_settled hi hscope (hts t h) (hsorts t h) ?_
    exact ih t h hscope (hts t h) (hsorts t h) (Term.everywhereIn_iff.mp hfinite.2 t h)
      (Structure.throughoutAll_iff.mp hexact.2 t h)
  | or ts ih =>
    simp only [Term.sort?, Option.ite_none_right_eq_some] at hsort
    have hsorts := Term.sort?_of_areBool hsort.1
    have hts := Term.everywhereIn_iff.mp ht.2
    refine Truth.Settled.outcome (evalAny_eq ts false false ▸ settle_settled fun t h => ?_)
    refine truth_settled hi hscope (hts t h) (hsorts t h) ?_
    exact ih t h hscope (hts t h) (hsorts t h) (Term.everywhereIn_iff.mp hfinite.2 t h)
      (Structure.throughoutAll_iff.mp hexact.2 t h)
  | implies a b iha ihb =>
    simp only [Term.sort?, Option.ite_none_right_eq_some] at hsort
    obtain ⟨⟨hsa, hsb⟩, -⟩ := hsort
    obtain ⟨p, hp⟩ := truth_settled hi hscope ht.2.1 hsa
      (iha hscope ht.2.1 hsa hfinite.2.1 hexact.2.1)
    obtain ⟨p', hp'⟩ := truth_settled hi hscope ht.2.2 hsb
      (ihb hscope ht.2.2 hsb hfinite.2.2 hexact.2.2)
    rw [eval, hp, hp']
    cases p <;> exact ⟨_, rfl⟩
  | cmp op a b iha ihb =>
    rw [Term.sort?] at hsort
    split at hsort
    next r r' hsa hsb =>
      obtain ⟨⟨rfl, hop⟩, -⟩ := Option.ite_none_right_eq_some.mp hsort
      obtain ⟨w, hw, hden, hmem⟩ := exists_value hi hscope ht.2.1 hsa
        (iha hscope ht.2.1 hsa hfinite.2.1 hexact.2.1)
      obtain ⟨w', hw', hden', hmem'⟩ := exists_value hi hscope ht.2.2 hsb
        (ihb hscope ht.2.2 hsb hfinite.2.2 hexact.2.2)
      obtain ⟨c, hc⟩ := compareValues_isSome hden hden' hmem hmem' hop
      refine ⟨.bool c, ?_⟩
      rw [eval, hw, hw']
      simp [Outcome.andThen, Outcome.bindValue, hc]
    · cases hsort
  | arith op r a b iha ihb =>
    simp only [Term.sort?, Option.ite_none_right_eq_some] at hsort
    obtain ⟨⟨hsa, hsb, hr, -⟩, -⟩ := hsort
    obtain ⟨w, hw, hden, hmem⟩ := exists_value hi hscope ht.2.1 hsa
      (iha hscope ht.2.1 hsa hfinite.2.1 hexact.2.1)
    obtain ⟨w', hw', hden', hmem'⟩ := exists_value hi hscope ht.2.2 hsb
      (ihb hscope ht.2.2 hsb hfinite.2.2 hexact.2.2)
    obtain ⟨m, rfl, hm⟩ := eq_int_of_denotes hr hmem hden
    obtain ⟨n, rfl, hn⟩ := eq_int_of_denotes hr hmem' hden'
    obtain ⟨⟨hrange, hquotient⟩, -⟩ := hexact
    obtain ⟨hzero, hin⟩ := hrange m n hm hn
    have hmod : op = .mod → Whole.InRange (m / n) := by
      rintro rfl
      exact hquotient m n hm hn
    obtain ⟨k, hk⟩ := intArithmetic_isSome hzero hin hmod
    refine ⟨.int k, ?_⟩
    rw [eval, hw, hw']
    simp [Outcome.andThen, Outcome.bindValue, arithmetic, hk]
  | neg t ih =>
    rw [Term.sort?] at hsort
    split at hsort
    next r hst =>
      obtain ⟨hr, -⟩ := Option.ite_none_right_eq_some.mp hsort
      obtain ⟨w, hw, hden, hmem⟩ := exists_value hi hscope ht.2 hst
        (ih hscope ht.2 hst hfinite.2 hexact.2)
      obtain ⟨n, rfl, hn⟩ := eq_int_of_denotes hr hmem hden
      obtain ⟨⟨hrange, -⟩, -⟩ := hexact
      have hneg : Whole.neg? n = some (-n) := fit_of_inRange (hrange n hn)
      refine ⟨.int (-n), ?_⟩
      rw [eval, hw]
      simp [Outcome.bindValue, negateValue, hneg]
    · cases hsort
  | ite c a b ihc iha ihb =>
    simp only [Term.sort?, Option.ite_none_right_eq_some] at hsort
    obtain ⟨⟨hsc, heq⟩, hsa⟩ := hsort
    obtain ⟨p, hp⟩ := truth_settled hi hscope ht.2.1 hsc
      (ihc hscope ht.2.1 hsc hfinite.2.1 hexact.2.1)
    obtain ⟨w, hw⟩ := iha hscope ht.2.2.1 hsa hfinite.2.2.1 hexact.2.2.1
    obtain ⟨w', hw'⟩ := ihb hscope ht.2.2.2 (heq ▸ hsa) hfinite.2.2.2 hexact.2.2.2
    rw [eval, hp, hw, hw']
    cases p <;> exact ⟨_, rfl⟩
  | apply f args ih =>
    rw [Term.sort?] at hsort
    split at hsort
    next d hd =>
      obtain ⟨hareSorts, -⟩ := Option.ite_none_right_eq_some.mp hsort
      have hname : d.name = f := by simpa using find?_some hd
      have hargs : ∀ t ∈ args, ∀ r, t.sort? v sorts = some r →
          ∃ w, eval i bound t = ⟨some w, false⟩ ∧ Denotes numbered w (M.value ρ' t) ∧
            M.value ρ' t ∈ M.carrier r := by
        intro t h r hr
        have htm := Term.everywhereIn_iff.mp ht.2 t h
        refine exists_value hi hscope htm hr ?_
        exact ih t h hscope htm hr (Term.everywhereIn_iff.mp hfinite.2 t h)
          (Structure.throughoutAll_iff.mp hexact.2 t h)
      have hfit : M.Fit (args.map (M.value ρ')) d.params := by
        refine forall₂_map_left_iff.mpr (Term.forall₂_of_areSorts hareSorts ?_)
        intro t h r hr
        obtain ⟨-, -, -, hmem⟩ := hargs t h r hr
        exact hmem
      obtain ⟨w, hw⟩ := hi.function d (mem_of_find?_eq_some hd) _ hfit
      rw [hname] at hw
      cases args with
      | nil =>
        -- the name is neither bound nor a constant, so it is the function that is looked up
        have hfS : f ∈ S := ht.1.2.2.1 f rfl
        rw [map_nil, map_nil] at hw
        exact ⟨w, by rw [eval, symbol?_eq_result? (hscope.fresh f hfS) (hi.names f hfS), hw]⟩
      | cons a args =>
        refine evalArgs_settled (forall₂_map_right_iff.mpr (forall₂_same.mpr ?_)) ⟨w, hw⟩
        intro t h
        obtain ⟨r, hr⟩ := (Term.sort?_of_areSorts hareSorts).2 t h
        obtain ⟨w', hw', hden, -⟩ := hargs t h r hr
        exact ⟨w', hw', hden⟩
    · cases hsort
  | quant q x r body ih =>
    simp only [Term.sort?, Option.ite_none_right_eq_some] at hsort
    obtain ⟨⟨hdecl, hbody⟩, -⟩ := hsort
    have hr : r.isFinite = true := hfinite.1 r rfl
    have hextent := hi.extent r hr hdecl
    have hreal : r ≠ .real := by
      rintro rfl
      cases hr
    have hx : x ∉ S := ht.1.2.2.2 x rfl
    rw [eval, hextent, quantify_eq]
    refine (settle_settled fun w hw => ?_).outcome
    obtain ⟨d, hd, hden⟩ := (hi.realizes.domain r hreal).sound (fun _ => trivial) w hw
    have hscope' := hscope.cons hx hden hd
    refine truth_settled hi hscope' ht.2 hbody ?_
    exact ih hscope' ht.2 hbody hfinite.2 (hexact.2 d hd)

end

end Eval

section Finite

variable {q : Query} {s : BoundedSearch} {values : List Value}

/-- Values for the slots of a query in the finite fragment make up a complete interpretation. -/
theorem complete_of_finite (h : q.Finite s)
    (hpicks : Picks (Space.ofVocabulary q.vocabulary s.bound) values) :
    let i := interpretationOf q.vocabulary s.bound values
    i.Complete q.vocabulary (functionNames q.vocabulary) (modelOf q.vocabulary i)
      (valuationOf i) := by
  obtain ⟨owners, hlaid⟩ := laid_ofVocabulary q.vocabulary s.bound
  have hv := h.sorted.distinct
  refine ⟨realizes_modelOf hv h.realFree hpicks, interprets_modelOf hv h.realFree hpicks, ?_, ?_,
    ?_, ?_⟩
  · rintro f ⟨g, hg, rfl⟩
    refine hlaid.lookup_eq_none fun c hc hname => ?_
    exact h.apart.constants g hg c hc hname.symm
  · intro c hc
    obtain ⟨k, w, hk, hw, -⟩ := valuationOf_spec hv h.realFree hpicks hc
    exact ⟨w, by rw [hk, Option.bind_some, value?_chosenOf, hw]⟩
  · intro f hf ds hfit
    obtain ⟨w, -, hw⟩ := exists_result hv h.realFree hpicks hf hfit
    exact ⟨w, hw⟩
  · grind [extent_domain, Search.Laid.sorts_eq]

/-- The assertions of a query in the finite fragment are decided for all values of the slots. -/
theorem outcomeOf_settled (h : q.Finite s) (hexact : q.Exact)
    (hpicks : Picks (Space.ofVocabulary q.vocabulary s.bound) values) :
    (outcomeOf (Space.ofVocabulary q.vocabulary s.bound) q.assertions
      (chosenOf values)).Settled := by
  have hi := complete_of_finite h hpicks
  obtain ⟨hfits, hwithin⟩ := fits_valuationOf h.sorted.distinct h.realFree hpicks
  have hready := ready_of_wellSorted h.sorted ⟨h.realFree, hexact.realFree⟩ h.apart
  unfold outcomeOf
  refine evalAll_eq q.assertions false false ▸ settle_settled fun t ht => ?_
  have hscope : Scoped q.vocabulary (functionNames q.vocabulary) _ _ [] [] _ :=
    ⟨Binds.nil _, Structure.sorted_of_fits hfits, fun _ => rfl, fun _ _ => rfl⟩
  have hsearchable := (hready.assertions t ht).searchable
  have hsort := h.sorted.assertions t ht
  refine truth_settled hi hscope hsearchable hsort ?_
  refine eval_settled hi hscope hsearchable hsort (h.quantifiers t ht) ?_
  exact (h.arithmetic _ _ hi.interprets hfits hwithin t ht).imp₂ (fun _ _ h h' => ⟨h, h'⟩)
    (hexact.quotients _ _ hi.interprets hfits hwithin t ht)

end Finite

end Statute.Search
