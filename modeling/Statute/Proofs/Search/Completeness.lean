import Statute.Proofs.Search.Settled
import Statute.Proofs.Search.Unsat

/-!
# Bounded search decides the finite fragment

A walk that may try as many candidates as there are choices comes to an answer when every choice is
decided: `run_decides`. Together with what the answers mean this says that a query in the finite
fragment is answered, and correctly, `check_decides`. It takes a query on which the search is exact;
`check_gives_up` shows two that are left open because it is not.
-/

namespace Statute.BoundedSearch

open Logic Search

variable {bound : Int} {space : Space} {assertions : List Term} {sizes : List Nat}

theorem rank_lt {choice : List Nat} (h : Valid choice sizes) :
    rank choice sizes < product sizes := by
  induction h with
  | nil => exact Nat.one_pos
  | @cons c n choice sizes hc _ ih =>
    calc c + n * rank choice sizes < n + n * rank choice sizes := by omega
      _ = n * (rank choice sizes + 1) := by rw [Nat.mul_add, Nat.mul_one, Nat.add_comm]
      _ ≤ n * product sizes := Nat.mul_le_mul_left n ih

/-- A walk with enough candidates left comes to an answer if every choice is decided. -/
theorem run_decides (hexh : space.exhaustive) (hsettled : ∀ choice, Valid choice sizes → (outcomeOf
      space assertions (space.chosen choice)).Settled) {tried left} {p : Progress} {choice}
    (hvalid : Valid choice sizes) (hleft : product sizes ≤ rank choice sizes + left)
    (hp : p.undecided = false ∧ p.inModel = false) :
    (∃ model, run bound space assertions sizes tried left p choice = .sat model) ∨
      run bound space assertions sizes tried left p choice = .unsat := by
  induction left generalizing tried p choice with
  | zero => exact absurd hleft (Nat.not_le.mpr (rank_lt hvalid))
  | succ left ih =>
    rw [run_succ]
    obtain ⟨b, hb⟩ := hsettled choice hvalid
    rw [hb]
    cases b with
    | true => exact Or.inl ⟨_, rfl⟩
    | false =>
      have hclear : p.after ⟨some false, false⟩ = ⟨false, false⟩ := by
        simp [Progress.after, hp.1, hp.2]
      rw [if_neg (by simp), hclear]
      cases hnext : advance choice sizes with
      | none =>
        right
        simp [conclude, hexh]
      | some next => grind [rank_advance]

end Statute.BoundedSearch

namespace Statute.Search

open Logic BoundedSearch

variable {q : Query} {s : BoundedSearch} {timeout : Nat}

/-- There is an answer. -/
theorem check_answers (h : q.Finite s) (hexact : q.Exact) (htime : timeout ≠ 0) :
    (∃ model, s.check q timeout = .sat model) ∨ s.check q timeout = .unsat := by
  have hslots := hasEmptySlot_of_finite h
  rw [check_eq_walk hslots htime, walk]
  refine run_decides (exhaustive_of_finite h hexact) (fun choice hvalid => ?_)
    (valid_first hslots) ?_ ⟨rfl, rfl⟩
  · obtain ⟨values, hpicks, heq⟩ := picks_of_valid hvalid
    rw [Space.chosen, heq]
    exact outcomeOf_settled h hexact hpicks
  · rw [rank_first, Nat.zero_add]
    exact (choices_of_finite h hexact).trans_le h.candidates

/-- A model that is found makes the query satisfiable. -/
theorem satisfiable_of_check (h : q.Finite s) (hexact : q.Exact) {model : Assignment}
    (hsat : s.check q timeout = .sat model) : q.Satisfiable := by
  obtain ⟨values, hpicks, htrue, -⟩ := check_sat hsat
  have hi := complete_of_finite h hpicks
  obtain ⟨hfits, hwithin⟩ := fits_valuationOf h.sorted.distinct h.realFree hpicks
  have hready := ready_of_wellSorted h.sorted ⟨h.realFree, hexact.realFree⟩ h.apart
  have hsound := outcomeOf_sound hready separates_numbered hi.realizes
  refine ⟨Nat, _, _, ⟨hi.interprets, hfits, ?_⟩, hwithin⟩
  exact (hsound (fun _ => trivial) true htrue).mpr rfl

/-- The search decides the finite fragment as long as what it works with is exact: it finds a model
of a query that is satisfiable, and says of one that is not that there is none. -/
theorem check_decides (h : q.Finite s) (hexact : q.Exact) (htime : timeout ≠ 0) :
    (q.Satisfiable → ∃ model, s.check q timeout = .sat model) ∧
      (¬q.Satisfiable → s.check q timeout = .unsat) := by
  have hready := ready_of_wellSorted h.sorted ⟨h.realFree, hexact.realFree⟩ h.apart
  rcases check_answers h hexact htime with ⟨model, hsat⟩ | hunsat
  · exact ⟨fun _ => ⟨model, hsat⟩, fun hnot => absurd (satisfiable_of_check h hexact hsat) hnot⟩
  · refine ⟨fun ⟨_, _, _, hq, hwithin⟩ => ?_, fun _ => hunsat⟩
    exact absurd hq (not_satisfiedBy_of_unsat hunsat hready h.realFree hwithin)

/-- Strict liability is for high risks only, and the square of a term is four. -/
def strictQuery : Query where
  vocabulary :=
    { sorts := [.enum "Risk" ["Low", "High"]]
      functions := [⟨"strict", [.enum "Risk"], .bool⟩]
      constants := [⟨"n", "n", .int, some 1, some 3⟩] }
  assertions :=
    [.quant .all "r" (.enum "Risk") (.cmp .eq (.apply "strict" [.var "r"])
        (.cmp .eq (.var "r") (.variant "Risk" "High"))),
      .cmp .eq (.arith .mul .int (.var "n") (.var "n")) (.int 4)]

theorem strictQuery_decided :
    strictQuery.Satisfiable ∧
      ∃ model, (BoundedSearch.mk 2 12).check strictQuery 5000 = .sat model := by
  have hfinite : strictQuery.Finite ⟨2, 12⟩ := by
    refine ⟨⟨⟨by decide, by decide, by decide⟩, by decide, by decide, by decide⟩,
      ⟨by decide, ?_⟩, ?_, ?_, ?_, ?_, by decide⟩
    · simp [strictQuery, Term.Binders, Term.Everywhere, Term.binder?]
    · simp [strictQuery, Vocabulary.Enumerable]
    · intro f hf
      obtain rfl := List.mem_singleton.mp hf
      exact ⟨by decide, by decide, by decide, by decide⟩
    · simp [strictQuery, Term.Everywhere, Term.rangeSort?, SmtSort.isFinite]
    · intro M ρ _ hfits hwithin
      obtain ⟨n, hn⟩ := hfits _ List.mem_cons_self
      obtain ⟨hlow, hhigh⟩ := hwithin _ List.mem_cons_self rfl
      rw [← hn] at hlow hhigh
      have hone : 1 ≤ n := Datum.atMost_int.mp (hlow 1 rfl)
      have hthree : n ≤ 3 := Datum.atMost_int.mp (hhigh 3 rfl)
      have hsquare : Whole.InRange (n * n) := by
        obtain rfl | rfl | rfl : n = 1 ∨ n = 2 ∨ n = 3 := by omega
        all_goals decide
      have hvar : ρ "n" = .int n := hn.symm
      simpa [strictQuery, Structure.Throughout, Structure.InRangeAt, Structure.value, hvar,
        Structure.intArith] using hsquare
  have hexact : strictQuery.Exact := by
    refine ⟨?_, ?_, ?_⟩
    · simp [strictQuery, Term.RealFree, Term.Everywhere, Term.isReal]
    · intro M ρ _ _ _
      simp [strictQuery, Structure.Throughout, Structure.QuotientAt]
    · intro f hf k
      obtain rfl := List.mem_singleton.mp hf
      rcases k with _ | k
      · decide
      · rw [List.take_succ_cons, List.take_nil]
        decide
  have hsat : strictQuery.Satisfiable := by
    let M : Structure Nat :=
      { variants := fun _ => ["Low", "High"]
        elements := fun _ => {0}
        function := fun _ ds => .ofProp (ds = [.variant "Risk" "High"])
        written := fun _ => 0
        quotientByZero := id
        remainderByZero := id
        realQuotientByZero := id }
    refine ⟨Nat, M, fun _ => .int 2, ⟨⟨?_, ?_, ?_⟩, ?_, ?_⟩, ?_⟩
    · simp [strictQuery, M]
    · simp [strictQuery]
    · intro f hf ds _
      obtain rfl := List.mem_singleton.mp hf
      exact ⟨_, rfl⟩
    · intro c hc
      obtain rfl := List.mem_singleton.mp hc
      exact ⟨2, rfl⟩
    · simp [strictQuery, M, Structure.value, Comparison.Holds, Ranges, Structure.arith,
        Structure.intArith]
    · intro c hc _
      obtain rfl := List.mem_singleton.mp hc
      simp [ConstDecl.Within]
  exact ⟨hsat, (check_decides hfinite hexact (by decide)).1 hsat⟩

/-- The remainder of the least number by minus one is zero. -/
def remainderQuery : Query where
  vocabulary := {}
  assertions := [.cmp .eq (.arith .mod .int (.int Whole.least) (.int (-1))) (.int 0)]

/-- A function of many arguments, the last of them from an enum without variants. -/
def crowdedQuery : Query where
  vocabulary :=
    { sorts := [.enum "Nothing" []]
      functions := [⟨"f", List.replicate 64 .bool ++ [.enum "Nothing"], .bool⟩] }
  assertions := [.bool false]

/-- Outside exact arithmetic queries of the finite fragment are left open: a remainder is not
computed if its quotient is out of range, and tuples of arguments are not counted if there are too
many before an empty sort is reached. -/
theorem check_gives_up :
    (remainderQuery.Finite ⟨32, 200000⟩ ∧ remainderQuery.Satisfiable ∧
      (BoundedSearch.mk 32 200000).check remainderQuery 5000 = .unknown (.undecided 32)) ∧
    crowdedQuery.Finite ⟨32, 200000⟩ ∧ ¬crowdedQuery.Satisfiable ∧
      (BoundedSearch.mk 32 200000).check crowdedQuery 5000 = .unknown (.outsideWindow 32) := by
  refine ⟨⟨?_, ?_, ?_⟩, ?_, ?_, ?_⟩
  · refine ⟨⟨⟨by decide, by decide, by decide⟩, by decide, by decide, by decide⟩,
      ⟨by decide, ?_⟩, ?_, ?_, ?_, ?_, by decide⟩
    · simp [remainderQuery, Term.Binders, Term.Everywhere, Term.binder?]
    · simp [remainderQuery]
    · simp [remainderQuery]
    · simp [remainderQuery, Term.Everywhere, Term.rangeSort?]
    · intro M ρ _ _ _
      simp [remainderQuery, Structure.Throughout, Structure.InRangeAt, Structure.value,
        Structure.intArith, Whole.InRange, Whole.least, Whole.greatest]
  · refine ⟨Nat, ⟨fun _ => [], fun _ => {0}, fun _ _ => .int 0, fun _ => 0, id, id, id⟩,
      fun _ => .int 0, ⟨⟨?_, ?_, ?_⟩, ?_, ?_⟩, ?_⟩
    · simp [remainderQuery]
    · simp [remainderQuery]
    · simp [remainderQuery]
    · simp [remainderQuery, Valuation.Fits]
    · simp [remainderQuery, Structure.value, Comparison.Holds, Structure.arith,
        Structure.intArith, Whole.least]
    · simp [remainderQuery, Valuation.Within]
  · rw [check_eq_walk _ (by decide)]
    · rfl
    · exact hasEmptySlot_eq _
  · refine ⟨⟨⟨by decide, by decide, by decide⟩, by decide, by decide, by decide⟩,
      ⟨by decide, ?_⟩, ?_, ?_, ?_, ?_, by decide⟩
    · simp [crowdedQuery, Term.Binders, Term.Everywhere, Term.binder?]
    · simp [crowdedQuery]
    · intro f hf
      obtain rfl := List.mem_singleton.mp hf
      exact ⟨by decide, by decide, by decide, by decide⟩
    · simp [crowdedQuery, Term.Everywhere, Term.rangeSort?]
    · intro M ρ _ _ _
      simp [crowdedQuery, Structure.Throughout, Structure.InRangeAt]
  · rintro ⟨α, M, ρ, hq, -⟩
    simpa [Structure.Holds, Structure.value] using hq.holds _ List.mem_cons_self
  · rw [check_eq_walk _ (by decide)]
    · rfl
    · exact hasEmptySlot_eq _

end Statute.Search
