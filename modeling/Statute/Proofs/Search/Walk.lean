import Mathlib.Data.List.Forall2
import Statute.Search.Solver

/-!
# The walk through all choices

A search starts at the first choice of every slot and goes on with `advance`. Read as digits, the
first slot the least, a choice is a number, its `rank`; `advance` adds one to it and stops at the
greatest. So the walk meets every choice (`rejects_of_run`), and an answer tells what the search has
seen: `check_unsat` that all values of the slots were tried and make some assertion false, and
`check_sat` that some values make all assertions true.
-/

namespace Statute.Search

open Logic

variable {choice sizes : List Nat}

/-- The choice gives each slot a place that it has. -/
abbrev Valid (choice sizes : List Nat) : Prop := List.Forall₂ (· < ·) choice sizes

/-- The number that a choice is when its places are read as digits. -/
def rank : List Nat → List Nat → Nat
  | c :: choice, n :: sizes => c + n * rank choice sizes
  | _, _ => 0

theorem rank_injective {choice' : List Nat} (h : Valid choice sizes) (h' : Valid choice' sizes)
    (heq : rank choice sizes = rank choice' sizes) : choice = choice' := by
  induction h generalizing choice' with
  | nil =>
    cases h'
    rfl
  | @cons c n choice sizes hc hs ih =>
    cases h' with
    | @cons c' _ choice' _ hc' hs' =>
      simp only [rank] at heq
      have hn : 0 < n := Nat.zero_lt_of_lt hc
      have hlow : c = c' := by
        have h := congrArg (· % n) heq
        simpa [Nat.add_mul_mod_self_left, Nat.mod_eq_of_lt hc, Nat.mod_eq_of_lt hc'] using h
      subst hlow
      have hhigh : rank choice sizes = rank choice' sizes :=
        Nat.eq_of_mul_eq_mul_left hn (Nat.add_left_cancel heq)
      rw [ih hs' hhigh]

/-- The next choice is one more. -/
theorem rank_advance {next : List Nat} (h : Valid choice sizes)
    (hnext : advance choice sizes = some next) :
    Valid next sizes ∧ rank next sizes = rank choice sizes + 1 := by
  induction h generalizing next with
  | nil => cases hnext
  | @cons c n choice sizes hc hs ih =>
    rw [advance] at hnext
    split at hnext
    next hlt =>
      cases hnext
      exact ⟨.cons hlt hs, by simp only [rank]; omega⟩
    next hge =>
      obtain ⟨rest, hrest, rfl⟩ := Option.map_eq_some_iff.mp hnext
      obtain ⟨hvalid, hrank⟩ := ih hrest
      refine ⟨.cons (Nat.zero_lt_of_lt hc) hvalid, ?_⟩
      -- the last place of this slot is one less than its size
      have hlast : n = c + 1 := by omega
      simp only [rank, hrank, Nat.mul_add, hlast]
      omega

/-- The last choice is the greatest. -/
theorem rank_le_of_advance {other : List Nat} (h : Valid choice sizes)
    (hnext : advance choice sizes = none) (ho : Valid other sizes) :
    rank other sizes ≤ rank choice sizes := by
  induction h generalizing other with
  | nil =>
    cases ho
    exact Nat.le_refl _
  | @cons c n choice sizes hc hs ih =>
    cases ho with
    | @cons c' _ other _ hc' ho =>
      rw [advance] at hnext
      split at hnext
      · cases hnext
      next hge =>
        have hle := ih (Option.map_eq_none_iff.mp hnext) ho
        simp only [rank]
        have := Nat.mul_le_mul_left n hle
        omega

end Statute.Search

namespace Statute.BoundedSearch

open Logic Search

variable {bound : Int} {space : Space} {assertions : List Term} {sizes choice : List Nat}
  {p : Progress} {s : BoundedSearch} {q : Query} {timeout : Nat}

/-- What the assertions come to for a choice. -/
def outcomeOf (space : Space) (assertions : List Term) (chosen : Chosen) : Truth :=
  evalAll ⟨space, chosen⟩ [] (some true) false assertions

/-- What is known after one more choice has been tried. -/
def Progress.after (p : Progress) (r : Truth) : Progress :=
  ⟨p.undecided || r.truth.isNone, p.inModel || r.inModel⟩

/-- What one step of the walk does: it stops at a model, or at the last choice, or goes on with the
next one. -/
theorem run_succ (tried left : Nat) (p : Progress) (choice : List Nat) :
    run bound space assertions sizes tried (left + 1) p choice =
      if (outcomeOf space assertions (space.chosen choice)).truth = some true then
        .sat (space.assignment (space.chosen choice))
      else
        match advance choice sizes with
        | none =>
          conclude bound space.exhaustive
            (p.after (outcomeOf space assertions (space.chosen choice)))
        | some next =>
          run bound space assertions sizes (tried + 1) left
            (p.after (outcomeOf space assertions (space.chosen choice))) next := by
  rw [run, outcomeOf]
  split
  next h => exact (if_pos h).symm
  next h => cases advance choice sizes <;> exact (if_neg h).symm

/-- No claim is made unless all was tried and decided. -/
theorem conclude_unsat {exhaustive : Bool} (h : conclude bound exhaustive p = .unsat) :
    exhaustive ∧ p.undecided = false ∧ p.inModel = false := by
  unfold conclude at h
  split at h
  next hall => simpa [and_assoc] using hall
  · split at h
    · cases h
    · split at h <;> cases h

theorem after_clear {r : Truth} (hr : r.truth ≠ some true) (hu : (p.after r).undecided = false)
    (hm : (p.after r).inModel = false) :
    (p.undecided = false ∧ p.inModel = false) ∧ r = ⟨some false, false⟩ := by
  obtain ⟨truth, inModel⟩ := r
  simp only [Progress.after, Bool.or_eq_false_iff] at hu hm
  refine ⟨⟨hu.1, hm.1⟩, ?_⟩
  rw [hm.2]
  rcases truth with _ | b
  · exact absurd hu.2 (by simp)
  cases b
  · rfl
  · exact absurd rfl hr

/-- A walk that ends with the claim that there is no model has found some assertion false for every
choice from its start on, whatever larger models there are. -/
theorem outcomeOf_of_run {tried left : Nat}
    (h : run bound space assertions sizes tried left p choice = .unsat)
    (hvalid : Valid choice sizes) :
    space.exhaustive ∧ (p.undecided = false ∧ p.inModel = false) ∧
      ∀ other, Valid other sizes → rank choice sizes ≤ rank other sizes →
        outcomeOf space assertions (space.chosen other) = ⟨some false, false⟩ := by
  induction left generalizing tried p choice with
  | zero => cases h
  | succ left ih =>
    rw [run_succ] at h
    split at h
    · cases h
    next hfalse =>
      split at h
      next hlast =>
        obtain ⟨hexh, hu, hm⟩ := conclude_unsat h
        obtain ⟨hp, hr⟩ := after_clear hfalse hu hm
        refine ⟨hexh, hp, fun other ho hle => ?_⟩
        -- nothing is greater than the last choice
        have heq := Nat.le_antisymm hle (rank_le_of_advance hvalid hlast ho)
        rw [← rank_injective hvalid ho heq]
        exact hr
      next next hnext =>
        obtain ⟨hvalid', hrank⟩ := rank_advance hvalid hnext
        obtain ⟨hexh, ⟨hu, hm⟩, hrest⟩ := ih h hvalid'
        obtain ⟨hp, hr⟩ := after_clear hfalse hu hm
        refine ⟨hexh, hp, fun other ho hle => ?_⟩
        rcases Nat.lt_or_eq_of_le hle with hlt | heq
        · exact hrest other ho (by omega)
        · grind [rank_injective]

/-- A model comes from a choice that makes all assertions true. -/
theorem choice_of_run {tried left model}
    (h : run bound space assertions sizes tried left p choice = .sat model)
    (hvalid : Valid choice sizes) :
    ∃ other, Valid other sizes ∧
      (outcomeOf space assertions (space.chosen other)).truth = some true ∧
        model = space.assignment (space.chosen other) := by
  induction left generalizing tried p choice with
  | zero => cases h
  | succ left ih =>
    rw [run_succ] at h
    split at h
    · grind
    split at h
    · unfold conclude at h
      split at h
      · cases h
      split at h
      · cases h
      · split at h <;> cases h
    next next hnext => exact ih h (rank_advance hvalid hnext).1

/-- Values for the slots, each out of its slot. -/
abbrev Picks (space : Space) (values : List Value) : Prop :=
  List.Forall₂ (fun w slot => w ∈ slot) values space.slots.toList

/-- The interpretation that gives the slots these values. -/
def chosenOf (values : List Value) : Chosen := (values.map some).toArray

theorem picks_of_valid {slots : List (Array Value)} (h : Valid choice (slots.map Array.size)) :
    ∃ values, List.Forall₂ (fun w slot => w ∈ slot) values slots ∧
      slots.zipWith (fun d c => d[c]?) choice = values.map some := by
  induction slots generalizing choice with
  | nil => exact ⟨[], .nil, rfl⟩
  | cons d slots ih =>
    cases h with
    | @cons c _ choice _ hc hs =>
      obtain ⟨values, hvalues, heq⟩ := ih hs
      refine ⟨d[c] :: values, .cons (Array.getElem_mem hc) hvalues, ?_⟩
      rw [List.zipWith_cons_cons, heq, List.map_cons, Array.getElem?_eq_getElem hc]

theorem valid_of_picks {slots : List (Array Value)} {values : List Value}
    (h : List.Forall₂ (fun w slot => w ∈ slot) values slots) :
    ∃ choice, Valid choice (slots.map Array.size) ∧
      slots.zipWith (fun d c => d[c]?) choice = values.map some := by
  induction h with
  | nil => exact ⟨[], .nil, rfl⟩
  | @cons w d values slots hw _ ih =>
    obtain ⟨choice, hchoice, heq⟩ := ih
    obtain ⟨c, hc, rfl⟩ := Array.mem_iff_getElem.mp hw
    refine ⟨c :: choice, .cons hc hchoice, ?_⟩
    rw [List.zipWith_cons_cons, heq, List.map_cons, Array.getElem?_eq_getElem hc]

/-- Where no slot is empty, the first choice of each is one. -/
theorem valid_first (h : space.hasEmptySlot = false) :
    Valid ((space.slots.toList.map Array.size).map fun _ => 0)
      (space.slots.toList.map Array.size) := by
  rw [Valid, List.forall₂_map_left_iff, List.forall₂_same]
  intro n hn
  obtain ⟨d, hd, rfl⟩ := List.mem_map.mp hn
  have hne := Array.any_eq_false.mp h
  obtain ⟨i, hi, rfl⟩ := Array.mem_iff_getElem.mp (Array.mem_def.mpr hd)
  have := hne i hi
  rw [Array.isEmpty_iff_size_eq_zero] at this
  omega

theorem rank_first (sizes : List Nat) : rank (sizes.map fun _ => 0) sizes = 0 := by
  induction sizes with
  | nil => rfl
  | cons n sizes ih => rw [List.map_cons, rank, ih, Nat.mul_zero]

/-- The walk through all choices that a search makes. -/
def walk (s : BoundedSearch) (q : Query) : Response :=
  let space := Space.ofVocabulary q.vocabulary s.bound
  let sizes := space.slots.toList.map Array.size
  run s.bound space q.assertions sizes 0 s.maxCandidates {} (sizes.map fun _ => 0)

theorem hasEmptySlot_eq (space : Space) :
    space.hasEmptySlot = space.slots.toList.any fun d => d.isEmpty :=
  Array.any_toList.symm

/-- Where every slot has a value and there is time, a search is the walk. -/
theorem check_eq_walk (hslots : (Space.ofVocabulary q.vocabulary s.bound).hasEmptySlot = false)
    (ht : timeout ≠ 0) : s.check q timeout = s.walk q := by
  rw [check]
  simp only [hslots, Bool.false_eq_true, if_false, beq_iff_eq, ht]
  rfl

/-- All other answers than that time is over or that nothing is known come from the walk. -/
theorem walk_of_check {r : Response} (h : s.check q timeout = r) (htimeout : r ≠ .timeout)
    (hunknown : ∀ why, r ≠ .unknown why) :
    (Space.ofVocabulary q.vocabulary s.bound).hasEmptySlot = false ∧ s.walk q = r := by
  subst h
  cases hslots : (Space.ofVocabulary q.vocabulary s.bound).hasEmptySlot with
  | true => exact absurd (by rw [check]; simp only [hslots]; rfl) (hunknown .noValues)
  | false =>
    refine ⟨rfl, (check_eq_walk hslots fun ht => htimeout ?_).symm⟩
    rw [check]
    simp only [hslots, ht]
    rfl

/-- What the answer that there is no model rests on: the slots cover every interpretation, none of
them is empty, and all values for them make some assertion false. -/
theorem check_unsat (h : s.check q timeout = .unsat) :
    (Space.ofVocabulary q.vocabulary s.bound).exhaustive ∧
      (Space.ofVocabulary q.vocabulary s.bound).hasEmptySlot = false ∧
      ∀ values, Picks (Space.ofVocabulary q.vocabulary s.bound) values →
        outcomeOf (Space.ofVocabulary q.vocabulary s.bound) q.assertions (chosenOf values) =
          ⟨some false, false⟩ := by
  obtain ⟨hslots, hwalk⟩ := walk_of_check h (fun h => nomatch h) (fun _ h => nomatch h)
  obtain ⟨hexh, -, hall⟩ := outcomeOf_of_run hwalk (valid_first hslots)
  refine ⟨hexh, hslots, ?_⟩
  intro values hvalues
  obtain ⟨choice, hvalid, heq⟩ := valid_of_picks hvalues
  have hout := hall choice hvalid (by rw [rank_first]; exact Nat.zero_le _)
  rwa [Space.chosen, heq] at hout

/-- A model comes from values for the slots that make all assertions true. -/
theorem check_sat {model : Assignment} (h : s.check q timeout = .sat model) :
    ∃ values, Picks (Space.ofVocabulary q.vocabulary s.bound) values ∧
      (outcomeOf (Space.ofVocabulary q.vocabulary s.bound) q.assertions (chosenOf values)).truth =
        some true ∧
      model = (Space.ofVocabulary q.vocabulary s.bound).assignment (chosenOf values) := by
  obtain ⟨hslots, hwalk⟩ := walk_of_check h (fun h => nomatch h) (fun _ h => nomatch h)
  obtain ⟨choice, hvalid, htrue, hmodel⟩ := choice_of_run hwalk (valid_first hslots)
  obtain ⟨values, hvalues, heq⟩ := picks_of_valid hvalid
  rw [Space.chosen, heq] at htrue hmodel
  exact ⟨values, hvalues, htrue, hmodel⟩

end Statute.BoundedSearch
