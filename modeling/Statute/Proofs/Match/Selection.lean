import Mathlib.Data.List.ReduceOption
import Mathlib.Data.Nat.Find
import Statute.Proofs.Check.Declarations
import Statute.Proofs.Match.Clashes

/-!
# Which arm is chosen

The arms of a `match` are tried in order, and the first that applies is chosen. What happens depends
on the value, on the legal tests that it passes and on the guards; a `Trial` says how all these come
out.

What is reported about arms is said here by what stands before each of them, `ArmHead.fault?`; the
walk over the arms comes to the same, `unreachableArms_eq`. An arm that is reported is covered by an
earlier one, unless that is a wildcard with a guard, so it is never chosen,
`chosen_arm_not_reported`.

If nothing is reported, then the last arm is the wildcard. An arm is always chosen if it has no
guard, `accepted_match_chooses`; but a wildcard arm may have one, and then it may be that none is,
`no_arm_chosen`.
-/

namespace Statute

open List

variable {a : ArmHead} {arms before : List ArmHead} {i : Nat} {seen : List FixedPattern}
  {afterWildcard : Bool}

/-!
## Equal patterns
-/

section Equality

open Float.Model (UnpackedFloat)

theorem compare_symm {a b : UnpackedFloat} (h : a.compare b = some .eq) :
    b.compare a = some .eq := by
  rcases eq_or_zero_of_compare h with rfl | ⟨_, _, rfl, rfl⟩
  · exact h
  · rfl

theorem float_beq_symm {x y : Float} (h : (x == y)) : (y == x) := by
  have hsymm := compare_symm (beq_iff_eq.mp h)
  exact (beq_iff_eq (a := y.toModel.unpack.compare x.toModel.unpack)).mpr hsymm

theorem Literal.beq_symm {a b : Literal} (h : (a == b)) : (b == a) := by
  cases a <;> cases b <;> first | cases h; done | skip
  case float.float | money.money | percent.percent => exact float_beq_symm h
  case int.int => exact eq_of_beq (α := Int) h ▸ h
  case bool.bool => exact eq_of_beq (α := Bool) h ▸ h
  case string.string | date.date | duration.duration => exact eq_of_beq (α := String) h ▸ h
  case pass.pass => rfl

theorem FixedPattern.beq_symm {a b : FixedPattern} (h : (a == b)) : (b == a) := by
  cases a <;> cases b <;> simp_all [BEq.beq, instBEqFixedPattern.beq]
  exact Literal.beq_symm h

end Equality

/-!
## Trials
-/

/-- How it comes out when arms are tried: which fixed patterns match the value, and for each arm, by
its position, whether the value passes the legal test that is named and whether the guard holds. -/
structure Trial where
  value : Scrutinee
  /-- Equal patterns match the same values. -/
  alike : ∀ {k k'}, (k == k') = true → (value k ↔ value k')
  passes : Nat → Prop
  holds : Nat → Prop

variable {t : Trial}

namespace Trial

/-- The pattern of the arm at the position matches. -/
def Matches (t : Trial) (i : Nat) : Pattern → Prop
  | .wildcard _ => True
  | .literal _ v => t.value (.literal v)
  | .variant _ n v => t.value (.variant n.name v.name)
  | .binding _ => True
  | .satisfies _ _ => t.passes i

/-- The pattern matches and the guard holds, if there is one. -/
def Applies (t : Trial) (i : Nat) (a : ArmHead) : Prop :=
  t.Matches i a.pattern ∧ (a.guarded = true → t.holds i)

/-- The arm at the position is the first that applies. -/
def Chooses (t : Trial) (arms : List ArmHead) (i : Nat) : Prop :=
  (∃ a, arms[i]? = some a ∧ t.Applies i a) ∧
    ∀ j < i, ∀ a, arms[j]? = some a → ¬t.Applies j a

/-- If some arm applies, then one is chosen. -/
theorem exists_chooses (hi : arms[i]? = some a) (ha : t.Applies i a) : ∃ i, t.Chooses arms i := by
  classical
  have hsome : ∃ i a, arms[i]? = some a ∧ t.Applies i a := ⟨i, a, hi, ha⟩
  refine ⟨Nat.find hsome, Nat.find_spec hsome, fun j hj b hb happlies => ?_⟩
  exact Nat.find_min hsome hj ⟨b, hb, happlies⟩

/-- A trial of a value that can be written as a fixed pattern: the patterns that are equal to it
match. -/
def ofValue (v : FixedPattern) (passes holds : Nat → Prop) : Trial where
  value k := (k == v) = true
  alike h := ⟨fun hk => FixedPattern.beq_trans (FixedPattern.beq_symm h) hk,
    fun hk => FixedPattern.beq_trans h hk⟩
  passes := passes
  holds := holds

/-- A trial in which a value that is matched by no fixed pattern fails all tests and guards. -/
def failing : Trial where
  value _ := False
  alike _ := Iff.rfl
  passes _ := False
  holds _ := False

end Trial

theorem Arm.guarded_head {γ β : Type} {a : Arm γ β} : a.head.guarded = false ↔ a.guard = none := by
  simp [head]

/-- The pattern matches every value. -/
def Pattern.isTotal : Pattern → Bool
  | .wildcard _ | .binding _ => true
  | _ => false

theorem Pattern.isTotal_iff {p : Pattern} :
    p.isTotal ↔ p.isWildcard ∨ ∃ name, p = .binding name := by
  cases p <;> simp [isTotal, isWildcard]

theorem Trial.applies_of_isTotal (t : Trial) (hp : a.pattern.isTotal)
    (hguard : a.guarded = false) : t.Applies i a := by
  refine ⟨?_, by simp [hguard]⟩
  cases h : a.pattern with
  | wildcard | binding => trivial
  | literal | variant | satisfies => simp [h, Pattern.isTotal] at hp

/-- Where everything fails that can, only arms apply that always do. -/
theorem Trial.of_applies_failing (h : failing.Applies i a) :
    a.pattern.isTotal ∧ a.guarded = false := by
  refine ⟨?_, Bool.eq_false_iff.mpr h.2⟩
  have hmatches := h.1
  cases hp : a.pattern with
  | wildcard | binding => rfl
  | literal | variant | satisfies =>
    rw [hp] at hmatches
    exact hmatches.elim

/-- An arm is always chosen exactly if there is one without guard whose pattern matches all. -/
theorem chooses_always_iff :
    (∀ t : Trial, ∃ i, t.Chooses arms i) ↔
      ∃ a ∈ arms, a.pattern.isTotal ∧ a.guarded = false := by
  constructor
  · intro h
    obtain ⟨i, ⟨a, hi, happlies⟩, -⟩ := h .failing
    exact ⟨a, mem_of_getElem? hi, Trial.of_applies_failing happlies⟩
  rintro ⟨a, ha, hp, hguard⟩ t
  obtain ⟨i, hi⟩ := mem_iff_getElem?.mp ha
  exact Trial.exists_chooses hi (t.applies_of_isTotal hp hguard)

/-!
## What is reported
-/

/-- An arm that is chosen whenever the fixed pattern matches and it is tried. -/
def ArmHead.fixes (k : FixedPattern) (a : ArmHead) : Bool :=
  !a.guarded && (FixedPattern.of? a.pattern).any (k == ·)

/-- What is wrong with an arm, given those before it: it comes after a wildcard, or it has no guard
and repeats the fixed pattern of one that has none either. A wildcard is not asked. -/
def ArmHead.fault? (before : List ArmHead) (a : ArmHead) : Option Fault :=
  if a.pattern.isWildcard then none
  else if before.any (·.pattern.isWildcard) then some .afterWildcard
  else if a.guarded then none
  else
    match FixedPattern.of? a.pattern with
    | none => none
    | some k => if before.any (·.fixes k) then some (.patternRepeated k.text) else none

/-- The arm with what is wrong with it. -/
def ArmHead.finding? (before : List ArmHead) (a : ArmHead) : Option Finding :=
  (a.fault? before).map (⟨·, a.pattern.span⟩)

/-- What is reported about each of the arms, given those before them. -/
def armFindings (before : List ArmHead) : List ArmHead → List (Option Finding)
  | [] => []
  | a :: arms =>
    a.finding? before :: armFindings (before ++ [a]) arms

theorem length_armFindings (before arms : List ArmHead) :
    (armFindings before arms).length = arms.length := by
  induction arms generalizing before with
  | nil => rfl
  | cons a arms ih => rw [armFindings, length_cons, ih, length_cons]

/-- What is reported about the arm at a position. -/
theorem getElem?_armFindings (before arms : List ArmHead) (i : Nat) :
    (armFindings before arms)[i]? = arms[i]?.map fun a => a.finding? (before ++ arms.take i) := by
  induction arms generalizing before i with
  | nil => rfl
  | cons a arms ih =>
    cases i with
    | zero => simp [armFindings]
    | succ i => simp [armFindings, ih]

/-- The notes of the walk, a list of fixed patterns and whether a wildcard was met, agree with the
arms that it has passed. -/
structure Notes (seen : List FixedPattern) (afterWildcard : Bool) (before : List ArmHead) :
    Prop where
  wildcard : afterWildcard = before.any (·.pattern.isWildcard)
  seen : afterWildcard = false → ∀ k, seen.contains k = before.any (·.fixes k)

/-- One more arm. -/
theorem Notes.add {seen' : List FixedPattern} {afterWildcard' : Bool}
    (h : Notes seen afterWildcard before)
    (hwildcard : afterWildcard' = (afterWildcard || a.pattern.isWildcard))
    (hseen : afterWildcard' = false → ∀ k, seen'.contains k = (seen.contains k || a.fixes k)) :
    Notes seen' afterWildcard' (before ++ [a]) where
  wildcard := by simp [hwildcard, h.wildcard]
  seen hfalse k := by
    have hearlier : afterWildcard = false := (Bool.or_eq_false_iff.mp (hwildcard ▸ hfalse)).1
    simp [hseen hfalse, h.seen hearlier]

variable {key : FixedPattern}

theorem ArmHead.fixes_of_fixed (hguard : a.guarded = false)
    (hkey : FixedPattern.of? a.pattern = some key) (k : FixedPattern) : a.fixes k = (k == key) := by
  simp [fixes, hguard, hkey]

variable {k : FixedPattern}

/-- A pattern that is equal to one that was seen was seen. -/
theorem contains_of_beq (hkey : seen.contains key) (hk : (k == key)) :
    seen.contains k := by
  obtain ⟨s, hs, hkeys⟩ := contains_iff_exists_mem_beq.mp hkey
  exact contains_iff_exists_mem_beq.mpr ⟨s, hs, FixedPattern.beq_trans hk hkeys⟩

/-- One step of the walk reports what is reported about the arm, and its notes stay right. -/
theorem Notes.step (h : Notes seen afterWildcard before) (a : ArmHead) (arms : List ArmHead) :
    ∃ seen' afterWildcard', Notes seen' afterWildcard' (before ++ [a]) ∧
      unreachableFrom seen afterWildcard (a :: arms) =
        (a.finding? before).toList ++ unreachableFrom seen' afterWildcard' arms := by
  unfold ArmHead.finding? ArmHead.fault?
  rw [unreachableFrom, ← h.wildcard]
  by_cases hwildcard : a.pattern.isWildcard = true
  · rw [if_pos hwildcard, if_pos hwildcard]
    exact ⟨seen, true, h.add (by simp [hwildcard]) (by simp), rfl⟩
  rw [if_neg hwildcard, if_neg hwildcard]
  cases afterWildcard with
  | true => exact ⟨seen, true, h.add (by simp) (by simp), rfl⟩
  | false =>
    rw [if_neg Bool.false_ne_true, if_neg Bool.false_ne_true]
    by_cases hguard : a.guarded = true
    · rw [if_pos hguard, if_pos hguard]
      exact ⟨seen, false, h.add (by simp [hwildcard]) (by simp [ArmHead.fixes, hguard]), rfl⟩
    rw [if_neg hguard, if_neg hguard]
    rw [Bool.not_eq_true] at hguard
    cases hkey : FixedPattern.of? a.pattern with
    | none => exact ⟨seen, false, h.add (by simp [hwildcard]) (by simp [ArmHead.fixes, hkey]), rfl⟩
    | some key =>
      have hfixes := ArmHead.fixes_of_fixed hguard hkey
      dsimp only
      rw [← h.seen rfl key]
      split
      next hseen =>
        -- a repeated pattern is not noted again
        refine ⟨seen, false, h.add (by simp [hwildcard]) fun _ k => ?_, rfl⟩
        rw [hfixes, eq_comm, Bool.or_eq_left_iff_imp]
        exact contains_of_beq hseen
      · exact ⟨seen ++ [key], false, h.add (by simp [hwildcard]) (by simp [hfixes]), rfl⟩

/-- The walk reports what is reported about each arm. -/
theorem unreachableFrom_eq (h : Notes seen afterWildcard before) :
    unreachableFrom seen afterWildcard arms = (armFindings before arms).reduceOption := by
  induction arms generalizing seen afterWildcard before with
  | nil => rfl
  | cons a arms ih =>
    obtain ⟨seen', afterWildcard', hnotes, hstep⟩ := h.step a arms
    rw [hstep, ih hnotes, armFindings]
    cases a.finding? before <;> rfl

theorem unreachableArms_eq (arms : List ArmHead) :
    unreachableArms arms = (armFindings [] arms).reduceOption :=
  unreachableFrom_eq ⟨rfl, fun _ _ => rfl⟩

/-!
## Arms that are reported are not chosen
-/

/-- An arm with a fault is covered by one before it: a wildcard, or one without guard that has an
equal fixed pattern. -/
theorem ArmHead.exists_before_of_fault? {f : Fault} (h : a.fault? before = some f) :
    ∃ b ∈ before, b.pattern.isWildcard ∨
      ∃ k, FixedPattern.of? a.pattern = some k ∧ b.fixes k := by
  unfold fault? at h
  split at h
  · cases h
  split at h
  next hwildcard => grind
  split at h
  · cases h
  split at h
  · cases h
  next k hk =>
    split at h
    next hrepeated => grind
    · cases h

theorem Trial.matches_of_fixed {p : Pattern} (hk : FixedPattern.of? p = some k) :
    t.Matches i p ↔ t.value k := by
  cases p with
  | literal | variant =>
    cases hk
    rfl
  | wildcard | binding | satisfies => cases hk

theorem Trial.applies_of_fixes (ha : a.fixes k) (hk : t.value k) : t.Applies i a := by
  rw [ArmHead.fixes, Bool.and_eq_true, Bool.not_eq_true', Option.any_eq_true] at ha
  obtain ⟨hguard, k', hk', heq⟩ := ha
  exact ⟨(matches_of_fixed hk').mpr ((t.alike heq).mp hk), by simp [hguard]⟩

/-- If no wildcard has a guard, then an arm that is reported is not chosen: the one that covers it
applies before. -/
theorem Trial.Chooses.finding?_eq_none (h : t.Chooses arms i) (hi : arms[i]? = some a)
    (hplain : ∀ b ∈ arms, b.pattern.isWildcard → b.guarded = false) :
    a.finding? (arms.take i) = none := by
  obtain ⟨⟨a', hi', happlies⟩, hfirst⟩ := h
  cases Option.some.inj (hi.symm.trans hi')
  rw [ArmHead.finding?, Option.map_eq_none_iff, Option.eq_none_iff_forall_ne_some]
  intro f hf
  obtain ⟨b, hb, hcovers⟩ := ArmHead.exists_before_of_fault? hf
  obtain ⟨j, hj⟩ := mem_iff_getElem?.mp hb
  have hlt : j < i := by grind
  rw [getElem?_take_of_lt hlt] at hj
  refine hfirst j hlt b hj ?_
  rcases hcovers with hwildcard | ⟨k, hk, hfixes⟩
  · grind [Trial.applies_of_isTotal, Pattern.isTotal_iff]
  · exact applies_of_fixes hfixes ((matches_of_fixed hk).mp happlies.1)

/-- The report consists of what is reported about each of the arms. If no wildcard has a guard, then
whatever the value is and however tests and guards come out, nothing is reported about the arm that
is chosen. -/
theorem chosen_arm_not_reported {γ β : Type} {arms : List (Arm γ β)}
    (hplain : ∀ a ∈ arms, a.pattern.isWildcard = true → a.guard = none) :
    unreachableArms (arms.map Arm.head) = (armFindings [] (arms.map Arm.head)).reduceOption ∧
    (armFindings [] (arms.map Arm.head)).length = arms.length ∧
    ∀ (t : Trial) (i : Nat), t.Chooses (arms.map Arm.head) i →
      (armFindings [] (arms.map Arm.head))[i]? = some none := by
  refine ⟨unreachableArms_eq _, by rw [length_armFindings, length_map], fun t i h => ?_⟩
  obtain ⟨⟨a, hi, -⟩, -⟩ := id h
  rw [getElem?_armFindings, hi, Option.map_some, nil_append, h.finding?_eq_none hi]
  intro b hb hwildcard
  obtain ⟨c, hc, rfl⟩ := mem_map.mp hb
  exact Arm.guarded_head.mpr (hplain c hc hwildcard)

/-- An arm that gives a number of years. -/
def years (n : Int) (p : Pattern) (guard : Option Expr := none) : Arm Expr Expr :=
  ⟨{}, p, guard, .literal {} (.int n)⟩

/-- Years by the number of offences. The third arm repeats the second, and the last comes after the
wildcard. -/
def sentences : List (Arm Expr Expr) :=
  [years 1 (.literal {} (.int 1)) (some "minor"), years 2 (.literal {} (.int 1)),
    years 3 (.literal {} (.int 1)), years 4 (.satisfies {} "Theft"), years 5 (.wildcard {}),
    years 6 (.literal {} (.int 2))]

/-- A first offence that is not minor is punished by the second arm. Two other arms are reported. -/
theorem first_offence_not_reported :
    (armFindings [] (sentences.map Arm.head)).map (·.isSome) =
      [false, false, true, false, false, true] ∧
    (Trial.ofValue (.literal (.int 1)) (fun _ => False) fun _ => False).Chooses
      (sentences.map Arm.head) 1 ∧
    (armFindings [] (sentences.map Arm.head))[1]? = some none := by
  have hchosen : (Trial.ofValue (.literal (.int 1)) (fun _ => False) fun _ => False).Chooses
      (sentences.map Arm.head) 1 := by
    refine ⟨⟨_, rfl, rfl, by simp [years, Arm.head]⟩, fun j hj a ha happlies => ?_⟩
    cases Nat.lt_one_iff.mp hj
    cases ha
    exact happlies.2 rfl
  refine ⟨rfl, hchosen, (chosen_arm_not_reported ?_).2.2 _ 1 hchosen⟩
  simp [sentences, years, Pattern.isWildcard]

/-!
## Matches in which nothing is reported
-/

/-- If nothing is reported about the arms, then nothing is about one of them. -/
theorem ArmHead.finding?_eq_none {rest} (h : unreachableArms (before ++ a :: rest) = []) :
    a.finding? before = none := by
  rw [Option.eq_none_iff_forall_ne_some]
  intro f hf
  have hmem : some f ∈ armFindings [] (before ++ a :: rest) := by
    refine mem_of_getElem? (i := before.length) ?_
    simp [getElem?_armFindings, hf]
  rw [← reduceOption_mem_iff, ← unreachableArms_eq, h] at hmem
  cases hmem

/-- If nothing is reported, then the last arm is the wildcard, and there is no other. -/
theorem exists_last_wildcard {place : Span} (hexhaustive : exhaustivenessFault? place arms = none)
    (hreachable : unreachableArms arms = []) :
    ∃ init last, arms = init ++ [last] ∧ last.pattern.isWildcard ∧
      ∀ a ∈ init, a.pattern.isWildcard = false := by
  unfold exhaustivenessFault? at hexhaustive
  split at hexhaustive
  · cases hexhaustive
  next w hfilter =>
    obtain ⟨init, rest, rfl, hinit, hw, hrest⟩ := filter_eq_cons_iff.mp hfilter
    refine ⟨init, w, ?_, hw, fun a ha => by simpa using hinit a ha⟩
    cases rest with
    | nil => rfl
    | cons a rest =>
      -- an arm after the wildcard is reported
      rw [append_cons] at hreachable
      have hnone := ArmHead.finding?_eq_none hreachable
      have ha : a.pattern.isWildcard = false := by simpa using filter_eq_nil_iff.mp hrest a
      simp [ArmHead.finding?, ArmHead.fault?, ha, hw] at hnone
  · cases hexhaustive

/-- In a `match` about which nothing is reported the last arm is the wildcard. If it has no guard,
or an arm before it that has none binds a name, then an arm is chosen whatever the value is and
however tests and guards come out; otherwise it may be that none is. -/
theorem accepted_match_chooses {γ β : Type} {arms : List (Arm γ β)} {place : Span}
    (hexhaustive : exhaustivenessFault? place (arms.map Arm.head) = none)
    (hreachable : unreachableArms (arms.map Arm.head) = []) :
    ∃ init last, arms = init ++ [last] ∧ last.pattern.isWildcard = true ∧
      ((∀ t : Trial, ∃ i, t.Chooses (arms.map Arm.head) i) ↔
        last.guard = none ∨ ∃ a ∈ init, a.guard = none ∧ ∃ name, a.pattern = .binding name) := by
  obtain ⟨heads, w, harms, hw, hheads⟩ := exists_last_wildcard hexhaustive hreachable
  obtain ⟨init, rest, rfl, rfl, hlast⟩ := map_eq_append_iff.mp harms
  obtain ⟨last, rfl, rfl⟩ := map_eq_singleton_iff.mp hlast
  refine ⟨init, last, rfl, hw, ?_⟩
  rw [chooses_always_iff]
  constructor
  · rintro ⟨_, hmem, htotal, hguard⟩
    obtain ⟨a, ha, rfl⟩ := mem_map.mp hmem
    rw [Arm.guarded_head] at hguard
    rcases mem_append.mp ha with ha | ha
    · refine .inr ⟨a, ha, hguard, (Pattern.isTotal_iff.mp htotal).resolve_left ?_⟩
      simp [hheads a.head (mem_map_of_mem ha)]
    · cases mem_singleton.mp ha
      exact .inl hguard
  · rintro (hguard | ⟨a, ha, hguard, hbinding⟩)
    · refine ⟨last.head, mem_map_of_mem (by simp), ?_, Arm.guarded_head.mpr hguard⟩
      exact Pattern.isTotal_iff.mpr (.inl hw)
    · refine ⟨a.head, mem_map_of_mem (by simp [ha]), ?_, Arm.guarded_head.mpr hguard⟩
      exact Pattern.isTotal_iff.mpr (.inr hbinding)

/-- Years by the number of offences, with nothing to report. -/
def tariff : List (Arm Expr Expr) :=
  [years 1 (.literal {} (.int 1)) (some "minor"), years 2 (.literal {} (.int 1)),
    years 4 (.satisfies {} "Theft"), years 5 (.wildcard {})]

theorem tariff_chooses :
    exhaustivenessFault? {} (tariff.map Arm.head) = none ∧
    unreachableArms (tariff.map Arm.head) = [] ∧
    ∀ t : Trial, ∃ i, t.Chooses (tariff.map Arm.head) i := by
  have hexhaustive : exhaustivenessFault? {} (tariff.map Arm.head) = none := rfl
  have hreachable : unreachableArms (tariff.map Arm.head) = [] := rfl
  refine ⟨hexhaustive, hreachable, ?_⟩
  obtain ⟨init, last, harms, -, halways⟩ := accepted_match_chooses hexhaustive hreachable
  have hlast : some (years 5 (.wildcard {})) = some last := by
    simpa [tariff] using congrArg List.getLast? harms
  cases hlast
  exact halways.mpr (.inl rfl)

/-- A number that is given for minor cases only, and this is none. -/
def exempt : List (Arm Expr Expr) :=
  [years 2 (.wildcard {}) (some (.literal {} (.bool false)))]

/-- It is declared all the same. -/
def exemption : Program where
  name := "exemption"
  items := [.value ⟨{}, "term", .prim {} .int,
    .select {} {} (.literal {} (.int 1)) exempt⟩]

/-- Nothing is reported about the arms, and the program is accepted; but if the guard fails, then no
arm is chosen. -/
theorem no_arm_chosen :
    exhaustivenessFault? {} (exempt.map Arm.head) = none ∧
    unreachableArms (exempt.map Arm.head) = [] ∧
    exemption.check = .ok ⟨exemption, {}, []⟩ ∧
    ∀ i, ¬(Trial.ofValue (.literal (.int 1)) (fun _ => False) fun _ => False).Chooses
      (exempt.map Arm.head) i := by
  refine ⟨rfl, rfl, check_eq_ok rfl, ?_⟩
  rintro i ⟨⟨a, ha, happlies⟩, -⟩
  obtain rfl : a = ⟨.wildcard {}, true⟩ := by
    have hmem := mem_of_getElem? ha
    simpa [exempt, years, Arm.head] using hmem
  exact happlies.2 rfl

end Statute
