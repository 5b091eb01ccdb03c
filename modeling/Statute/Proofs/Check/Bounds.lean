import Statute.Proofs.Check.Subsumption
import Statute.Proofs.Folding

/-!
# Bounds of whole numbers

A type of whole numbers is `int` with any number of refinements, positivity and periods around it,
in any order: `Ty.IsWhole`. It is meant to hold the numbers that satisfy all of them, `Ty.admits`.
The limits that a type is checked against, and that a quantifier over it is guarded with, are those
of its outermost refinement, and positivity counts only around that. So they are right exactly if
the outermost refinement decides, `limits_allow_iff`.

A constant expression that is a whole number has no other fault where such a type is declared, so
what is reported about it is exactly that it is out of bounds, `expectValue_of_fold`; and nothing
else is said to be when it is declared, assigned or returned, `findsOutside_of_placing`.

Whole numbers also stand for amounts of money and the like. There positivity puts no limits, so that
zero passes for a positive amount, `zero_taken_for_positive_money`; it does not where whole numbers
are declared, `positive_placements_reported`.
-/

namespace Statute

open Checking

variable {t : Ty} {n : Int} {e : Expr}

/-- The number keeps within the limits. -/
def Limits.allow (l : Limits) (n : Int) : Bool := l.1.all (· ≤ n) && l.2.all (n ≤ ·)

namespace Ty

/-- Whole numbers with any constraints around them. -/
inductive IsWhole : Ty → Prop where
  | int : IsWhole .int
  | refine {base lo hi} (h : IsWhole base) : IsWhole (.refine base lo hi)
  | positive {inner} (h : IsWhole inner) : IsWhole (.positive inner)
  | temporal {inner opens closes} (h : IsWhole inner) : IsWhole (.temporal inner opens closes)

/-- The number satisfies all constraints of the type. -/
def admits : Ty → Int → Bool
  | .refine base lo hi, n => base.admits n && Limits.allow (lo, hi) n
  | .positive inner, n => inner.admits n && 0 < n
  | .temporal inner _ _, n => inner.admits n
  | _, _ => true

/-- Of the numbers with the property, whatever the outermost refinement allows satisfies the
constraints inside it. -/
def DecidesOf (P : Int → Prop) : Ty → Prop
  | .refine base lo hi => ∀ n, P n → Limits.allow (lo, hi) n = true → base.admits n = true
  | .positive inner => inner.DecidesOf fun n => P n ∧ 0 < n
  | .temporal inner _ _ => inner.DecidesOf P
  | _ => True

/-- What the outermost refinement allows, and positivity around it, satisfies the constraints inside
the refinement. -/
def OutermostDecides (t : Ty) : Prop := t.DecidesOf fun _ => True

/-- The limits of a type; there are none unless it puts some. -/
def limits (t : Ty) : Limits := t.limits?.getD (none, none)

theorem isInt_iff : t.isInt ↔ t = .int := by
  unfold isInt
  split <;> simp_all

theorem IsWhole.core (h : t.IsWhole) : t.core = .int := by
  induction h with
  | int => rfl
  | refine _ ih | positive _ ih | temporal _ ih => exact ih

/-- Positivity of whole numbers puts a lower limit of one. -/
theorem limits_positive {inner : Ty} (h : inner.core = .int) :
    (Ty.positive inner).limits =
      (some ((inner.limits.1.map (max · 1)).getD 1), inner.limits.2) := by
  simp only [limits, limits?, h]
  rfl

theorem allow_positive (l : Limits) (n : Int) :
    Limits.allow (some ((l.1.map (max · 1)).getD 1), l.2) n = (l.allow n && decide (0 < n)) := by
  have hone : decide (1 ≤ n) = decide (0 < n) := rfl
  obtain ⟨_ | lo, hi⟩ := l <;>
    simp [Limits.allow, hone, Bool.and_assoc, Bool.and_comm, Bool.and_left_comm]

theorem allow_limits_positive {inner : Ty} (h : inner.core = .int) (n : Int) :
    (Ty.positive inner).limits.allow n = (inner.limits.allow n && decide (0 < n)) := by
  rw [limits_positive h, allow_positive]

/-- Positivity of other numbers puts no limits. -/
theorem limits_positive_of_ne {inner : Ty} (h : inner.core ≠ .int) :
    (Ty.positive inner).limits = inner.limits := by
  simp only [limits, limits?, if_neg (isInt_iff.not.mpr h)]

theorem limits_allow_iff_of (h : t.IsWhole) {P : Int → Prop} :
    (∀ n, P n → t.limits.allow n = t.admits n) ↔ t.DecidesOf P := by
  induction h generalizing P with
  | int => exact ⟨fun _ => trivial, fun _ _ _ => rfl⟩
  | @refine base lo hi _ _ =>
    refine forall_congr' fun n => imp_congr_right fun _ => ?_
    show Limits.allow (lo, hi) n = (base.admits n && Limits.allow (lo, hi) n) ↔ _
    cases Limits.allow (lo, hi) n <;> cases base.admits n <;> decide
  | @positive inner h ih =>
    rw [DecidesOf, ← ih]
    refine forall_congr' fun n => ?_
    rw [allow_limits_positive h.core, admits]
    by_cases hn : 0 < n <;> simp [hn]
  | temporal _ ih => exact ih

/-- The limits of a type are its constraints exactly if the outermost refinement decides. -/
theorem limits_allow_iff (h : t.IsWhole) :
    (∀ n, t.limits.allow n = t.admits n) ↔ t.OutermostDecides := by
  unfold OutermostDecides
  rw [← limits_allow_iff_of h]
  simp

end Ty

/-!
## Constants that are whole numbers
-/

/-- Only arithmetic on whole numbers has a whole number as its value. -/
theorem Constant.of_combine_eq_int {op : BinaryOp} {a b : Constant}
    (h : combine op a b = some (.int n)) :
    (∃ k m, a = .int k ∧ b = .int m) ∧ op.isLogical = false ∧ op.isComparison = false := by
  have hfloats (x y : Float) : combineFloats op x y ≠ some (.int n) := by
    unfold combineFloats
    split
    · simp
    · split <;> simp
  have hmixed : (∃ k m, a = .int k ∧ b = .int m) := by
    unfold combine at h
    split at h
    · exact ⟨_, _, rfl, rfl⟩
    · unfold combineBools at h
      split at h <;> simp at h
    · unfold combineStrings at h
      split at h <;> simp at h
    obtain ⟨x, -, hx⟩ := Option.bind_eq_some_iff.mp h
    obtain ⟨y, -, hy⟩ := Option.bind_eq_some_iff.mp hx
    exact absurd hy (hfloats x y)
  refine ⟨hmixed, ?_⟩
  obtain ⟨k, m, rfl, rfl⟩ := hmixed
  cases op with
  | add | sub | mul | div | mod => exact ⟨rfl, rfl⟩
  | eq | ne | lt | gt | le | ge | and | or | implies =>
    simp [combine, combineInts, BinaryOp.isComparison] at h

/-- Only a whole number has one as its negative. -/
theorem Constant.of_negate_eq_int {op a} (h : negate op a = some (.int n)) :
    op = .neg ∧ ∃ k, a = .int k := by
  cases op <;> cases a <;> simp [negate] at h
  exact ⟨rfl, _, rfl⟩

theorem Constant.settled?_ne_int (op : BinaryOp) (a : Constant) (n : Int) :
    settled? op a ≠ some (.int n) := by
  unfold settled?
  split <;> simp

theorem binaryType_int {op : BinaryOp} (hlogical : op.isLogical = false)
    (hcomparison : op.isComparison = false) (lspan rspan : Span) :
    binaryType op .int .int lspan rspan = pure .int := by
  cases op with
  | add | sub | mul | div | mod => rfl
  | eq | ne | lt | gt | le | ge => simp [BinaryOp.isComparison] at hcomparison
  | and | or | implies => cases hlogical

/-- The type of a constant that is a whole number is found without any report. -/
theorem infer_of_fold {cx scope want} (h : foldClosed e = some (.int n)) :
    infer cx scope want e = pure .int := by
  unfold foldClosed at h
  generalize henv : (fun _ => none : String → Option Constant) = env at h
  fun_induction fold env e generalizing want n with
  | case1 span v =>
    cases v with
    | int => rw [infer]; rfl
    | float | money | percent | bool | string | date | duration | pass => cases h
  | case2 span id =>
    subst henv
    cases h
  | case3 span op e ih =>
    obtain ⟨a, ha, hn⟩ := Option.bind_eq_some_iff.mp h
    obtain ⟨rfl, k, rfl⟩ := Constant.of_negate_eq_int hn
    rw [infer, ih ha, pure_bind]
    rfl
  | case4 span op l r ihl ihr =>
    obtain ⟨a, ha, hv | ⟨-, b, hb, hn⟩⟩ := fold_binary_eq_some h
    · exact absurd hv (Constant.settled?_ne_int op a n)
    · obtain ⟨⟨k, m, rfl, rfl⟩, hlogical, hcomparison⟩ := Constant.of_combine_eq_int hn
      rw [infer, ihl ha, pure_bind, ihr hb, pure_bind, binaryType_int hlogical hcomparison]
  | case5 => cases h

theorem outsideLimits_int (lo hi : Option Int) (n : Int) :
    outsideLimits lo hi (.int n) = !Limits.allow (lo, hi) n := by
  cases lo <;> cases hi <;> simp [outsideLimits, Limits.allow, ← decide_not]

/-- The other constraints have nothing to say about a whole number. -/
theorem wrapperFaults_of_fold (h : foldClosed e = some (.int n)) (t : Ty) :
    wrapperFaults t e = [] := by
  fun_induction wrapperFaults t e with
  | case1 value inner opens closes ih => exact ih h
  | case2 value inner ih | case3 value inner ih => rw [ih h, h, List.nil_append]
  | case4 | case5 | case6 => cases h
  | case7 | case8 => rfl

/-- All that can be wrong with a whole number is that it is out of bounds. -/
theorem constantFaults_of_fold (h : foldClosed e = some (.int n)) (t : Ty) :
    constantFaults t e =
      if t.limits.allow n then [] else [⟨.outOfBounds (.int n) t, e.span⟩] := by
  rw [constantFaults, wrapperFaults_of_fold h, List.nil_append, h, Ty.limits]
  cases t.limits? with
  | none => rfl
  | some l => grind [outsideLimits_int]

/-- Where whole numbers are declared, a constant that is one is taken as it is, unless it is out of
bounds. -/
theorem expectValue_of_fold {cx scope} (ht : t.core = .int) (h : foldClosed e = some (.int n)) :
    expectValue cx scope t e = faults (constantFaults t e) := by
  have haccepts : t.accepts .int = true := by
    rw [← Ty.accepts_core, ht]
    rfl
  have hfits : fits cx.env t .int = true := by rw [fits, haccepts, Bool.true_or]
  rw [expectValue, infer_of_fold h, pure_bind, expectFits, hfits]
  rfl

/-!
## What is out of bounds
-/

/-- The finding is that a constant is out of bounds. -/
def Finding.isOutOfBounds (f : Finding) : Bool :=
  match f.fault with
  | .outOfBounds _ _ => true
  | _ => false

/-- The errors about constants that are out of bounds. -/
def Report.outOfBounds (r : Report) : List Finding := r.errors.filter Finding.isOutOfBounds

/-- The check adds exactly these errors about constants that are out of bounds. -/
def FindsOutside {β : Type} (x : Checking β) (fs : List Finding) : Prop :=
  ∀ r : Report, (x.run r).2.outOfBounds = r.outOfBounds ++ fs

/-- Ordinary errors are not about bounds. -/
theorem isOutOfBounds_of_isOrdinary (f : Finding) (h : f.fault.isOrdinary) :
    f.isOutOfBounds = false := by
  obtain ⟨fault, span⟩ := f
  cases fault with
  | outOfBounds => cases h
  | _ => rfl

/-- The check of a declaration, an assignment or a return, with the type that is declared and the
value that is put there. -/
inductive Placing (cx : Context) : Checking Scope → Ty → Expr → Prop where
  | item {scope d} :
      Placing cx (checkItem cx scope (.value d)) (cx.resolve d.type).value d.value
  | declare {result scope d} :
      Placing cx (checkStmt cx result scope (.declare d)) (cx.resolve d.type).value d.value
  | assign {result scope span target value b} (hb : scope.lookup target.name = some b) :
      Placing cx (checkStmt cx result scope (.assign span target value)) b.type value
  | ret {result scope span value} :
      Placing cx (checkStmt cx result scope (.ret span value)) result value

section Placing

variable {q : Finding → Bool} (hq : ∀ f : Finding, f.fault.isOrdinary = true → q f = false)
include hq

theorem finds_bindName (cx : Context) (scope : Scope) (name : Ident) (type : Ty)
    (kind : BindingKind) : Finds q (bindName cx scope name type kind) [] := by
  unfold bindName
  split
  · exact .pure _
  · split
    · exact fun r => (List.append_nil _).symm
    · exact .pure _
  have hfaults := Finds.faults (q := q) [⟨.alreadyDefined name.name, name.span⟩]
  rw [List.filter_singleton, hq _ rfl] at hfaults
  exact hfaults.map _

variable {cx : Context} {t : Ty} {e : Expr} {fs : List Finding}

theorem finds_checkDeclaration {scope : Scope} {d : Declaration}
    (he : Finds q (expectValue cx scope (cx.resolve d.type).value d.value) fs) :
    Finds q (checkDeclaration cx scope d) fs := by
  have hresolve : Finds q (cx.resolve d.type) [] :=
    .of_parallel fun fs => tame_resolveIn _ _ _ d.type (neutral_filter hq fs)
  exact hresolve.bind_value (onlyAdds_resolve cx d.type)
    (he.bind fun _ => finds_bindName hq _ _ _ _ _)

/-- What is not ordinary is found where the value is put, and nowhere else. -/
theorem finds_of_placing {x} (hx : Placing cx x t e)
    (he : ∀ scope, Finds q (expectValue cx scope t e) fs) : Finds q x fs := by
  cases hx with
  | item =>
    exact finds_checkDeclaration hq (he _)
  | declare =>
    exact finds_checkDeclaration hq (he _)
  | @assign result scope span target value b hb =>
    rw [checkStmt, checkAssign, hb]
    exact (he scope).map _
  | @ret result scope span value =>
    exact (he scope).map _

end Placing

/-- Of a constant that is put where whole numbers are declared, what is reported is exactly that it
is out of bounds, if it is. -/
theorem findsOutside_of_placing {cx x} (hx : Placing cx x t e) (ht : t.core = .int)
    (he : foldClosed e = some (.int n)) : FindsOutside x (constantFaults t e) := by
  refine finds_of_placing isOutOfBounds_of_isOrdinary hx fun scope => ?_
  rw [expectValue_of_fold ht he]
  refine .faults_of_forall ?_
  rw [constantFaults_of_fold he]
  split <;> simp [Finding.isOutOfBounds]

/-!
## Positive numbers
-/

/-- Wherever a constant that is not above zero is put as a positive number, it is reported, provided
that the positive numbers are whole or their own limits exclude it. -/
theorem positive_placements_reported {T : Ty} {e : Expr} {n : Int}
    (he : foldClosed e = some (.int n)) (hn : n ≤ 0)
    (hT : T.core = .int ∨ T.limits.allow n = false) {p : Program} {options : CheckOptions}
    (hp : ⟨.positive T, e⟩ ∈ p.placements options) :
    p.Reports options ⟨.outOfBounds (.int n) (.positive T), e.span⟩ := by
  have hlimits : (Ty.positive T).limits.allow n = false := by
    by_cases hcore : T.core = .int
    · have hnot : decide (0 < n) = false := by simpa using hn
      rw [Ty.allow_limits_positive hcore, hnot, Bool.and_false]
    · rw [Ty.limits_positive_of_ne hcore]
      exact hT.resolve_left hcore
  refine Program.reports_of_placement hp ?_
  simp [Placement.faults, constantFaults_of_fold he, hlimits]

/-- Nothing that is put here is positive: a declared number, an assigned one, a returned one and an
amount of money that is also limited. -/
def fees : Program where
  name := "fees"
  items :=
    [.struct ⟨{}, "Fee", [], none,
        [⟨{}, "amount",
          .positive {} (.refine {} (.prim {} .money) (some 5) (some 9)), none⟩]⟩,
      .function ⟨{}, "due", [], [], .positive {} (.prim {} .int),
        [.declare ⟨{}, "x", .positive {} (.prim {} .int), .literal {} (.int 0)⟩,
          .assign {} "x" (.unary {} .neg (.literal {} (.int 1))),
          .ret {} (.binary {} .sub (.literal {} (.int 1)) (.literal {} (.int 3)))]⟩,
      .value ⟨{}, "fee", .named {} "Fee" [],
        .record {} "Fee" [("amount", .literal {} (.int 0))]⟩]

/-- All four are reported. -/
theorem fees_reported :
    fees.Reports {} ⟨.outOfBounds (.int 0) (.positive .int), {}⟩ ∧
    fees.Reports {} ⟨.outOfBounds (.int (-1)) (.positive .int), {}⟩ ∧
    fees.Reports {} ⟨.outOfBounds (.int (-2)) (.positive .int), {}⟩ ∧
    fees.Reports {}
      ⟨.outOfBounds (.int 0) (.positive (.refine (.prim .money) (some 5) (some 9))), {}⟩ := by
  have hlist : fees.placements {} =
      [⟨.positive .int, .literal {} (.int 0)⟩,
        ⟨.positive .int, .unary {} .neg (.literal {} (.int 1))⟩,
        ⟨.positive .int, .binary {} .sub (.literal {} (.int 1)) (.literal {} (.int 3))⟩,
        ⟨.positive (.refine (.prim .money) (some 5) (some 9)), .literal {} (.int 0)⟩,
        ⟨.struct "Fee" [],
          .record {} "Fee" [("amount", .literal {} (.int 0))]⟩] := rfl
  refine ⟨?_, ?_, ?_, ?_⟩
  · exact positive_placements_reported (e := .literal {} (.int 0)) rfl (by decide) (.inl rfl)
      (by rw [hlist]; simp)
  · exact positive_placements_reported (e := .unary {} .neg (.literal {} (.int 1))) rfl (by decide)
      (.inl rfl) (by rw [hlist]; simp)
  · exact positive_placements_reported
      (e := .binary {} .sub (.literal {} (.int 1)) (.literal {} (.int 3))) rfl (by decide)
      (.inl rfl) (by rw [hlist]; simp)
  · exact positive_placements_reported (e := .literal {} (.int 0)) rfl (by decide) (.inr rfl)
      (by rw [hlist]; simp)

/-- A fee of nothing. -/
def waiver : Program where
  name := "waiver"
  items := [.value ⟨{}, "fee", .positive {} (.prim {} .money), .literal {} (.int 0)⟩]

/-- Zero is put as a positive amount of money, and the program is accepted. -/
theorem zero_taken_for_positive_money :
    waiver.check = .ok ⟨waiver, {}, []⟩ ∧
    ⟨.positive (.prim .money), .literal {} (.int 0)⟩ ∈ waiver.placements {} ∧
    foldClosed (.literal {} (.int 0)) = some (.int 0) := by
  have hlist : waiver.placements {} =
      [⟨.positive (.prim .money), .literal {} (.int 0)⟩] := rfl
  exact ⟨check_eq_ok rfl, by rw [hlist]; simp, rfl⟩

end Statute
