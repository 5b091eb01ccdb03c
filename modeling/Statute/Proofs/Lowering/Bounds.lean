import Statute.Proofs.Check.Bounds
import Statute.Proofs.Lowering.Typewise

/-!
# Bounds in the checker and in guards

The bounds of a type are read in two ways: by `Ty.limits?` to check a constant and by `sortOf` to
guard a quantified variable. For whole numbers both come to the same limits, `sortOf_of_isWhole`. So
if the outermost refinement decides, then a constant is reported exactly if it violates one of the
constraints of its type, and a guard is true of exactly the numbers that satisfy all of them,
`bounds_enforced`. Otherwise both miss the constraints inside the refinement, `inner_range_lost`.
-/

namespace Statute

open Logic Checking

universe u

/-- Whole numbers are lowered with the limits that the checker knows. -/
theorem sortOf_of_isWhole {t : Ty} (ht : t.IsWhole) (env : Env) (span : Span) :
    sortOf env span t = pure (.int, t.limits) := by
  induction ht with
  | int => rfl
  | refine _ ih =>
    rw [sortOf, ih, pure_bind]
    rfl
  | positive h ih =>
    rw [sortOf, if_pos (Ty.isInt_iff.mpr h.core), ih, pure_bind]
    rfl
  | temporal _ ih => exact ih

/-- Limits of the checker are those of the logic. -/
theorem Limits.contain_int {α : Type u} {l : Limits} {n : Int} :
    l.Contain (.int n : Datum α) ↔ l.allow n := by
  obtain ⟨_ | lo, _ | hi⟩ := l <;> simp [Contain, allow]

/-- The guard of a variable is true of exactly the numbers that the limits allow. -/
theorem holds_guard_int {α : Type u} (M : Structure α) (ρ : Valuation α) (symbol : String)
    (l : Limits) (n : Int) :
    (∀ g, withinLimits? (.var symbol) l = some g →
      M.Holds (Function.update ρ symbol (.int n)) g) ↔ l.allow n := by
  rw [holds_withinLimits?, Function.update_self, Limits.contain_int]

/-- A quantifier over whole numbers is guarded by the limits of their type. -/
theorem results_quantified_whole {t : Ty} (ht : t.IsWhole) {cx : LoweringContext}
    {lowerBody : Expr → Lowering Lowered} {locals depth span q var} {type : TypeExpr} {body}
    (htype : Stands cx.env [] type t) :
    Results (lowerWith cx lowerBody locals depth (.quantified span q var type body)) fun r =>
      ∃ symbol inner, r = (.quant q symbol .int
        (guardBody q (withinLimits? (.var symbol) t.limits) inner), .bool) := by
  rw [lowerWith_quantified]
  split
  · exact .stop
  refine Results.ofExcept.bind fun u hu => ?_
  obtain rfl := htype.eq_of_typeOf hu
  rw [sortOf_of_isWhole ht, pure_bind]
  refine Results.any.bind fun _ _ => Results.any.bind fun symbol _ => ?_
  exact Results.any.bind fun r _ => Results.any.bind fun _ _ => .pure ⟨symbol, r.1, rfl⟩

/-- Where whole numbers are declared whose outermost refinement decides, all bounds are enforced.
When a constant is declared, assigned or returned, it is said to be out of bounds exactly if it
violates one of the constraints; wherever in a program it is put, it is reported if it does; and the
guard of a quantified variable is true of exactly the numbers that satisfy all of them. -/
theorem bounds_enforced {t : Ty} (ht : t.IsWhole) (hdecides : t.OutermostDecides) :
    (∀ {cx : Context} {x : Checking Scope} {e : Expr} {n : Int}, Placing cx x t e →
      foldClosed e = some (.int n) →
        FindsOutside x (if t.admits n then [] else [⟨.outOfBounds (.int n) t, e.span⟩])) ∧
    (∀ {p : Program} {options : CheckOptions} {e : Expr} {n : Int},
      ⟨t, e⟩ ∈ p.placements options → foldClosed e = some (.int n) → t.admits n = false →
        p.Reports options ⟨.outOfBounds (.int n) t, e.span⟩) ∧
    ∀ {cx : LoweringContext} {lowerBody : Expr → Lowering Lowered} {locals : List Local}
      {depth : Nat} {span : Span} {q : Quantifier} {var : Ident} {type : TypeExpr} {body : Expr},
      Stands cx.env [] type t →
        Results (lowerWith cx lowerBody locals depth (.quantified span q var type body)) fun r =>
          ∃ symbol guard inner, r = (.quant q symbol .int (guardBody q guard inner), .bool) ∧
            ∀ {α : Type u} (M : Structure α) (ρ : Valuation α) (n : Int),
              (∀ g, guard = some g → M.Holds (Function.update ρ symbol (.int n)) g) ↔
                t.admits n = true := by
  have hlimits := (Ty.limits_allow_iff ht).mpr hdecides
  refine ⟨fun hx he => ?_, fun hp he hn => ?_, fun htype => ?_⟩
  · have hfinds := findsOutside_of_placing hx ht.core he
    rwa [constantFaults_of_fold he, hlimits] at hfinds
  · refine Program.reports_of_placement hp ?_
    simp [Placement.faults, constantFaults_of_fold he, hlimits, hn]
  · refine (results_quantified_whole ht htype).mono ?_
    rintro _ ⟨symbol, inner, rfl⟩
    refine ⟨symbol, _, inner, rfl, fun M ρ n => ?_⟩
    rw [holds_guard_int, hlimits]

/-- A number from five to seven that is positive and at most twenty. -/
def gradeType : TypeExpr :=
  .refine {} (.temporal {} (.positive {} (.refine {} (.prim {} .int) none (some 20))) none none)
    (some 5) (some 7)

def grade : Ty :=
  .refine (.temporal (.positive (.refine .int none (some 20))) none none) (some 5) (some 7)

/-- A grade of three is declared. -/
def grades : Program where
  name := "grades"
  items := [.value ⟨{}, "grade", gradeType, .literal {} (.int 3)⟩]

/-- Three is out of bounds for a grade and six is not, and the guard of a variable that ranges over
grades is true of exactly the grades. -/
theorem grades_enforced :
    FindsOutside (checkStmt ⟨{}, {}, []⟩ grade {} (.ret {} (.literal {} (.int 3))))
      [⟨.outOfBounds (.int 3) grade, {}⟩] ∧
    FindsOutside (checkStmt ⟨{}, {}, []⟩ grade {} (.ret {} (.literal {} (.int 6)))) [] ∧
    grades.Reports {} ⟨.outOfBounds (.int 3) grade, {}⟩ ∧
    Results (lowerWith ⟨{}, [], 1⟩ (fun e => Lowering.stop .openMatch e.span) [] 0
        (.quantified {} .all "x" gradeType (.literal {} (.bool true)))) fun r =>
      ∃ symbol guard inner, r = (.quant .all symbol .int (guardBody .all guard inner), .bool) ∧
        ∀ {α : Type u} (M : Structure α) (ρ : Valuation α) (n : Int),
          (∀ g, guard = some g → M.Holds (Function.update ρ symbol (.int n)) g) ↔
            grade.admits n = true := by
  have hwhole : grade.IsWhole := .refine (.temporal (.positive (.refine .int)))
  have hdecides : grade.OutermostDecides := by
    intro n _ hn
    simp [Limits.allow, Ty.admits] at hn ⊢
    omega
  obtain ⟨hchecked, hreported, hguarded⟩ := bounds_enforced hwhole hdecides
  have hlist : grades.placements {} = [⟨grade, .literal {} (.int 3)⟩] := rfl
  refine ⟨hchecked (n := 3) .ret rfl, hchecked (n := 6) .ret rfl, ?_, hguarded ?_⟩
  · exact hreported (e := .literal {} (.int 3)) (by rw [hlist]; simp) rfl rfl
  · exact .refine (.temporal (.positive (.refine .prim)))

/-- Numbers from zero to seven among those from five to ten. -/
def overlapType : TypeExpr :=
  .refine {} (.refine {} (.prim {} .int) (some 5) (some 10)) (some 0) (some 7)

def overlap : Ty := .refine (.refine .int (some 5) (some 10)) (some 0) (some 7)

/-- Two is declared as one of them. -/
def overlaps : Program where
  name := "overlaps"
  items := [.value ⟨{}, "x", overlapType, .literal {} (.int 2)⟩]

/-- Two is not one of these numbers, yet the program is accepted and the guard of a variable that
ranges over them is true of it. -/
theorem inner_range_lost :
    overlap.admits 2 = false ∧ overlaps.check = .ok ⟨overlaps, {}, []⟩ ∧
    ⟨overlap, .literal {} (.int 2)⟩ ∈ overlaps.placements {} ∧
    ∃ guard, ((lowerWith ⟨{}, [], 1⟩ (fun e => Lowering.stop .openMatch e.span) [] 0
        (.quantified {} .all "x" overlapType (.literal {} (.bool true)))).run.run {}).1 =
          .ok (.quant .all "x" .int (.implies guard (.bool true)), .bool) ∧
      ∀ {α : Type u} (M : Structure α) (ρ : Valuation α),
        M.Holds (Function.update ρ "x" (.int 2)) guard := by
  have hlist : overlaps.placements {} = [⟨overlap, .literal {} (.int 2)⟩] := rfl
  refine ⟨rfl, check_eq_ok rfl, by rw [hlist]; simp, _, rfl, fun M ρ => ?_⟩
  exact (holds_guard_int M ρ "x" (some 0, some 7) 2).mpr rfl _ rfl

end Statute
