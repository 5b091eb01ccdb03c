import Statute.Lowering.Expression
import Statute.Proofs.Calendar
import Statute.Proofs.Check.Bounds

/-!
# Date windows

A window of dates is checked in two ways. The checker compares the date of a literal with the dates
around the window, which are not inside it. In the logic dates are numbers of days, and the window is
an interval whose ends are inside it, one day further in. Both say the same of every date,
`date_windows_agree`, since the numbers of days are in the order of the dates.
-/

namespace Statute

open Logic Checking

/-- The finding is that a constant violates a constraint of its type. -/
def Finding.isViolation (f : Finding) : Bool :=
  match f.fault with
  | .constraintViolated _ => true
  | _ => false

theorem isViolation_of_isOrdinary (f : Finding) (h : f.fault.isOrdinary) :
    f.isViolation = false := by
  obtain ⟨fault, span⟩ := f
  cases fault with
  | constraintViolated => cases h
  | _ => rfl

/-- The numbers of the days between two dates. -/
def windowLimits (after before : Option Date) : Limits :=
  (after.map fun d => d.dayNumber + 1, before.map fun d => d.dayNumber - 1)

section Window

variable {after before : Option Date} {text : String} {d : Date} {span : Span}

/-- A date is not after the window's first day or not before its last one exactly if its number is
outside the limits. -/
theorem outside_window_eq (after before : Option Date) (d : Date) :
    ((after.map fun a => d.le a).getD false || (before.map fun b => b.le d).getD false) =
      !(windowLimits after before).allow d.dayNumber := by
  have hafter (a : Date) : d.le a = !decide (a.dayNumber + 1 ≤ d.dayNumber) := by
    grind [Date.le_iff_dayNumber]
  have hbefore (b : Date) : b.le d = !decide (d.dayNumber ≤ b.dayNumber - 1) := by
    grind [Date.le_iff_dayNumber]
  cases after <;> cases before <;> simp [windowLimits, Limits.allow, hafter, hbefore]

/-- All that can be wrong with a date is that it is outside its window. -/
theorem constantFaults_date (hd : Date.parse? text = some d) :
    constantFaults (.validDate after before) (.literal span (.date text)) =
      if (windowLimits after before).allow d.dayNumber then []
      else [⟨.constraintViolated (.validDate after before), span⟩] := by
  have hfaults : constantFaults (.validDate after before) (.literal span (.date text)) =
      wrapperFaults (.validDate after before) (.literal span (.date text)) := List.append_nil _
  rw [hfaults, wrapperFaults, hd]
  dsimp only
  rw [outside_window_eq]
  cases (windowLimits after before).allow d.dayNumber <;> rfl

/-- A date is taken as it is where a window is declared, unless it is outside. -/
theorem expectValue_date {cx : Context} (hd : Date.parse? text = some d) (scope : Scope) :
    expectValue cx scope (.validDate after before) (.literal span (.date text)) =
      faults (constantFaults (.validDate after before) (.literal span (.date text))) := by
  have hinfer : infer cx scope (some (.validDate after before)) (.literal span (.date text)) =
      pure (.prim .date) := by
    rw [infer, literalType, readDate, hd]
    rfl
  rw [expectValue, hinfer, pure_bind]
  rfl

end Window

/-- The checker and the logic agree on windows of dates. A date is put where a window is declared
without violating it exactly if the number that the date is lowered to keeps within the limits that
the window is lowered to, wherever in a program that is. -/
theorem date_windows_agree (after before : Option Date) (text : String) (d : Date)
    (hd : Date.parse? text = some d) :
    (∀ env span,
      sortOf env span (.validDate after before) = pure (.int, windowLimits after before)) ∧
    (∀ span, lowerLiteral (.date text) span = pure (.int d.dayNumber, .int)) ∧
    (∀ span, (⟨.validDate after before, .literal span (.date text)⟩ : Placement).faults =
      if (windowLimits after before).allow d.dayNumber then []
      else [⟨.constraintViolated (.validDate after before), span⟩]) ∧
    (∀ {cx : Context} {x : Checking Scope} {span : Span},
      Placing cx x (.validDate after before) (.literal span (.date text)) →
        Finds Finding.isViolation x
          (if (windowLimits after before).allow d.dayNumber then []
            else [⟨.constraintViolated (.validDate after before), span⟩])) ∧
    ∀ {p : Program} {options : CheckOptions} {span : Span},
      ⟨.validDate after before, .literal span (.date text)⟩ ∈ p.placements options →
        (windowLimits after before).allow d.dayNumber = false →
          p.Reports options ⟨.constraintViolated (.validDate after before), span⟩ := by
  refine ⟨fun env span => rfl, fun span => ?_, fun span => constantFaults_date hd,
    fun {cx x span} hx => ?_, fun {p options span} hp hout => ?_⟩
  · simp only [lowerLiteral.eq_def, hd]
  · refine finds_of_placing isViolation_of_isOrdinary hx fun scope => ?_
    rw [expectValue_date hd, constantFaults_date hd]
    refine .faults_of_forall ?_
    split <;> simp [Finding.isViolation]
  · refine Program.reports_of_placement hp ?_
    rw [Placement.faults, constantFaults_date hd, hout]
    exact List.mem_singleton_self _

/-- The days between the last but one of February and the first of March 2024. -/
def leapWindow : Ty :=
  .validDate (some ⟨2024, 2, 28, rfl⟩) (some ⟨2024, 3, 1, rfl⟩)

/-- The day before the leap day is declared as one of them. -/
def leapDeadline : Program where
  name := "deadline"
  items := [.value ⟨{}, "due", .validDate {} (some "28-02-2024") (some "01-03-2024"),
    .literal {} (.date "2024-02-28")⟩]

/-- The leap day is the only one of them. -/
theorem leapDeadline_reported :
    Finds Finding.isViolation
      (checkStmt ⟨{}, {}, []⟩ leapWindow {} (.ret {} (.literal {} (.date "29-02-2024")))) [] ∧
    leapDeadline.Reports {} ⟨.constraintViolated leapWindow, {}⟩ := by
  have hlist : leapDeadline.placements {} = [⟨leapWindow, .literal {} (.date "2024-02-28")⟩] := rfl
  obtain ⟨-, -, -, hinside, -⟩ := date_windows_agree (some ⟨2024, 2, 28, rfl⟩)
    (some ⟨2024, 3, 1, rfl⟩) "29-02-2024" ⟨2024, 2, 29, rfl⟩ rfl
  obtain ⟨-, -, -, -, houtside⟩ := date_windows_agree (some ⟨2024, 2, 28, rfl⟩)
    (some ⟨2024, 3, 1, rfl⟩) "2024-02-28" ⟨2024, 2, 28, rfl⟩ rfl
  exact ⟨hinside .ret, houtside (by rw [hlist]; exact List.mem_singleton_self _) rfl⟩

end Statute
