import Statute.Calendar

/-!
# Days in order

The number of a day grows with the date: every month begins where the month before it ends,
`daysBeforeMonth_add_le`, and every year where the year before it ends, `daysBeforeYear_succ`, leap
years and the years before year one included. So dates can be compared by their numbers,
`lt_iff_dayNumber` and `le_iff_dayNumber`.
-/

namespace Statute

/-- Number of days of a year. -/
def daysInYear (year : Int) : Nat := if isLeapYear year then 366 else 365

namespace Date

theorem daysBeforeMonth_succ (year : Int) {month : Nat} (h : 1 ≤ month) :
    daysBeforeMonth year (month + 1) = daysBeforeMonth year month + daysInMonth year month := by
  obtain ⟨m, rfl⟩ := Nat.exists_eq_add_of_le' h
  have hfold (ns : List Nat) (n : Nat) : ns.foldr (· + ·) n = ns.foldr (· + ·) 0 + n := by
    induction ns with
    | nil => exact (Nat.zero_add n).symm
    | cons k ns ih => rw [List.foldr_cons, ih, List.foldr_cons, Nat.add_assoc]
  unfold daysBeforeMonth
  rw [Nat.add_sub_cancel, Nat.add_sub_cancel, List.range_succ, List.map_append, List.foldr_append,
    hfold]
  rfl

/-- A month ends before a later one begins. -/
theorem daysBeforeMonth_add_le (year : Int) {month later : Nat} (h : 1 ≤ month)
    (hlt : month < later) :
    daysBeforeMonth year month + daysInMonth year month ≤ daysBeforeMonth year later := by
  induction hlt with
  | refl => exact Nat.le_of_eq (daysBeforeMonth_succ year h).symm
  | @step later hlt ih => grind [daysBeforeMonth_succ]

theorem daysBeforeMonth_end (year : Int) : daysBeforeMonth year 13 = daysInYear year := by
  cases h : isLeapYear year <;> simp [daysBeforeMonth, daysInYear, daysInMonth, h, List.range_succ]

theorem daysBeforeYear_succ (year : Int) :
    daysBeforeYear (year + 1) = daysBeforeYear year + daysInYear year := by
  have hdays : (daysInYear year : Int) =
      if year % 4 = 0 ∧ (year % 100 ≠ 0 ∨ year % 400 = 0) then 366 else 365 := by
    simp only [daysInYear, isLeapYear, Bool.and_eq_true, Bool.or_eq_true, beq_iff_eq, bne_iff_ne]
    split <;> rfl
  rw [hdays]
  simp only [daysBeforeYear]
  split <;> omega

/-- A year ends before a later one begins. -/
theorem daysBeforeYear_add_le {year later : Int} (h : year < later) :
    daysBeforeYear year + daysInYear year ≤ daysBeforeYear later := by
  rw [← daysBeforeYear_succ]
  simp only [daysBeforeYear]
  omega

theorem one_le_day (d : Date) : 1 ≤ d.day ∧ d.day ≤ daysInMonth d.year d.month := by
  have hvalid := d.valid
  simp only [isDay, Bool.and_eq_true, decide_eq_true_eq] at hvalid
  exact ⟨hvalid.1.2, hvalid.2⟩

theorem one_le_month (d : Date) : 1 ≤ d.month ∧ d.month ≤ 12 := by
  have hday := d.one_le_day
  generalize d.month = month at hday
  unfold daysInMonth at hday
  split at hday <;> omega

/-- No day lies after the end of its year. -/
theorem day_le_daysInYear (d : Date) : daysBeforeMonth d.year d.month + d.day ≤ daysInYear d.year := by
  have hmonth := d.one_le_month
  have hend := daysBeforeMonth_add_le d.year hmonth.1 (Nat.lt_succ_of_le hmonth.2)
  rw [daysBeforeMonth_end] at hend
  have hday := d.one_le_day
  omega

theorem dayNumber_lt_of_lt {a b : Date} (h : a.lt b) : a.dayNumber < b.dayNumber := by
  have ha := a.one_le_day
  have hb := b.one_le_day
  simp only [lt, Bool.or_eq_true, Bool.and_eq_true, decide_eq_true_eq, beq_iff_eq] at h
  unfold dayNumber
  rcases h with hyear | ⟨hyear, hmonth | ⟨hmonth, hday⟩⟩
  · have hend := daysBeforeYear_add_le hyear
    have hdays := a.day_le_daysInYear
    omega
  · have hend := daysBeforeMonth_add_le a.year a.one_le_month.1 hmonth
    rw [← hyear]
    omega
  · rw [← hyear, ← hmonth]
    omega

/-- Dates are in the order of their numbers. -/
theorem lt_iff_dayNumber {a b : Date} : a.lt b ↔ a.dayNumber < b.dayNumber := by
  have htotal : a.lt b = true ∨ b.lt a = true ∨ a = b := by
    obtain ⟨y, m, d, _⟩ := a
    obtain ⟨y', m', d', _⟩ := b
    simp only [lt, Bool.or_eq_true, Bool.and_eq_true, decide_eq_true_eq, beq_iff_eq, Date.mk.injEq]
    omega
  refine ⟨dayNumber_lt_of_lt, fun h => ?_⟩
  rcases htotal with hlt | hlt | rfl
  · exact hlt
  · have hreverse := dayNumber_lt_of_lt hlt
    omega
  · omega

theorem le_iff_dayNumber {a b : Date} : a.le b ↔ a.dayNumber ≤ b.dayNumber := by
  rw [le, Bool.not_eq_true', ← Bool.not_eq_true, lt_iff_dayNumber]
  omega

end Date

end Statute
