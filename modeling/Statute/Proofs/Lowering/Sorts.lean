import Statute.Proofs.Check.Subsumption
import Statute.Proofs.Lowering.Rules

/-!
# The sorts of checked types

The checker compares types by their cores, and what is left of a type without its constraints also
decides its sort, `Ty.coreSort?`. So what the checker accepts bears on sorts: where one type accepts
another, both have one sort, or whole numbers stand where real ones are asked for, or both are
struct types, which have a sort for each list of type arguments, `Ty.sorts_of_accepts`.
-/

namespace Statute

open Logic Checking

/-- The sort of a built-in type. -/
def Prim.coreSort? : Prim → Option SmtSort
  | .int | .date | .duration => some .int
  | .float | .money | .percent => some .real
  | .bool => some .bool
  | .string => some .string
  | .pass => none

/-- Among the types with arithmetic, `int` alone has whole numbers. -/
theorem Prim.sort_of_isNumeric {p : Prim} {s : SmtSort} (hp : p.isNumeric)
    (hs : p.coreSort? = some s) : (p = .int ∧ s = .int) ∨ (p ≠ .int ∧ s = .real) := by
  cases p with
  | int => exact .inl ⟨rfl, (Option.some.inj hs).symm⟩
  | float | money | percent => exact .inr ⟨by decide, (Option.some.inj hs).symm⟩
  | bool | string | date | duration | pass => cases hp

theorem Prim.isNumeric_of_real {p : Prim} (hs : p.coreSort? = some .real) :
    p.isNumeric ∧ p ≠ .int := by
  cases p with
  | float | money | percent => exact ⟨rfl, by decide⟩
  | int | date | duration | bool | string | pass => cases hs

namespace Ty

/-- The sort of a type, as its core decides it. -/
def coreSort? (t : Ty) : Option SmtSort :=
  match t.core with
  | .prim p => p.coreSort?
  | .struct n args => some (.free (structSortName (.struct n args)))
  | .enum n => some (.enum n)
  | .citation _ => some .string
  | _ => none

/-- Two struct types, under their constraints, that are not the same. -/
def StructsDiffer (a b : Ty) : Prop :=
  ∃ n as m bs, a.core = .struct n as ∧ b.core = .struct m bs ∧ a.core ≠ b.core

theorem StructsDiffer.symm {a b : Ty} (h : a.StructsDiffer b) : b.StructsDiffer a := by
  obtain ⟨n, as, m, bs, ha, hb, hne⟩ := h
  exact ⟨m, bs, n, as, hb, ha, hne.symm⟩

theorem core_core (t : Ty) : t.core.core = t.core := by
  fun_induction Ty.core t with
  | case1 _ _ _ ih | case2 _ _ _ ih | case3 _ ih | case4 _ ih => exact ih
  | case5 | case6 | case7 | case8 | case9 | case10 | case11 | case12 | case13 | case14 => rfl

theorem coreSort?_core (t : Ty) : t.core.coreSort? = t.coreSort? := by
  unfold coreSort?
  rw [core_core]

variable {a b : Ty} {s t : SmtSort}

/-- Constraints do not change the sort. -/
theorem coreSort?_of_encoding? {t : Ty} {s : SmtSort} {l : Limits}
    (h : t.encoding? = some (s, l)) : t.coreSort? = some s := by
  cases t with
  | prim p => cases p <;> cases h <;> rfl
  | refine base lo hi =>
    obtain ⟨e, he, hes⟩ := Option.map_eq_some_iff.mp h
    cases hes
    exact coreSort?_of_encoding? (t := base) he
  | temporal inner => exact coreSort?_of_encoding? (t := inner) h
  | positive inner =>
    rw [Ty.encoding?] at h
    split at h
    · obtain ⟨e, he, hes⟩ := Option.map_eq_some_iff.mp h
      cases hes
      exact coreSort?_of_encoding? (t := inner) he
    · cases h
  | struct | enum | citation | validDate | moneyIn =>
    cases h
    rfl
  | nonEmpty | union | array | var | unknown => cases h

/-- The types that have a sort. -/
theorem coreSort?_cases (h : a.coreSort? = some s) :
    (∃ p, a.core = .prim p ∧ p.coreSort? = some s) ∨
    (∃ n args, a.core = .struct n args ∧ s = .free (structSortName (.struct n args))) ∨
    (∃ n, a.core = .enum n ∧ s = .enum n) ∨ ∃ c, a.core = .citation c ∧ s = .string := by
  unfold coreSort? at h
  split at h
  next p hp => exact .inl ⟨p, hp, h⟩
  next n args hn => exact .inr (.inl ⟨n, args, hn, (Option.some.inj h).symm⟩)
  next n hn => exact .inr (.inr (.inl ⟨n, hn, (Option.some.inj h).symm⟩))
  next c hc => exact .inr (.inr (.inr ⟨c, hc, (Option.some.inj h).symm⟩))
  · cases h

/-- The sorts of different struct types have the names of these. -/
theorem StructsDiffer.text (h : a.StructsDiffer b) (ha : a.coreSort? = some s)
    (hb : b.coreSort? = some t) :
    s.text = structSortName a.core ∧ t.text = structSortName b.core := by
  obtain ⟨n, as, m, bs, hn, hm, -⟩ := h
  rw [coreSort?, hn] at ha
  rw [coreSort?, hm] at hb
  cases ha
  cases hb
  rw [hn, hm]
  exact ⟨rfl, rfl⟩

/-- A type with a sort has no alternatives. -/
theorem eachAlternative_of_coreSort? (h : a.coreSort? = some s) (p : Ty → Bool) :
    a.eachAlternative p = p a.core := by
  rw [← eachAlternative_core]
  rcases coreSort?_cases h with ⟨_, hcore, -⟩ | ⟨_, _, hcore, -⟩ | ⟨_, hcore, -⟩ | ⟨_, hcore, -⟩
  all_goals rw [hcore, eachAlternative]

theorem fitsAnywhere_of_coreSort? (h : a.coreSort? = some s) : a.core.fitsAnywhere = false := by
  rcases coreSort?_cases h with ⟨_, hcore, -⟩ | ⟨_, _, hcore, -⟩ | ⟨_, hcore, -⟩ | ⟨_, hcore, -⟩
  all_goals rw [hcore, fitsAnywhere] <;> simp

/-- Where one type accepts another, whole numbers may stand for real ones, and otherwise sorts
differ only between struct types. -/
theorem sorts_of_accepts (ha : a.coreSort? = some s) (hb : b.coreSort? = some t)
    (h : a.accepts b) :
    s = t ∨ (s = .real ∧ t = .int ∧ b.core = .int) ∨ a.StructsDiffer b := by
  have hanywhere := fitsAnywhere_of_coreSort? hb
  rw [← accepts_core] at h
  rcases coreSort?_cases ha with ⟨p, hp, hs⟩ | ⟨n, as, hn, rfl⟩ | ⟨n, hn, rfl⟩ | ⟨c, hc, rfl⟩
  · rw [hp, accepts, primAccepts, eachAlternative_of_coreSort? hb] at h
    split at h
    next q hq =>
      rw [coreSort?, hq] at hb
      -- the same type, or whole numbers for a type with arithmetic
      have hpq : p = q ∨ q = .int ∧ p.isNumeric = true := by simpa using h
      rcases hpq with rfl | ⟨rfl, hnumeric⟩
      · exact .inl (Option.some.inj (hs.symm.trans hb))
      cases hb
      rcases Prim.sort_of_isNumeric hnumeric hs with ⟨-, rfl⟩ | ⟨-, rfl⟩
      · exact .inl rfl
      · exact .inr (.inl ⟨rfl, rfl, hq⟩)
    · exact absurd h (by simp [hanywhere])
  · rw [hn, accepts, eachAlternative_of_coreSort? hb] at h
    split at h
    next m bs hm =>
      by_cases hcore : a.core = b.core
      · rw [coreSort?, ← hcore, hn] at hb
        exact .inl (Option.some.inj hb)
      · exact .inr (.inr ⟨n, as, m, bs, hn, hm, hcore⟩)
    · exact absurd h (by simp [hanywhere])
  · rw [hn, accepts, eachAlternative_of_coreSort? hb] at h
    split at h
    next m hm =>
      rw [coreSort?, hm] at hb
      obtain rfl : n = m := by simpa using h
      exact .inl (Option.some.inj hb)
    · exact absurd h (by simp [hanywhere])
  · rw [hc, accepts, eachAlternative_of_coreSort? hb] at h
    split at h
    next c' hc' =>
      rw [coreSort?, hc'] at hb
      exact .inl (Option.some.inj hb)
    · exact absurd h (by simp [hanywhere])

/-- Where a value fits, its sort is the one asked for, or whole numbers stand for real ones, or the
two are different struct types. -/
theorem sorts_of_fits {env : Env} (ha : a.coreSort? = some s) (hb : b.coreSort? = some t)
    (h : fits env a b) :
    s = t ∨ (s = .real ∧ t = .int ∧ b.core = .int) ∨ a.StructsDiffer b := by
  rcases Bool.or_eq_true_iff.mp h with haccepts | hextends
  · exact sorts_of_accepts ha hb haccepts
  split at hextends
  next n as m bs hn hm =>
    by_cases hcore : a.core = b.core
    · rw [coreSort?, hcore] at ha
      exact .inl (Option.some.inj (ha.symm.trans hb))
    · exact .inr (.inr ⟨n, as, m, bs, hn, hm, hcore⟩)
  · cases hextends

theorem isUnknown_of_coreSort? (h : a.coreSort? = some s) : a.isUnknown = false := by
  cases a with
  | unknown => cases h
  | _ => rfl

theorem sort_of_isBool (ha : a.coreSort? = some s) (h : a.isBool) : s = .bool := by
  unfold isBool at h
  unfold coreSort? at ha
  split at h
  next hcore =>
    rw [hcore] at ha
    exact (Option.some.inj ha).symm
  next hcore =>
    rw [hcore] at ha
    cases ha
  · cases h

/-- Numbers with a sort are of a built-in type. -/
theorem prim_of_isNumeric (ha : a.coreSort? = some s) (h : a.isNumeric) :
    ∃ p, a.core = .prim p ∧ p.isNumeric ∧ p.coreSort? = some s := by
  rw [← isNumeric_core] at h
  rcases coreSort?_cases ha with ⟨p, hp, hs⟩ | ⟨_, _, hn, -⟩ | ⟨_, hn, -⟩ | ⟨_, hc, -⟩
  · rw [hp] at h
    exact ⟨p, hp, h, hs⟩
  · rw [hn] at h
    cases h
  · rw [hn] at h
    cases h
  · rw [hc] at h
    cases h

end Ty

/-!
## Sorts of results
-/

section Results

variable {l r : Ty} {s t : SmtSort}

/-- Numbers meet at a sort of numbers, which is that of the result. They are whole numbers only if
both operands are of type `int`. -/
theorem sort_of_arithmeticType (hs : l.coreSort? = some s) (ht : r.coreSort? = some t)
    (hl : l.isNumeric) (hr : r.isNumeric) :
    ∃ joined v, joinedSort? s t = some joined ∧ joined.isNumeric ∧
      arithmeticType l r = .prim v ∧ v.coreSort? = some joined ∧
      (joined ≠ .int → joined = .real ∧ ¬(l.core = .int ∧ r.core = .int)) := by
  obtain ⟨p, hp, hpnum, hps⟩ := Ty.prim_of_isNumeric hs hl
  obtain ⟨q, hq, hqnum, hqt⟩ := Ty.prim_of_isNumeric ht hr
  unfold arithmeticType
  rw [hp, hq]
  rcases Prim.sort_of_isNumeric hpnum hps with ⟨rfl, rfl⟩ | ⟨hpne, rfl⟩
  · rcases Prim.sort_of_isNumeric hqnum hqt with ⟨rfl, rfl⟩ | ⟨hqne, rfl⟩
    · exact ⟨.int, .int, rfl, rfl, rfl, rfl, fun h => absurd rfl h⟩
    · refine ⟨.real, q, rfl, rfl, ?_, hqt, fun _ => ⟨rfl, fun h => hqne (by simpa using h.2)⟩⟩
      cases q <;> rfl
  · have hjoined : joinedSort? .real t = some .real := by
      rcases Prim.sort_of_isNumeric hqnum hqt with ⟨-, rfl⟩ | ⟨-, rfl⟩
      · rfl
      · rfl
    have hreal (_ : SmtSort.real ≠ .int) :
        SmtSort.real = .real ∧ ¬(Ty.prim p = .int ∧ Ty.prim q = .int) :=
      ⟨rfl, fun h => hpne (by simpa using h.1)⟩
    -- a `float` on the right decides, otherwise what stands on the left
    by_cases hfloat : q = .float
    · refine ⟨.real, .float, hjoined, rfl, ?_, rfl, hreal⟩
      rw [hfloat]
      cases p <;> rfl
    · refine ⟨.real, p, hjoined, rfl, ?_, hps, hreal⟩
      cases p <;> cases q <;> simp at hpne hfloat ⊢

/-- Dates and durations are whole numbers. -/
theorem sort_of_durationType? {op u} (hs : l.coreSort? = some s) (ht : r.coreSort? = some t)
    (h : durationType? op l r = some u) :
    s = .int ∧ t = .int ∧ ∃ v, u = .prim v ∧ v.coreSort? = some .int := by
  have hwhole {p q v : Prim} (hl : l.core = .prim p) (hr : r.core = .prim q)
      (hp : p.coreSort? = some .int) (hq : q.coreSort? = some .int)
      (hv : v.coreSort? = some .int) (hu : some (Ty.prim v) = some u) :
      s = .int ∧ t = .int ∧ ∃ v, u = .prim v ∧ v.coreSort? = some .int := by
    rw [Ty.coreSort?, hl] at hs
    rw [Ty.coreSort?, hr] at ht
    refine ⟨Option.some.inj (hs.symm.trans hp), Option.some.inj (ht.symm.trans hq), v, ?_, hv⟩
    exact (Option.some.inj hu).symm
  unfold durationType? at h
  split at h
  case h_5 => cases h
  all_goals exact hwhole ‹_› ‹_› rfl rfl rfl h

end Results

end Statute
