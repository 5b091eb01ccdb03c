import Statute.Proofs.Lowering.Draft

/-!
# Lowered terms

What the parts of lowered terms mean: the statement that a symbol keeps within limits, the guard of
a quantified variable, and operators on values.
-/

namespace Statute

open Logic

universe u

variable {α : Type u} {q : Quantifier}

/-!
## Limits
-/

/-- No function, quantifier or real number. -/
def HarmlessHere (t : Term) : Prop :=
  t.isReal = false ∧ t.bare? = none ∧ t.binder? = none ∧ ∀ v, t.Applies v

variable {x : String} {l : Limits}

/-- The statement that a symbol keeps within limits mentions nothing else. -/
theorem withinLimits?_harmless {g : Term} (h : withinLimits? (.var x) l = some g) :
    g.Everywhere HarmlessHere ∧ ∀ y ∈ g.free, y = x := by
  obtain ⟨_ | lo, _ | hi⟩ := l <;> cases h <;>
    simp [Term.Everywhere, Term.EverywhereIn, Term.free, Term.freeIn, HarmlessHere, Term.isReal,
      Term.bare?, Term.binder?, Term.Applies]

variable {M : Structure α} {ρ : Valuation α}

theorem holds_withinLimits? :
    (∀ g, withinLimits? (.var x) l = some g → M.Holds ρ g) ↔ l.Contain (ρ x) := by
  obtain ⟨_ | lo, _ | hi⟩ := l <;>
    simp [withinLimits?, Limits.Contain, Comparison.Holds, Structure.value]

variable {guard : Option Term} {body : Term}

theorem everywhere_guardBody {p : Term → Prop}
    (hguard : ∀ g, guard = some g → g.Everywhere p ∧ p (.implies g body) ∧ p (.and [g, body]))
    (hbody : body.Everywhere p) : (guardBody q guard body).Everywhere p := by
  cases guard with
  | none => cases q <;> exact hbody
  | some g =>
    obtain ⟨hg, himplies, hand⟩ := hguard g rfl
    cases q with
    | all => exact ⟨himplies, hg, hbody⟩
    | some => exact ⟨hand, hg, hbody, trivial⟩

theorem mem_free_guardBody (h : x ∈ (guardBody q guard body).free) :
    (∃ g, guard = some g ∧ x ∈ g.free) ∨ x ∈ body.free := by
  cases guard with
  | none => cases q <;> exact .inr h
  | some g => cases q <;> simp_all [guardBody, Term.free, Term.freeIn]

/-- A guarded quantifier ranges over the values within the limits. -/
theorem holds_guarded {symbol : String} {s : SmtSort} :
    M.Holds ρ (.quant q symbol s (guardBody q (withinLimits? (.var symbol) l) body)) ↔
      Ranges q {v | v ∈ M.carrier s ∧ l.Contain v} fun v =>
        M.Holds (Function.update ρ symbol v) body := by
  have hguard (v : Datum α) : (∀ g, withinLimits? (.var symbol) l = some g →
      M.Holds (Function.update ρ symbol v) g) ↔ l.Contain v := by
    rw [holds_withinLimits?, Function.update_self]
  cases hg : withinLimits? (.var symbol) l with
  | none =>
    have hall : ∀ v : Datum α, l.Contain v := fun v => (hguard v).mp (by simp [hg])
    cases q <;> simp [guardBody, Ranges, hall]
  | some g =>
    simp only [hg, Option.some.injEq, forall_eq'] at hguard
    cases q <;> simp [guardBody, Ranges, hguard, and_assoc]

/-!
## Operators and arms
-/

theorem meaning_of_isComparison {op : BinaryOp} (h : op.isComparison) (a b : Datum α) :
    op.meaning M a b = .ofProp ((comparisonOf op).Holds a b) := by
  cases op with
  | eq | ne | lt | gt | le | ge => rfl
  | _ => cases h

theorem meaning_of_isArithmetic {op : BinaryOp} (hlogical : ¬op.isLogical)
    (hcomparison : ¬op.isComparison) (a b : Datum α) :
    op.meaning M a b = M.arith (arithmeticOf op) a b := by
  cases op with
  | add | sub | mul | div | mod => rfl
  | eq | ne | lt | gt | le | ge => exact absurd rfl hcomparison
  | and | or | implies => exact absurd rfl hlogical

theorem ne_real_of_joinedSort? {s t joined : SmtSort} (hs : s ≠ .real) (ht : t ≠ .real)
    (h : joinedSort? s t = some joined) : joined ≠ .real := by
  unfold joinedSort? at h
  split at h
  · exact Option.some.inj h ▸ hs
  split at h
  · exact absurd rfl ht
  · exact absurd rfl hs
  · cases h

theorem armsSort_ne_real {arms} (h : ∀ a ∈ arms, a.sort ≠ .real) : armsSort arms ≠ .real := by
  have hany : (arms.any fun a => a.sort == .real) = false := by
    simpa [List.any_eq_false] using h
  cases arms with
  | nil => decide
  | cons a arms =>
    rw [armsSort, hany, Bool.false_and, if_neg Bool.false_ne_true]
    exact h a List.mem_cons_self

/-- The local that a pattern binds to what it is matched with. -/
def Pattern.boundLocals (r : Lowered) : Pattern → List Local
  | .binding id => [⟨id.name, r.1, r.2⟩]
  | _ => []

end Statute
