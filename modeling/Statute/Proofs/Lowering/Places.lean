import Mathlib
import Statute.Lowering.Principle
import Statute.Proofs.Lowering.Proper

/-!
# Lowering does not look at places

What a step of lowering comes to, and the draft that it leaves, do not depend on where in the text
something stands: only the obstacles name places. Steps that differ in no more than this are `Same`.
-/

namespace Statute

open Logic

variable {β γ : Type} {span span' : Span} {env : Env} {r : Lowered}

/-- What a step comes to, if it is not stopped, and the draft that it leaves. -/
def Lowering.outcome (x : Lowering β) (d : Draft) : Option β × Draft :=
  ((x.run.run d).1.toOption, (x.run.run d).2)

/-- The steps come to the same and leave the same draft, from wherever they start. -/
abbrev Same (x y : Lowering β) : Prop := x.outcome = y.outcome

theorem Same.bind {x y : Lowering β} {f g : β → Lowering γ} (hx : Same x y)
    (hf : ∀ b, Same (f b) (g b)) : Same (x >>= f) (y >>= g) := by
  funext d
  have hd := congrFun hx d
  unfold Lowering.outcome at hd ⊢
  rw [Run.run_bind, Run.run_bind]
  revert hd
  rcases x.run.run d with ⟨_ | b, d₁⟩ <;> rcases y.run.run d with ⟨_ | c, d₂⟩ <;> intro hd <;>
    cases hd
  · rfl
  · exact congrFun (hf b) d₁

theorem same_coerce {t : Term} {source target : SmtSort} :
    Same (coerce t source target span) (coerce t source target span') := by
  unfold coerce
  split <;> rfl

theorem same_expectSort {expected got : SmtSort} :
    Same (expectSort expected got span) (expectSort expected got span') := by
  unfold expectSort
  split <;> rfl

theorem same_ofExcept {x y : Except Obstacle β} (h : x.toOption = y.toOption) :
    Same (Lowering.ofExcept x) (Lowering.ofExcept y) := by
  cases x <;> cases y <;> cases h <;> rfl

theorem same_sortOf {ty : Ty} : Same (sortOf env span ty) (sortOf env span' ty) := by
  funext d
  unfold Lowering.outcome
  rcases ty.isDeclared env span d with ⟨r, hr, hrun⟩ | ⟨hr, o, -, -, hrun⟩ <;>
    rcases ty.isDeclared env span' d with ⟨r', hr', hrun'⟩ | ⟨hr', o', -, -, hrun'⟩ <;>
    rw [hrun, hrun'] <;> grind [Except.toOption]

theorem same_lowerLiteral {v : Literal} : Same (lowerLiteral v span) (lowerLiteral v span') := by
  cases v with
  | date text =>
    unfold lowerLiteral
    dsimp only
    split <;> rfl
  | _ => rfl

theorem same_lowerVariant {t v : Ident} :
    Same (lowerVariant env t.name v.name span) (lowerVariant env t v span') := by
  unfold lowerVariant
  dsimp only
  split <;> rfl

theorem same_lowerUnary {op : UnaryOp} : Same (lowerUnary op r span) (lowerUnary op r span') := by
  cases op with
  | not => exact same_expectSort.bind fun _ => rfl
  | neg =>
    unfold lowerUnary
    dsimp only
    split <;> rfl

theorem same_lowerBinary {op l lspan rspan lspan' rspan'} :
    Same (lowerBinary op l r lspan rspan) (lowerBinary op l r lspan' rspan') := by
  unfold lowerBinary
  dsimp only
  split
  · exact same_expectSort.bind fun _ => same_expectSort.bind fun _ => rfl
  split
  · rfl
  refine same_coerce.bind fun a => same_coerce.bind fun b => ?_
  split
  · split <;> rfl
  · split
    · rfl
    · split <;> rfl

theorem same_lowerMember {f : Ident} :
    Same (lowerMember env r span f.name) (lowerMember env r span' f) := by
  refine Same.bind rfl fun d => ?_
  dsimp only
  split
  · rfl
  split
  · rfl
  · exact same_sortOf.bind fun _ => rfl

theorem same_calledFunction {callee : Ident} {n : Nat} :
    Same (calledFunction env callee.name n) (calledFunction env callee n) := by
  unfold calledFunction
  dsimp only
  split
  · rfl
  · split
    · rfl
    · split <;> rfl

/-- Principles whose bodies become the same, whatever stands around, are lowered to one formula. -/
theorem LoweringContext.lower_of_same (cx : LoweringContext) {a b : Principle} {f : Form}
    (h : ∀ lowerBody locals depth, Same (lowerWith cx lowerBody locals depth a.body)
      (lowerWith cx lowerBody locals depth b.body))
    (hf : cx.lower a = .ok f) : cx.lower b = .ok { f with principle := b.name.name } := by
  have hlower : Same (lowerStatement cx a) (lowerStatement cx b) := by
    refine Same.bind ?_ fun t => ?_
    · cases cx.values.length with
      | zero | succ n => exact h ..
    · obtain ⟨t, s⟩ := t
      dsimp only
      split <;> rfl
  have hstart := congrFun hlower cx.start
  unfold LoweringContext.lower at hf ⊢
  unfold Lowering.outcome LoweringContext.start at hstart
  -- the first is not stopped, so neither is the second
  revert hf hstart
  generalize (lowerStatement cx a).run.run _ = r
  generalize (lowerStatement cx b).run.run _ = r'
  obtain ⟨_ | t, d⟩ := r <;> obtain ⟨_ | t', d'⟩ := r' <;> intro hf hstart <;> cases hf <;>
    cases hstart
  rfl

end Statute
