import Statute.Match.Exclusivity

/-!
# Runs of a body

How the body of a function may run, as far as the statements alone decide it: a condition, a guard
and a legal test may come out either way, and of the value that is matched no more is known than the
fixed patterns that it is matched by. An arm is chosen if all arms before it are passed over. If no
arm of a `match` statement is chosen, the run goes on behind it; `misses` says whether that may
happen.

What a run returns is known where it is written out: as a variant in a `return`, or in an arm of a
`match` that is returned.
-/

namespace Statute

/-!
## Arms
-/

/-- What is known of a value that is matched: the fixed patterns that match it. -/
abbrev Scrutinee := FixedPattern → Prop

/-- An arm may apply, unless its pattern is fixed and does not match. -/
def ArmHead.MayApply (v : Scrutinee) (a : ArmHead) : Prop :=
  ∀ k, FixedPattern.of? a.pattern = some k → v k

/-- An arm may be passed over if its guard or its legal test fails, or if its pattern is fixed and
does not match. -/
def ArmHead.MayPass (v : Scrutinee) (a : ArmHead) : Prop :=
  a.guarded = true ∨ (∃ span test, a.pattern = .satisfies span test) ∨
    ∃ k, FixedPattern.of? a.pattern = some k ∧ ¬v k

/-- The body of the arm that is chosen, or none. -/
inductive Chosen {γ β : Type} (v : Scrutinee) : List (Arm γ β) → Option β → Prop where
  | none : Chosen v [] none
  | take {a arms} (ha : a.head.MayApply v) : Chosen v (a :: arms) (some a.body)
  | pass {a arms r} (ha : a.head.MayPass v) (h : Chosen v arms r) : Chosen v (a :: arms) r

theorem Chosen.exists_arm {γ β : Type} {v : Scrutinee} {arms : List (Arm γ β)} {body : β}
    (h : Chosen v arms (some body)) : ∃ a ∈ arms, a.body = body := by
  generalize hr : some body = r at h
  induction h with
  | none => cases hr
  | take | pass _ _ ih => grind

/-!
## Runs
-/

/-- The variant that a returned expression comes to, by the names of its enum and its own, where it
is written out. -/
inductive ComesTo : Expr → Option (String × String) → Prop where
  | variant {span t v} : ComesTo (.variant span t v) (some (t.name, v.name))
  | select {v span place e arms body r} (hbody : Chosen v arms (some body)) (h : ComesTo body r) :
      ComesTo (.select span place e arms) r
  | other {e} (hvariant : ∀ span t v, e ≠ .variant span t v)
      (hselect : ∀ span place s arms, e ≠ .select span place s arms) : ComesTo e none

/-- How a statement or a block ends. -/
inductive Ending where
  | goesOn
  | returns (variant : Option (String × String))

mutual

/-- A statement may run to this end. -/
inductive StmtRuns (misses : Bool) : Stmt → Ending → Prop where
  | ret {span value r} (h : ComesTo value r) : StmtRuns misses (.ret span value) (.returns r)
  | yes {span cond yes no o} (h : BlockRuns misses yes o) :
      StmtRuns misses (.branch span cond yes no) o
  | no {span cond yes no o} (h : BlockRuns misses no o) :
      StmtRuns misses (.branch span cond yes (some no)) o
  | noElse {span cond yes} : StmtRuns misses (.branch span cond yes none) .goesOn
  | select {v span e arms body o} (hbody : Chosen v arms (some body))
      (h : BlockRuns misses body o) : StmtRuns misses (.select span e arms) o
  | missed {v span e arms} (hmisses : misses = true) (harms : Chosen v arms none) :
      StmtRuns misses (.select span e arms) .goesOn
  | declare {d} : StmtRuns misses (.declare d) .goesOn
  | assign {span target value} : StmtRuns misses (.assign span target value) .goesOn
  | eval {e} : StmtRuns misses (.eval e) .goesOn
  | pass {span} : StmtRuns misses (.pass span) .goesOn

/-- A block may run to this end. -/
inductive BlockRuns (misses : Bool) : List Stmt → Ending → Prop where
  | nil : BlockRuns misses [] .goesOn
  | stop {s rest r} (h : StmtRuns misses s (.returns r)) :
      BlockRuns misses (s :: rest) (.returns r)
  | next {s rest o} (h : StmtRuns misses s .goesOn) (hrest : BlockRuns misses rest o) :
      BlockRuns misses (s :: rest) o

end

/-!
## Blocks inside blocks
-/

/-- The second block is the first, or stands in it at some depth. -/
inductive Encloses : List Stmt → List Stmt → Prop where
  | refl {b} : Encloses b b
  | yes {b span cond yes no c} (h : .branch span cond yes no ∈ b) (hc : Encloses yes c) :
      Encloses b c
  | no {b span cond yes no c} (h : .branch span cond yes (some no) ∈ b) (hc : Encloses no c) :
      Encloses b c
  | arm {b span e arms a c} (h : .select span e arms ∈ b) (ha : a ∈ arms)
      (hc : Encloses a.body c) : Encloses b c

/-- The second expression is the first, or the body of an arm of it, at some depth: so it is
returned wherever the first is. -/
inductive ReturnsInside : Expr → Expr → Prop where
  | refl {e} : ReturnsInside e e
  | arm {span place s arms a e} (ha : a ∈ arms) (he : ReturnsInside a.body e) :
      ReturnsInside (.select span place s arms) e

/-- There is one wildcard arm at most, and no arm that can never be chosen. -/
def ProperArms (arms : List ArmHead) : Prop :=
  (arms.filter (·.pattern.isWildcard)).length ≤ 1 ∧ unreachableArms arms = []

/-- Every `match` statement of the block, and every `match` that is returned in it, has proper
arms. -/
structure ProperBlock (b : List Stmt) : Prop where
  select : ∀ c, Encloses b c → ∀ span e arms, .select span e arms ∈ c →
    ProperArms (arms.map Arm.head)
  ret : ∀ c, Encloses b c → ∀ span value, .ret span value ∈ c → ∀ span' place s arms,
    ReturnsInside value (.select span' place s arms) → ProperArms (arms.map Arm.head)

/-- No wildcard arm of a `match` statement of the block has a guard. -/
def PlainWildcards (b : List Stmt) : Prop :=
  ∀ c, Encloses b c → ∀ span e arms, .select span e arms ∈ c → ∀ a ∈ arms,
    a.pattern.isWildcard = true → a.guard = none

end Statute
