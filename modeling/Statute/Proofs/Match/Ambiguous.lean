import Statute.Proofs.Match.Runs

/-!
# Ambiguous code

When a body is ambiguous, said without following the analysis. Code is looked at if it can be
reached, as far as the statements alone decide it: a statement that always returns hides what comes
after it, a wildcard arm hides the arms after it, and an arm without guard hides those that repeat its
fixed pattern. Statements of one block do not exclude each other, and neither do open arms of one `match`:
arms with a guard, with a legal test or with a mere name. If two of these can return different
variants, they clash.
-/

namespace Statute

/-!
## What is looked at
-/

/-- The fixed pattern of an arm without guard. -/
def ArmHead.fixed? (a : ArmHead) : Option FixedPattern :=
  if a.guarded then none else FixedPattern.of? a.pattern

/-- An arm is looked at if no wildcard stands before it, and if it does not repeat a fixed pattern:
no earlier arm and itself are without guard and have the same one. -/
structure ArmHead.Reached (before : List ArmHead) (a : ArmHead) : Prop where
  noWildcard : ∀ b ∈ before, b.pattern.isWildcard = false
  fresh : ∀ k ∈ a.fixed?, ∀ b ∈ before, ∀ k' ∈ b.fixed?, (k == k') = false

/-- An arm of a `match` that is looked at, and the arms before it. -/
structure ReachedArm {γ β : Type} (arms before : List (Arm γ β)) (a : Arm γ β) : Prop where
  place : before ++ [a] <+: arms
  reached : a.head.Reached (before.map Arm.head)

mutual

/-- Every way through the statement ends in a `return`. That of a `match` does if it has a wildcard
arm without guard, and every way through an arm that is looked at does. -/
inductive StmtAlwaysReturns : Stmt → Prop where
  | ret {span value} : StmtAlwaysReturns (.ret span value)
  | branch {span cond yes no} (hyes : BlockAlwaysReturns yes) (hno : BlockAlwaysReturns no) :
      StmtAlwaysReturns (.branch span cond yes (some no))
  | select {span e arms}
      (hwildcard : ∃ a ∈ arms, a.pattern.isWildcard = true ∧ a.guard = none)
      (harms : ∀ before a, ReachedArm arms before a → BlockAlwaysReturns a.body) :
      StmtAlwaysReturns (.select span e arms)

/-- Every way through the block ends in a `return`. -/
inductive BlockAlwaysReturns : List Stmt → Prop where
  | intro {b s} (hs : s ∈ b) (h : StmtAlwaysReturns s) : BlockAlwaysReturns b

end

/-- A statement of a block that is looked at, and the statements before it: none of them always
returns. -/
structure ReachedStmt (b before : List Stmt) (s : Stmt) : Prop where
  place : before ++ [s] <+: b
  reached : ∀ t ∈ before, ¬StmtAlwaysReturns t

/-- A returned expression can come to this variant of the enum. -/
inductive CanCome (enum : String) : Expr → String → Prop where
  | variant {span t v} (ht : t.name = enum) : CanCome enum (.variant span t v) v.name
  | arm {span place s arms before a v} (ha : ReachedArm arms before a)
      (h : CanCome enum a.body v) : CanCome enum (.select span place s arms) v

mutual

/-- A statement can return this variant of the enum. -/
inductive StmtCanReturn (enum : String) : Stmt → String → Prop where
  | ret {span value v} (h : CanCome enum value v) : StmtCanReturn enum (.ret span value) v
  | yes {span cond yes no v} (h : BlockCanReturn enum yes v) :
      StmtCanReturn enum (.branch span cond yes no) v
  | no {span cond yes no v} (h : BlockCanReturn enum no v) :
      StmtCanReturn enum (.branch span cond yes (some no)) v
  | arm {span e arms before a v} (ha : ReachedArm arms before a)
      (h : BlockCanReturn enum a.body v) : StmtCanReturn enum (.select span e arms) v

/-- A block can return this variant of the enum. -/
inductive BlockCanReturn (enum : String) : List Stmt → String → Prop where
  | intro {b before s v} (hs : ReachedStmt b before s) (h : StmtCanReturn enum s v) :
      BlockCanReturn enum b v

end

/-!
## Ambiguous code
-/

/-- Two of the statements that are looked at can return different variants. -/
def StmtsClash (enum : String) (b : List Stmt) : Prop :=
  ∃ before t, ReachedStmt b before t ∧ ∃ s ∈ before, ∃ v w,
    StmtCanReturn enum s v ∧ StmtCanReturn enum t w ∧ v ≠ w

/-- Two of the arms that are looked at may both apply and can return different variants. -/
def ArmsClash {γ β : Type} (can : β → String → Prop) (arms : List (Arm γ β)) : Prop :=
  ∃ before b, ReachedArm arms before b ∧ ArmsFlow.isOpen b.head = true ∧
    ∃ before' a, ReachedArm before before' a ∧ ArmsFlow.isOpen a.head = true ∧ ∃ v w,
      can a.body v ∧ can b.body w ∧ v ≠ w

/-- A returned expression is a `match` with arms that clash, or has one in an arm that is looked
at. -/
inductive AmbiguousValue (enum : String) : Expr → Prop where
  | arms {span place s arms} (h : ArmsClash (CanCome enum) arms) :
      AmbiguousValue enum (.select span place s arms)
  | arm {span place s arms before a} (ha : ReachedArm arms before a)
      (h : AmbiguousValue enum a.body) : AmbiguousValue enum (.select span place s arms)

mutual

/-- Somewhere in what is looked at of the statement, statements of a block clash or arms of a
`match`. -/
inductive AmbiguousStmt (enum : String) : Stmt → Prop where
  | ret {span value} (h : AmbiguousValue enum value) : AmbiguousStmt enum (.ret span value)
  | yes {span cond yes no} (h : AmbiguousBlock enum yes) :
      AmbiguousStmt enum (.branch span cond yes no)
  | no {span cond yes no} (h : AmbiguousBlock enum no) :
      AmbiguousStmt enum (.branch span cond yes (some no))
  | arms {span e arms} (h : ArmsClash (BlockCanReturn enum) arms) :
      AmbiguousStmt enum (.select span e arms)
  | arm {span e arms before a} (ha : ReachedArm arms before a) (h : AmbiguousBlock enum a.body) :
      AmbiguousStmt enum (.select span e arms)

/-- Somewhere in what is looked at of the block, statements of a block clash or arms of a
`match`. -/
inductive AmbiguousBlock (enum : String) : List Stmt → Prop where
  | stmts {b} (h : StmtsClash enum b) : AmbiguousBlock enum b
  | stmt {b before s} (hs : ReachedStmt b before s) (h : AmbiguousStmt enum s) :
      AmbiguousBlock enum b

end

/-!
## Blocks of statements
-/

/-- The blocks of a statement. -/
def Stmt.blocks : Stmt → List (List Stmt)
  | .branch _ _ yes no => yes :: no.toList
  | .select _ _ arms => arms.map Arm.body
  | _ => []

/-- Induction over statements, with one hypothesis for all blocks. -/
theorem Stmt.induction {P : Stmt → Prop} (h : ∀ s, (∀ b ∈ s.blocks, ∀ t ∈ b, P t) → P s) :
    ∀ s, P s := by
  have leaf {s : Stmt} (hs : s.blocks = []) : P s := h s (by simp [hs])
  intro s
  refine @Stmt.rec P (fun b => ∀ s ∈ b, P s) (fun no => ∀ b ∈ no, ∀ s ∈ b, P s)
    (fun arms => ∀ a ∈ arms, ∀ s ∈ a.body, P s) (fun a => ∀ s ∈ a.body, P s)
    (fun _ => leaf rfl) (fun _ _ _ => leaf rfl) (fun _ _ => leaf rfl) ?branch ?select
    (fun _ => leaf rfl) (fun _ => leaf rfl)
    (by simp) (fun _ _ hs hb => List.forall_mem_cons.mpr ⟨hs, hb⟩)
    (by simp) (fun b hb => by simpa using hb)
    (by simp) (fun _ _ ha harms => List.forall_mem_cons.mpr ⟨ha, harms⟩)
    (fun _ _ _ _ hb => hb) s
  case branch =>
    intro span cond yes no hyes hno
    refine h _ fun b hb => ?_
    rcases List.mem_cons.mp hb with rfl | hb
    · exact hyes
    · exact hno b (Option.mem_toList.mp hb)
  case select =>
    intro span e arms harms
    refine h _ fun b hb => ?_
    obtain ⟨a, ha, rfl⟩ := List.mem_map.mp hb
    exact harms a ha

end Statute
