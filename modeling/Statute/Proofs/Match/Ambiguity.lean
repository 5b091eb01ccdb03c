import Statute.Proofs.Match.Exclusivity

/-!
# Ambiguity is found

The analysis of exclusive verdicts reports a body just if it is ambiguous, `ambiguous_variants_iff`.
The statements of a block are taken in one after the other; what is known in between is exact for
those that have been taken in, `Flow.Sums`. A `match` is known from its arms, and a body from its
statements by induction.

Wildcards with a guard are left out of account, since a `match` with such a wildcard is taken to
return always if its arms do.
-/

namespace Statute

open List

/-!
## Statements
-/

attribute [mk_iff] CanCome AmbiguousValue StmtCanReturn BlockCanReturn StmtAlwaysReturns
  BlockAlwaysReturns AmbiguousStmt AmbiguousBlock

section Statements

variable {enum : String} {b before rest : List Stmt} {s t : Stmt}

theorem ReachedStmt.mem (h : ReachedStmt b before s) : s ∈ b :=
  h.place.subset (mem_append_right _ (mem_singleton_self s))

theorem ReachedStmt.extend (h : ReachedStmt b before s) (hb : b <+: c) : ReachedStmt c before s :=
  ⟨h.place.trans hb, h.reached⟩

/-- The last statement is looked at after all others. -/
theorem reachedStmt_concat : ReachedStmt (b ++ [t]) before s ↔
    ReachedStmt b before s ∨ (∀ u ∈ b, ¬StmtAlwaysReturns u) ∧ before = b ∧ s = t := by
  constructor
  · rintro ⟨hplace, hreached⟩
    rcases concat_prefix_concat_iff.mp hplace with hplace | ⟨rfl, rfl⟩
    · exact .inl ⟨hplace, hreached⟩
    · exact .inr ⟨hreached, rfl, rfl⟩
  · rintro (h | ⟨h, rfl, rfl⟩)
    · exact h.extend (prefix_append _ _)
    · exact ⟨prefix_rfl, h⟩

/-- Nothing is looked at after a statement that always returns. -/
theorem reachedStmt_append_of_returns (ht : StmtAlwaysReturns t) :
    ReachedStmt (b ++ t :: rest) before s ↔ ReachedStmt (b ++ [t]) before s := by
  have hpre : b ++ [t] <+: b ++ t :: rest := ⟨rest, by simp⟩
  refine ⟨fun ⟨hplace, hreached⟩ => ⟨?_, hreached⟩, fun h => h.extend hpre⟩
  rcases prefix_or_prefix_of_prefix hplace hpre with h | h
  · exact h
  rcases prefix_concat_iff.mp h with heq | h
  · exact heq ▸ prefix_rfl
  · have hmem : t ∈ before := h.subset (mem_append_right _ (mem_singleton_self t))
    exact absurd ht (hreached t hmem)

/-- Every statement is looked at if none of them always returns. -/
theorem exists_reachedStmt (hb : ∀ u ∈ b, ¬StmtAlwaysReturns u) (hs : s ∈ b) :
    ∃ before, ReachedStmt b before s := by
  obtain ⟨l, r, rfl⟩ := append_of_mem hs
  have hplace : l ++ [s] <+: l ++ s :: r := ⟨r, by simp⟩
  exact ⟨l, hplace, fun u hu => hb u (mem_append_left _ hu)⟩

/-- Only the last statement may always return. -/
theorem exists_reachedStmt_concat (hb : ∀ u ∈ b, ¬StmtAlwaysReturns u) (hs : s ∈ b ++ [t]) :
    ∃ before, ReachedStmt (b ++ [t]) before s := by
  rcases mem_append.mp hs with hs | hs
  · obtain ⟨before, hbefore⟩ := exists_reachedStmt hb hs
    exact ⟨before, hbefore.extend (prefix_append _ _)⟩
  · obtain rfl := mem_singleton.mp hs
    exact ⟨b, prefix_rfl, hb⟩

theorem stmtsClash_concat : StmtsClash enum (b ++ [t]) ↔ StmtsClash enum b ∨
    (∀ u ∈ b, ¬StmtAlwaysReturns u) ∧ ∃ s ∈ b, ∃ v w,
      StmtCanReturn enum s v ∧ StmtCanReturn enum t w ∧ v ≠ w := by
  unfold StmtsClash
  simp only [reachedStmt_concat, or_and_right, exists_or, and_assoc]
  refine or_congr_right ⟨?_, ?_⟩
  · grind
  · grind

/-- The flow says just what the statements can return. None of them always returns and they are not
ambiguous. -/
structure Flow.Sums (enum : String) (flow : Flow) (b : List Stmt) : Prop where
  passable : ∀ s ∈ b, ¬StmtAlwaysReturns s
  variants : ∀ v, v ∈ flow.variants.keys ↔ ∃ s ∈ b, StmtCanReturn enum s v
  sorted : flow.variants.Sorted
  returns : flow.returns = false
  plain : ∀ s ∈ b, ¬AmbiguousStmt enum s
  clear : ¬StmtsClash enum b

namespace Flow.Sums

variable {flow next inner : Flow} {f : Finding}

theorem nil : Sums enum {} [] where
  passable := by simp
  variants := by simp [NameMap.keys]
  sorted := .nil
  returns := rfl
  plain := by simp
  clear := by
    rintro ⟨before, t, ht, -⟩
    exact not_mem_nil ht.mem

/-- A statement can return something else than an earlier one just if the two clash. -/
theorem differ_iff (h : flow.Sums enum b)
    (hs : ∀ v, v ∈ inner.variants.keys ↔ StmtCanReturn enum s v) :
    flow.Differ inner ↔
      ∃ t ∈ b, ∃ v w, StmtCanReturn enum t v ∧ StmtCanReturn enum s w ∧ v ≠ w := by
  unfold Flow.Differ
  simp only [h.variants, hs]
  constructor
  · grind
  · grind

/-- The statements with one more, whether or not it always returns. -/
theorem step (h : flow.Sums enum b)
    (hs : Tells (StmtCanReturn enum s) (StmtAlwaysReturns s) (AmbiguousStmt enum s) (.ok inner))
    (hnext : Flow.sequence enum flow inner = .ok next) :
    (∀ v, v ∈ next.variants.keys ↔ ∃ t ∈ b ++ [s], StmtCanReturn enum t v) ∧
      (next.returns ↔ StmtAlwaysReturns s) ∧ (∀ t ∈ b ++ [s], ¬AmbiguousStmt enum t) ∧
      ¬StmtsClash enum (b ++ [s]) := by
  obtain ⟨hcan, halways, hplain⟩ := hs
  obtain ⟨hreturns, hvariants⟩ := Flow.of_sequence hnext
  refine ⟨fun v => ?_, hreturns ▸ halways, ?_, ?_⟩
  · rw [hvariants, h.variants, hcan]
    simp only [mem_append, mem_singleton, or_and_right, exists_or, exists_eq_left]
  · rw [forall_mem_append]
    exact ⟨h.plain, forall_mem_singleton.mpr hplain⟩
  rw [stmtsClash_concat]
  rintro (hclash | ⟨-, hdiffer⟩)
  · exact h.clear hclash
  · exact Flow.not_differ_of_sequence hnext ((h.differ_iff hcan).mpr hdiffer)

end Flow.Sums

/-- What is said of all statements is said of the block, if they are all looked at. -/
theorem tells_of_reached {flow : Flow} (hall : ∀ s ∈ b, ∃ before, ReachedStmt b before s)
    (hvariants : ∀ v, v ∈ flow.variants.keys ↔ ∃ s ∈ b, StmtCanReturn enum s v)
    (hreturns : flow.returns ↔ ∃ s ∈ b, StmtAlwaysReturns s)
    (hplain : ∀ s ∈ b, ¬AmbiguousStmt enum s) (hclear : ¬StmtsClash enum b) :
    Tells (BlockCanReturn enum b) (BlockAlwaysReturns b) (AmbiguousBlock enum b) (.ok flow) := by
  refine ⟨fun v => ?_, hreturns.trans (blockAlwaysReturns_iff b).symm, ?_⟩
  · rw [hvariants, blockCanReturn_iff]
    constructor
    · grind
    · rintro ⟨before, s, hs, hv⟩
      exact ⟨s, hs.mem, hv⟩
  · rw [ambiguousBlock_iff]
    rintro (hclash | ⟨before, s, hs, hambiguous⟩)
    · exact hclear hclash
    · exact hplain s hs.mem hambiguous

/-- A block is what it is up to the first statement that always returns. -/
theorem tells_append_of_returns {r} (ht : StmtAlwaysReturns t) (h : Tells (BlockCanReturn enum (b ++
      [t])) (BlockAlwaysReturns (b ++ [t])) (AmbiguousBlock enum (b ++ [t])) r) :
    Tells (BlockCanReturn enum (b ++ t :: rest)) (BlockAlwaysReturns (b ++ t :: rest))
      (AmbiguousBlock enum (b ++ t :: rest)) r := by
  refine h.congr (fun v => ?_) ?_ ?_
  · simp only [blockCanReturn_iff, reachedStmt_append_of_returns ht]
  · exact iff_of_true ⟨by simp, ht⟩ ⟨by simp, ht⟩
  · simp only [ambiguousBlock_iff, StmtsClash, reachedStmt_append_of_returns ht]

/-- The analysis of a block finds out what is true of the statements that are looked at, if that of
each statement does. -/
theorem tells_blockFlow {flow : Flow} (h : flow.Sums enum before)
    (hb : ∀ s ∈ b, Tells (StmtCanReturn enum s) (StmtAlwaysReturns s) (AmbiguousStmt enum s)
      (stmtFlow enum s)) :
    Tells (BlockCanReturn enum (before ++ b)) (BlockAlwaysReturns (before ++ b))
      (AmbiguousBlock enum (before ++ b)) (blockFlow enum flow b) := by
  induction b generalizing flow before with
  | nil =>
    rw [append_nil, blockFlow]
    have hnever : flow.returns = true ↔ ∃ s ∈ before, StmtAlwaysReturns s :=
      iff_of_false (by rw [h.returns]; exact Bool.false_ne_true) (by simpa using h.passable)
    exact tells_of_reached (fun s => exists_reachedStmt h.passable) h.variants hnever h.plain
      h.clear
  | cons s rest ih =>
    obtain ⟨hs, hrest⟩ := forall_mem_cons.mp hb
    have hsplit : before ++ s :: rest = before ++ [s] ++ rest := by simp
    have hpre : before ++ [s] <+: before ++ s :: rest := hsplit ▸ prefix_append _ _
    rw [blockFlow]
    cases hinner : stmtFlow enum s with
    | error f =>
      rw [hinner] at hs
      exact .stmt ⟨hpre, h.passable⟩ hs
    | ok inner =>
      rw [hinner] at hs
      cases hnext : Flow.sequence enum flow inner with
      | error f =>
        simp only [bind, Except.bind, hnext]
        have hdiffer := (h.differ_iff hs.1).mp (Flow.differ_of_sequence h.sorted hnext)
        exact .stmts ⟨before, s, ⟨hpre, h.passable⟩, hdiffer⟩
      | ok next =>
        simp only [bind, Except.bind, hnext]
        obtain ⟨hvariants, hreturns, hplain, hclear⟩ := h.step hs hnext
        split
        next htrue =>
          have halways := hreturns.mp htrue
          refine tells_append_of_returns halways (tells_of_reached
            (fun t => exists_reachedStmt_concat h.passable) hvariants ?_ hplain hclear)
          exact iff_of_true htrue ⟨s, by simp, halways⟩
        next hfalse =>
          have hpassable : ∀ t ∈ before ++ [s], ¬StmtAlwaysReturns t :=
            forall_mem_append.mpr
              ⟨h.passable, forall_mem_singleton.mpr (mt hreturns.mpr hfalse)⟩
          rw [hsplit]
          exact ih ⟨hpassable, hvariants, Flow.sorted_of_sequence hnext,
            Bool.not_eq_true _ ▸ hfalse, hplain, hclear⟩ hrest

end Statements

variable {s : Expr} {arms : List (Arm Expr Expr)} {b body : List Stmt}

/-!
## Bodies
-/

section Bodies

variable {enum : String}

theorem canCome_select_iff {span place v} :
    CanCome enum (.select span place s arms) v ↔
      ∃ before a, ReachedArm arms before a ∧ CanCome enum a.body v := by
  simp [canCome_iff _ (.select _ _ _ _)]

theorem ambiguousValue_select_iff {span place : Span} :
    AmbiguousValue enum (.select span place s arms) ↔ ArmsClash (CanCome enum) arms ∨
      ∃ before a, ReachedArm arms before a ∧ AmbiguousValue enum a.body := by
  simp [ambiguousValue_iff _ (.select _ _ _ _)]

/-- The analysis of a returned expression finds out what it can come to. -/
theorem tells_returnedVariants (e : Expr) : Tells (CanCome enum e) True (AmbiguousValue enum e)
    (do return ⟨← returnedVariants enum e, true⟩) := by
  induction e using Expr.induction with
  | h e ih =>
  have other (h : returnedVariants enum e = .ok {}) (hvariant : ∀ span t v, e ≠ .variant span t v)
      (hselect : ∀ span place s arms, e ≠ .select span place s arms) :
      Tells (CanCome enum e) True (AmbiguousValue enum e)
        (do return ⟨← returnedVariants enum e, true⟩) := by
    rw [h]
    refine ⟨fun v => ?_, iff_of_true rfl trivial, ?_⟩
    · simp [canCome_iff _ e, hvariant, hselect, NameMap.keys]
    · simp [ambiguousValue_iff _ e, hselect]
  cases e with
  | variant span t v =>
    refine ⟨fun w => ?_, iff_of_true rfl trivial, fun h => by cases h⟩
    by_cases ht : t.name = enum
    · rw [if_pos (beq_iff_eq.mpr ht), NameMap.mem_keys_insert]
      constructor
      · rintro (rfl | hw)
        · exact .variant ht
        · cases hw
      · rintro ⟨⟩
        exact .inl rfl
    · rw [if_neg (mt beq_iff_eq.mp ht)]
      refine iff_of_false (by simp [NameMap.keys]) fun h => ?_
      cases h with
      | variant heq => exact ht heq
  | select span place s arms =>
    have harms := tells_match (CanCome enum) (fun _ => True) (AmbiguousValue enum)
      (fun e => do return ⟨← returnedVariants enum e, true⟩) enum
      fun a (ha : a ∈ arms) => ih a.body (Expr.body_mem_children ha)
    rw [returnedVariants, returnedByArms_eq]
    cases hflow :
      collectArms (fun e => do return ⟨← returnedVariants enum e, true⟩) enum {} arms with
    | error f =>
      rw [hflow] at harms
      exact ambiguousValue_select_iff.mpr harms
    | ok flow =>
      rw [hflow] at harms
      exact ⟨fun v => (harms.1 v).trans canCome_select_iff.symm, iff_of_true rfl trivial,
        mt ambiguousValue_select_iff.mp harms.2.2⟩
  | _ => exact other rfl (by simp) (by simp)

/-- Every statement of a block without guarded wildcards is one without guarded wildcards. -/
theorem PlainWildcards.stmt {s : Stmt} (h : PlainWildcards b) (hs : s ∈ b) :
    PlainWildcards [s] := by
  intro c hc span e arms hselect
  cases hc with
  | refl => exact h b .refl span e arms (mem_singleton.mp hselect ▸ hs)
  | yes hmem hc => exact h c (.yes (mem_singleton.mp hmem ▸ hs) hc) span e arms hselect
  | no hmem hc => exact h c (.no (mem_singleton.mp hmem ▸ hs) hc) span e arms hselect
  | arm hmem ha hc => exact h c (.arm (mem_singleton.mp hmem ▸ hs) ha hc) span e arms hselect

theorem stmtFlow_branch (span : Span) (cond : Expr) (yes : List Stmt) (no : Option (List Stmt)) :
    stmtFlow enum (.branch span cond yes no) = (do
      let a ← blockFlow enum {} yes
      let b ← no.elim (.ok {}) (blockFlow enum {})
      return Flow.exclusive [a, b] (a.returns && b.returns)) := by
  cases no <;> rfl

/-- The analysis of a statement finds out what it can return and whether it always returns. -/
theorem tells_stmtFlow (s : Stmt) (hplain : PlainWildcards [s]) :
    Tells (StmtCanReturn enum s) (StmtAlwaysReturns s) (AmbiguousStmt enum s)
      (stmtFlow enum s) := by
  induction s using Stmt.induction with
  | h s ih =>
  have block {b : List Stmt} (hb : b ∈ s.blocks) (hinside : Encloses [s] b) :
      Tells (BlockCanReturn enum b) (BlockAlwaysReturns b) (AmbiguousBlock enum b)
        (blockFlow enum {} b) :=
    tells_blockFlow .nil fun t ht => ih b hb t ht ((hplain.inside hinside).stmt ht)
  have leaf (h : stmtFlow enum s = .ok {}) (hcan : ∀ v, ¬StmtCanReturn enum s v)
      (halways : ¬StmtAlwaysReturns s) (hambiguous : ¬AmbiguousStmt enum s) :
      Tells (StmtCanReturn enum s) (StmtAlwaysReturns s) (AmbiguousStmt enum s)
        (stmtFlow enum s) := by
    rw [h]
    exact ⟨fun v => iff_of_false (by simp [NameMap.keys]) (hcan v),
      iff_of_false Bool.false_ne_true halways, hambiguous⟩
  cases s with
  | ret span value =>
    exact (tells_returnedVariants value).congr (by simp [stmtCanReturn_iff])
      (iff_of_true trivial .ret) (by simp [ambiguousStmt_iff])
  | branch span cond yes no =>
    have hyes := block mem_cons_self (.yes (mem_singleton_self _) .refl)
    have hno : Tells (fun v => ∃ b, BlockCanReturn enum b v ∧ no = some b)
        (∃ b, BlockAlwaysReturns b ∧ no = some b) (∃ b, AmbiguousBlock enum b ∧ no = some b)
        (no.elim (.ok {}) (blockFlow enum {})) := by
      cases no with
      | none => exact ⟨by simp [NameMap.keys], by simp, by simp⟩
      | some b =>
        refine (block (mem_cons_of_mem _ (mem_singleton_self b))
          (.no (mem_singleton_self _) .refl)).congr ?_ ?_ ?_
        all_goals simp
    rw [stmtFlow_branch]
    refine (hyes.exclusive hno).congr (fun v => ?_) ?_ ?_
    · simp [stmtCanReturn_iff]
    · simp [stmtAlwaysReturns_iff]
    · simp [ambiguousStmt_iff]
  | select span e arms =>
    have harms := tells_match (BlockCanReturn enum) BlockAlwaysReturns (AmbiguousBlock enum) _ enum
      fun a (ha : a ∈ arms) =>
        block (mem_map_of_mem ha) (.arm (mem_singleton_self _) ha .refl)
    rw [stmtFlow, armsFlow_eq]
    refine harms.congr (by simp [stmtCanReturn_iff]) ?_ (by simp [ambiguousStmt_iff])
    have hguards := hplain _ .refl span e arms (mem_singleton_self _)
    constructor
    · rintro ⟨⟨a, ha, hwildcard⟩, h⟩
      exact .select ⟨a, ha, hwildcard, hguards a ha hwildcard⟩ h
    intro h
    cases h with
    | select hwildcard h => grind
  | declare | assign | eval | pass =>
    exact leaf (by rw [stmtFlow]) (fun v h => by cases h) (fun h => by cases h) fun h => by cases h

/-!
## Errors
-/

/-- If the analysis fails, then because of different variants. -/
def FailsByVariants {α : Type} (x : Except Finding α) : Prop :=
  ∀ f, x = .error f → ∃ vs, f.fault.kind = .ambiguousVariantPath vs

namespace FailsByVariants

variable {α δ : Type}

theorem ok (a : α) : FailsByVariants (.ok a) := by
  intro f hf
  cases hf

theorem bind {x} {g : α → Except Finding δ} (hx : FailsByVariants x)
    (hg : ∀ a, FailsByVariants (g a)) : FailsByVariants (x >>= g) := by
  intro f hf
  cases x with
  | error f' =>
    cases hf
    exact hx f rfl
  | ok a => exact hg a f hf

end FailsByVariants

theorem failsByVariants_sequence (a b : Flow) : FailsByVariants (Flow.sequence enum a b) := by
  intro f hf
  unfold Flow.sequence at hf
  dsimp only at hf
  split at hf
  · cases hf
    exact ⟨_, rfl⟩
  · cases hf

theorem failsByVariants_collectArms {γ β : Type} {bodyFlow : β → Except Finding Flow}
    {arms : List (Arm γ β)} (harms : ∀ a ∈ arms, FailsByVariants (bodyFlow a.body)) (s : ArmsFlow) :
    FailsByVariants (collectArms bodyFlow enum s arms) := by
  induction arms generalizing s with
  | nil => exact .ok s.total
  | cons a arms ih =>
    obtain ⟨ha, harms⟩ := forall_mem_cons.mp harms
    rw [collectArms]
    split
    · exact ih harms s
    refine ha.bind fun flow => .bind ?_ (ih harms)
    unfold ArmsFlow.add
    split
    · exact (failsByVariants_sequence _ _).bind fun flow => .ok _
    · exact .ok _

theorem failsByVariants_returnedVariants (e : Expr) :
    FailsByVariants (returnedVariants enum e) := by
  induction e using Expr.induction with
  | h e ih =>
  cases e with
  | select span place s arms =>
    rw [returnedVariants, returnedByArms_eq]
    refine .bind (failsByVariants_collectArms (fun a ha => ?_) {}) fun flow => .ok _
    exact (ih a.body (Expr.body_mem_children ha)).bind fun variants => .ok _
  | _ => exact .ok _

theorem failsByVariants_blockFlow (hb : ∀ s ∈ b, FailsByVariants (stmtFlow enum s)) (before : Flow)
    :
    FailsByVariants (blockFlow enum before b) := by
  induction b generalizing before with
  | nil =>
    exact .ok before
  | cons s rest ih =>
    obtain ⟨hs, hrest⟩ := forall_mem_cons.mp hb
    refine hs.bind fun inner => (failsByVariants_sequence before inner).bind fun flow => ?_
    split
    · exact .ok flow
    · exact ih hrest flow

theorem failsByVariants_stmtFlow (s : Stmt) : FailsByVariants (stmtFlow enum s) := by
  induction s using Stmt.induction with
  | h s ih =>
  cases s with
  | ret span value =>
    exact (failsByVariants_returnedVariants value).bind fun variants => .ok _
  | branch span cond yes no =>
    rw [stmtFlow_branch]
    have hyes := failsByVariants_blockFlow (ih yes mem_cons_self) {}
    refine hyes.bind fun a => .bind ?_ fun b => .ok _
    cases no with
    | none => exact .ok _
    | some no =>
      have hno : no ∈ (Stmt.branch span cond yes (some no)).blocks :=
        mem_cons_of_mem _ (mem_singleton_self no)
      exact failsByVariants_blockFlow (ih no hno) {}
  | select span e arms =>
    rw [stmtFlow, armsFlow_eq]
    refine failsByVariants_collectArms (fun a ha => ?_) {}
    exact failsByVariants_blockFlow (ih a.body (mem_map_of_mem ha)) {}
  | declare | assign | eval | pass =>
    exact .ok _

theorem kind_of_exclusivityFault? {info : EnumInfo} {f : Finding}
    (h : exclusivityFault? body info = some f) : ∃ vs, f.fault.kind = .ambiguousVariantPath vs := by
  unfold exclusivityFault? at h
  split at h
  · cases h
  next f' hflow =>
    cases h
    exact failsByVariants_blockFlow (fun s _ => failsByVariants_stmtFlow s) {} f hflow

/-- The analysis reports different variants just if two statements in sequence, or two arms that may
both apply, can return different ones. -/
theorem ambiguous_variants_iff {body : List Stmt} {info : EnumInfo} (hplain : PlainWildcards body) :
    (∃ f vs, exclusivityFault? body info = some f ∧ f.fault.kind = .ambiguousVariantPath vs) ↔
      AmbiguousBlock info.name body := by
  have htells : Tells (BlockCanReturn info.name body) (BlockAlwaysReturns body)
      (AmbiguousBlock info.name body) (blockFlow info.name {} body) :=
    tells_blockFlow .nil fun s hs => tells_stmtFlow s (hplain.stmt hs)
  constructor
  · rintro ⟨f, vs, hf, -⟩
    unfold exclusivityFault? at hf
    split at hf
    · cases hf
    · next hflow =>
      rw [hflow] at htells
      exact htells
  · intro h
    cases hflow : blockFlow info.name {} body with
    | ok flow =>
      rw [hflow] at htells
      exact absurd h htells.2.2
    | error f =>
      have hf : exclusivityFault? body info = some f := by rw [exclusivityFault?, hflow]
      obtain ⟨vs, hkind⟩ := kind_of_exclusivityFault? hf
      exact ⟨f, vs, hf, hkind⟩

end Bodies

/-!
A court in doubt: the first two arms may both apply.
-/

def judgeInDoubt : List Stmt :=
  [.select {} "level"
    [⟨{}, .literal {} (.int 1), some "proven", [.ret {} (verdict "Guilty")]⟩,
      ⟨{}, .binding "other", none, [.ret {} (verdict "NotGuilty")]⟩,
      ⟨{}, .wildcard {}, none, [.ret {} (verdict "Guilty")]⟩]]

theorem plainWildcards_judgeInDoubt : PlainWildcards judgeInDoubt := by
  refine plainWildcards_select ?_
  simp [plainWildcards_ret, Pattern.isWildcard]

/-- The arms for the first level and for any level clash, and the code of the other court is not
ambiguous. -/
theorem doubt_is_ambiguous :
    PlainWildcards judgeInDoubt ∧ AmbiguousBlock "Verdict" judgeInDoubt ∧
      PlainWildcards judge.body ∧ ¬AmbiguousBlock "Verdict" judge.body := by
  refine ⟨plainWildcards_judgeInDoubt, ?_, plainWildcards_judge, fun h => ?_⟩
  · have hf : exclusivityFault? judgeInDoubt verdictInfo =
        some ⟨.ambiguousVariants "Verdict" ["Guilty", "NotGuilty"] "NotGuilty", {}⟩ := rfl
    exact (ambiguous_variants_iff plainWildcards_judgeInDoubt).mp ⟨_, _, hf, rfl⟩
  · have hnone : exclusivityFault? judge.body verdictInfo = none := rfl
    obtain ⟨f, vs, hf, -⟩ :=
      (@ambiguous_variants_iff judge.body verdictInfo plainWildcards_judge).mpr h
    cases hnone.symm.trans hf

end Statute
