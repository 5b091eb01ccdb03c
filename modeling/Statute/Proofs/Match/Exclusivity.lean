import Statute.Proofs.Check.Bodies
import Statute.Proofs.Match.Selection

/-!
# No return is overlooked

The analysis of exclusive verdicts computes for a body the variants that it may return, and leaves
out what comes after a region that always returns. In an accepted program every `match` has one
wildcard arm and no arm that is never chosen, so no arm is left out, `exists_reachedArm`.
What a region returns in some run is then among the variants of its flow, and where its flow says
that it always returns, no run goes on behind it: `BlockRuns.covered`, by induction on the run.

A wildcard arm with a guard is taken to close its `match` all the same. If a run may go on behind a
`match` of which no arm was chosen, the theorem holds for bodies without such arms only, and not for
others, `acquittal_overlooked`.
-/

namespace Statute

open List

variable {c : List Stmt}

/-!
## Arms
-/

/-- An arm that is not reported is looked at. -/
theorem ArmHead.reached_of_finding?_eq_none {before} {a : ArmHead} (h : a.finding? before = none)
    (hwildcard : a.pattern.isWildcard → ∀ b ∈ before, b.pattern.isWildcard = false) :
    a.Reached before := by
  rw [finding?, Option.map_eq_none_iff, fault?] at h
  split at h
  next ha => exact ⟨hwildcard ha, by simp [fixed?_wildcard ha]⟩
  split at h
  · cases h
  next hnone =>
  refine ⟨by simpa using hnone, fun k hk b hb k' hk' => ?_⟩
  obtain ⟨hguard, hk⟩ := Option.ite_none_left_eq_some.mp hk
  obtain ⟨hguard', hk'⟩ := Option.ite_none_left_eq_some.mp hk'
  rw [if_neg hguard, hk] at h
  rw [Bool.not_eq_true] at hguard'
  by_contra hsame
  rw [Bool.not_eq_false] at hsame
  have hrepeated : before.any (·.fixes k) = true :=
    any_eq_true.mpr ⟨b, hb, (fixes_of_fixed hguard' hk' k).trans hsame⟩
  dsimp only at h
  rw [hrepeated] at h
  cases h

variable {v : Scrutinee}

section Arms

variable {γ β : Type} {bodyFlow : β → Except Finding Flow} {enum : String}
  {arms : List (Arm γ β)} {a : Arm γ β} {flow : Flow}

/-- No proper arm is left out. -/
theorem exists_reachedArm (h : ProperArms (arms.map Arm.head)) (ha : a ∈ arms) :
    ∃ before, ReachedArm arms before a := by
  obtain ⟨before, rest, rfl⟩ := append_of_mem ha
  obtain ⟨hcount, hreachable⟩ := h
  rw [map_append, map_cons] at hcount hreachable
  refine ⟨before, ⟨rest, by simp⟩,
    ArmHead.reached_of_finding?_eq_none (ArmHead.finding?_eq_none hreachable) fun hwildcard => ?_⟩
  -- there is one wildcard at most
  rw [filter_append, filter_cons, if_pos hwildcard, length_append,
    length_cons] at hcount
  have hnone : (before.map Arm.head).filter (·.pattern.isWildcard) = [] :=
    length_eq_zero_iff.mp (by omega)
  simpa using filter_eq_nil_iff.mp hnone

/-- What is known of a `match`: nothing of an arm that is looked at is missing, and only one with a
wildcard always returns. -/
theorem of_collectArms (h : collectArms bodyFlow enum {} arms = .ok flow) :
    (∀ before a, ReachedArm arms before a → ∃ b, bodyFlow a.body = .ok b ∧
      (∀ v ∈ b.variants.keys, v ∈ flow.variants.keys) ∧
        (flow.returns → b.returns)) ∧
      (flow.returns → ∃ a ∈ arms, a.pattern.isWildcard) := by
  have htells := tells_match (fun body v => ∃ b, bodyFlow body = .ok b ∧ v ∈ b.variants.keys)
    (fun body => ∃ b, bodyFlow body = .ok b ∧ b.returns = true)
    (fun body => ∃ f, bodyFlow body = .error f) bodyFlow enum fun a (_ : a ∈ arms) => by
      cases bodyFlow a.body <;> simp [Tells]
  rw [h] at htells
  obtain ⟨hvariants, hreturns, hclear⟩ := htells
  refine ⟨fun before a ha => ?_, fun hflow => (hreturns.mp hflow).1⟩
  cases hb : bodyFlow a.body with
  | error f => exact absurd (.inr ⟨before, a, ha, f, hb⟩) hclear
  | ok b => grind

/-- The arm that is chosen has been looked at. -/
theorem collectArms_chosen {body : β} (h : collectArms bodyFlow enum {} arms = .ok flow)
    (hproper : ProperArms (arms.map Arm.head)) (hbody : Chosen v arms (some body)) :
    ∃ b, bodyFlow body = .ok b ∧ (∀ v ∈ b.variants.keys, v ∈ flow.variants.keys) ∧
      (flow.returns → b.returns) := by
  obtain ⟨a, ha, rfl⟩ := hbody.exists_arm
  obtain ⟨before, hreached⟩ := exists_reachedArm hproper ha
  exact (of_collectArms h).1 before a hreached

/-- A wildcard without guard is not passed over. -/
theorem isWildcard_eq_false_of_chosen (h : Chosen v arms none)
    (hplain : ∀ a ∈ arms, a.pattern.isWildcard → a.guard = none) :
    ∀ a ∈ arms, a.pattern.isWildcard = false := by
  generalize hr : none = r at h
  induction h with
  | none => simp
  | take => cases hr
  | @pass a arms r ha _ ih =>
    obtain ⟨hthis, hothers⟩ := forall_mem_cons.mp hplain
    refine forall_mem_cons.mpr ⟨Bool.eq_false_iff.mpr fun htrue => ?_, ih hothers hr⟩
    rcases ha with hguard | ⟨span, test, hp⟩ | ⟨k, hk, -⟩
    · have hguard : a.guard.isSome = true := hguard
      rw [hthis htrue] at hguard
      cases hguard
    · have hp : a.pattern = .satisfies span test := hp
      rw [hp] at htrue
      cases htrue
    · cases (FixedPattern.of?_wildcard htrue).symm.trans hk

/-- Where no arm is chosen there is no wildcard without guard, so the arms do not always return. -/
theorem collectArms_none (h : collectArms bodyFlow enum {} arms = .ok flow)
    (hplain : ∀ a ∈ arms, a.pattern.isWildcard → a.guard = none)
    (hnone : Chosen v arms none) : flow.returns = false := by
  refine Bool.eq_false_iff.mpr fun htrue => ?_
  obtain ⟨a, ha, hwildcard⟩ := (of_collectArms h).2 htrue
  cases hwildcard.symm.trans (isWildcard_eq_false_of_chosen hnone hplain a ha)

end Arms

/-!
## Runs
-/

/-- The flow covers a run that ends in this way: the variant that is returned is known, and the run
does not go on if the flow says that it always returns. -/
structure Flow.Covers (enum : String) (flow : Flow) (o : Ending) : Prop where
  variants : ∀ v, o = .returns (some (enum, v)) → v ∈ flow.variants.keys
  returns : flow.returns = true → o ≠ .goesOn

section Runs

variable {enum : String} {misses : Bool} {b : List Stmt}

/-- A variant that a returned expression comes to is known. -/
theorem ComesTo.mem_returnedVariants {e : Expr} {r : Option (String × String)} (h : ComesTo e r)
    (hproper : ∀ span place s arms, ReturnsInside e (.select span place s arms) →
      ProperArms (arms.map Arm.head)) {variants : NameMap Span}
    (hvariants : returnedVariants enum e = .ok variants) {v : String} (hr : r = some (enum, v)) :
    v ∈ variants.keys := by
  induction h generalizing variants with
  | @variant span t w =>
    cases hr
    rw [returnedVariants, if_pos (beq_self_eq_true _)] at hvariants
    cases hvariants
    exact NameMap.mem_keys_insert.mpr (.inl rfl)
  | @select w span place e arms body r hbody _ ih =>
    rw [returnedVariants, returnedByArms_eq] at hvariants
    obtain ⟨flow, hflow, hvariants⟩ := exists_of_bind_eq_ok hvariants
    cases hvariants
    obtain ⟨b, hb, hkeys, -⟩ := collectArms_chosen hflow (hproper _ _ _ _ .refl) hbody
    obtain ⟨inner, hinner, hb⟩ := exists_of_bind_eq_ok hb
    cases hb
    obtain ⟨a, ha, rfl⟩ := hbody.exists_arm
    refine hkeys v (ih (fun span place s arms hinside => ?_) hinner hr)
    exact hproper span place s arms (.arm ha hinside)
  | other => cases hr

/-- What was returned before a block is not forgotten. -/
theorem blockFlow_keeps {before flow : Flow} (h : blockFlow enum before b = .ok flow) :
    ∀ v ∈ before.variants.keys, v ∈ flow.variants.keys := by
  induction b generalizing before with
  | nil =>
    cases h
    exact fun v hv => hv
  | cons s rest ih =>
    obtain ⟨first, -, h⟩ := exists_of_bind_eq_ok h
    obtain ⟨next, hnext, h⟩ := exists_of_bind_eq_ok h
    have hkeys := (Flow.of_sequence hnext).2
    split at h
    · cases h
      exact fun v hv => (hkeys v).mpr (.inl hv)
    · exact fun v hv => ih h v ((hkeys v).mpr (.inl hv))

theorem Encloses.trans {a : List Stmt} (hab : Encloses a b) (hbc : Encloses b c) :
    Encloses a c := by
  induction hab with
  | refl => exact hbc
  | yes h _ ih => exact .yes h (ih hbc)
  | no h _ ih => exact .no h (ih hbc)
  | arm h ha _ ih => exact .arm h ha (ih hbc)

theorem ProperBlock.inside (h : ProperBlock b) (hc : Encloses b c) : ProperBlock c :=
  ⟨fun d hd => h.select d (hc.trans hd), fun d hd => h.ret d (hc.trans hd)⟩

theorem PlainWildcards.inside (h : PlainWildcards b) (hc : Encloses b c) : PlainWildcards c :=
  fun d hd => h d (hc.trans hd)

/-- The flow of a conditional is made of those of its branches. -/
theorem exists_of_stmtFlow_branch {span cond yes no flow}
    (h : stmtFlow enum (.branch span cond yes no) = .ok flow) :
    ∃ a b, blockFlow enum {} yes = .ok a ∧ (∀ c, no = some c → blockFlow enum {} c = .ok b) ∧
      (no = none → b.returns = false) ∧
      flow = Flow.exclusive [a, b] (a.returns && b.returns) := by
  rw [stmtFlow] at h
  obtain ⟨a, ha, h⟩ := exists_of_bind_eq_ok h
  cases no with
  | none =>
    cases h
    exact ⟨a, {}, ha, fun c hc => (by cases hc), fun _ => rfl, rfl⟩
  | some c =>
    obtain ⟨b, hb, h⟩ := exists_of_bind_eq_ok h
    cases h
    exact ⟨a, b, ha, fun d hd => Option.some.inj hd ▸ hb, fun hnone => (by cases hnone), rfl⟩

theorem Flow.Covers.branch {a flow : Flow} {o : Ending} (h : a.Covers enum o)
    {branches : List Flow} {returns : Bool} (ha : a ∈ branches)
    (hreturns : returns → a.returns)
    (hflow : flow = Flow.exclusive branches returns) : flow.Covers enum o := by
  subst hflow
  exact ⟨fun v hv => Flow.mem_exclusive.mpr ⟨a, ha, h.variants v hv⟩,
    fun h' => h.returns (hreturns h')⟩

mutual

/-- Every run of a statement is covered by its flow. -/
theorem StmtRuns.covered {enum misses b s o} (h : StmtRuns misses s o) (hb : ProperBlock b)
    (hplain : misses → PlainWildcards b) (hs : s ∈ b) {flow : Flow}
    (hflow : stmtFlow enum s = .ok flow) : flow.Covers enum o := by
  match h with
  | .ret hcomes =>
    rw [stmtFlow] at hflow
    obtain ⟨variants, hvariants, hflow⟩ := exists_of_bind_eq_ok hflow
    cases hflow
    refine ⟨fun v hv => ?_, fun _ hgoes => by cases hgoes⟩
    exact hcomes.mem_returnedVariants (hb.ret _ .refl _ _ hs) hvariants (Ending.returns.inj hv)
  | .yes hrun =>
    obtain ⟨yes, no, hyes, -, -, heq⟩ := exists_of_stmtFlow_branch hflow
    have hinside : Encloses b _ := .yes hs .refl
    have hcovers := hrun.covered (hb.inside hinside) (fun hm => (hplain hm).inside hinside)
      (List.Subset.refl _) rfl hyes
    exact hcovers.branch mem_cons_self (fun h => (Bool.and_eq_true_iff.mp h).1) heq
  | .no hrun =>
    obtain ⟨yes, no, -, hno, -, heq⟩ := exists_of_stmtFlow_branch hflow
    have hinside : Encloses b _ := .no hs .refl
    have hcovers := hrun.covered (hb.inside hinside) (fun hm => (hplain hm).inside hinside)
      (List.Subset.refl _) rfl (hno _ rfl)
    exact hcovers.branch (mem_cons_of_mem _ mem_cons_self)
      (fun h => (Bool.and_eq_true_iff.mp h).2) heq
  | .noElse =>
    obtain ⟨yes, no, -, -, hno, rfl⟩ := exists_of_stmtFlow_branch hflow
    refine ⟨fun v hv => (by cases hv), fun hreturns => ?_⟩
    have hboth := (Bool.and_eq_true_iff.mp hreturns).2
    rw [hno rfl] at hboth
    cases hboth
  | @StmtRuns.select _ _ _ _ _ body _ hbody hrun =>
    rw [stmtFlow, armsFlow_eq] at hflow
    have hproper := hb.select _ .refl _ _ _ hs
    obtain ⟨inner, hinner, hkeys, hreturns⟩ :=
      collectArms_chosen hflow hproper hbody
    have hinside : Encloses b body := by
      obtain ⟨a, ha, heq⟩ := hbody.exists_arm
      exact .arm hs ha (heq ▸ .refl)
    have hcovers := hrun.covered (hb.inside hinside) (fun hm => (hplain hm).inside hinside)
      (List.Subset.refl _) rfl hinner
    exact ⟨fun v hv => hkeys v (hcovers.variants v hv), fun h => hcovers.returns (hreturns h)⟩
  | .missed hmisses harms =>
    rw [stmtFlow, armsFlow_eq] at hflow
    have hnone := collectArms_none hflow (hplain hmisses _ .refl _ _ _ hs) harms
    refine ⟨fun v hv => (by cases hv), fun hreturns => ?_⟩
    rw [hnone] at hreturns
    cases hreturns
  | .declare | .assign | .eval | .pass =>
    rw [stmtFlow] at hflow
    cases hflow
    exact ⟨fun v hv => (by cases hv), fun hreturns => (by cases hreturns)⟩

/-- Every run of a block is covered by its flow. -/
theorem BlockRuns.covered {enum misses b c o} (h : BlockRuns misses c o) (hb : ProperBlock b)
    (hplain : misses → PlainWildcards b) (hc : c ⊆ b) {before flow : Flow}
    (hbefore : before.returns = false) (hflow : blockFlow enum before c = .ok flow) :
    flow.Covers enum o := by
  match h with
  | .nil =>
    rw [blockFlow] at hflow
    cases hflow
    refine ⟨fun v hv => (by cases hv), fun hreturns => ?_⟩
    rw [hbefore] at hreturns
    cases hreturns
  | .stop hs =>
    obtain ⟨hmem, -⟩ := cons_subset.mp hc
    rw [blockFlow] at hflow
    obtain ⟨first, hfirst, hflow⟩ := exists_of_bind_eq_ok hflow
    obtain ⟨next, hnext, hflow⟩ := exists_of_bind_eq_ok hflow
    have hcovers := hs.covered hb hplain hmem hfirst
    have hkeys := (Flow.of_sequence hnext).2
    refine ⟨fun v hv => ?_, fun _ hgoes => by cases hgoes⟩
    have hv' := (hkeys v).mpr (.inr (hcovers.variants v hv))
    split at hflow
    · cases hflow
      exact hv'
    · exact blockFlow_keeps hflow v hv'
  | .next hs hrest =>
    obtain ⟨hmem, hsub⟩ := cons_subset.mp hc
    rw [blockFlow] at hflow
    obtain ⟨first, hfirst, hflow⟩ := exists_of_bind_eq_ok hflow
    obtain ⟨next, hnext, hflow⟩ := exists_of_bind_eq_ok hflow
    have hcovers := hs.covered hb hplain hmem hfirst
    have hreturns := (Flow.of_sequence hnext).1
    -- the statement has gone on, so its flow does not say that it always returns
    have hgoes : next.returns = false := by
      by_contra htrue
      rw [Bool.not_eq_false, hreturns] at htrue
      exact hcovers.returns htrue rfl
    rw [hgoes, if_neg Bool.false_ne_true] at hflow
    exact hrest.covered hb hplain hsub hgoes hflow

end

end Runs

/-!
## Accepted functions
-/

/-- The analysis of an accepted function goes through, knows every variant that a run returns, and
leaves out no code that a run comes to. -/
theorem returns_foreseen {p : Program} {options : CheckOptions} {cp : CheckedProgram}
    (h : p.check options = .ok cp) (hon : options.exclusivity = true) {f : FunctionDecl}
    (hf : .function f ∈ p.leaves) {sig : Signature}
    (hsig : cp.env.function? f.name.name = some sig) {name : String} {info : EnumInfo}
    (hname : sig.result.core = .enum name) (hinfo : cp.env.enum? name = some info)
    (hexclusive : info.exclusive = true) {misses : Bool}
    (hplain : misses = true → PlainWildcards f.body) :
    ∃ flow, blockFlow info.name {} f.body = .ok flow ∧
      (∀ v, BlockRuns misses f.body (.returns (some (info.name, v))) →
        flow.variants.contains v = true) ∧
      ∀ c, Encloses f.body c → ∀ first rest, c = first ++ rest → ∀ flow',
        blockFlow info.name {} first = .ok flow' → flow'.returns = true →
          ¬BlockRuns misses first .goesOn := by
  have hproper := properBlock_of_check h hf
  have hnone := exclusivityFault?_of_check h hf hon hsig hname hinfo hexclusive
  cases hflow : blockFlow info.name {} f.body with
  | error finding =>
    rw [exclusivityFault?, hflow] at hnone
    cases hnone
  | ok flow =>
    refine ⟨flow, rfl, fun v hrun => ?_, fun c hc first rest heq flow' hfirst hreturns hrun => ?_⟩
    · have hcovers := hrun.covered hproper hplain (List.Subset.refl _) rfl hflow
      exact NameMap.contains_iff.mpr (hcovers.variants v rfl)
    · have hsub : first ⊆ c := heq ▸ subset_append_left _ _
      have hcovers := hrun.covered (hproper.inside hc) (fun hm => (hplain hm).inside hc) hsub rfl
        hfirst
      exact hcovers.returns hreturns rfl

/-!
A court: the verdict depends on whether the act is proven and on its level.
-/

def verdictDecl : EnumDecl := ⟨{}, "Verdict", ["Guilty", "NotGuilty"], true⟩

def verdict (v : String) : Expr := .variant {} "Verdict" ⟨v, {}⟩

/-- The arms of a `match` on the level: one verdict for the first level and one for all others. -/
def byLevel {β : Type} (one others : β) : List (Arm Expr β) :=
  [⟨{}, .literal {} (.int 1), none, one⟩, ⟨{}, .wildcard {}, none, others⟩]

/-- The last statement is not looked at. -/
def judge : FunctionDecl where
  span := {}
  name := "judge"
  typeParams := []
  params := [⟨{}, "proven", .prim {} .bool⟩, ⟨{}, "level", .prim {} .int⟩]
  result := .named {} "Verdict" []
  body :=
    [.branch {} "proven"
      [.ret {} (.select {} {} "level"
        (byLevel (verdict "Guilty") (verdict "NotGuilty")))]
      (some [.select {} "level"
        (byLevel [.ret {} (verdict "NotGuilty")] [.ret {} (verdict "Guilty")])]),
      .ret {} (verdict "Guilty")]

def court : Program := ⟨"court", [.enum verdictDecl, .function judge]⟩

def verdictInfo : EnumInfo := ⟨"Verdict", ["Guilty", "NotGuilty"], true⟩

def courtEnv : Env where
  defs := [⟨"Verdict", {}, [], .enum verdictInfo⟩]
  functions := [⟨"judge", {}, [], [("proven", .bool), ("level", .int)], .enum "Verdict"⟩]

theorem check_court : court.check = .ok ⟨court, courtEnv, []⟩ := check_eq_ok rfl

/-- The wildcards of a block are those of its own arms and of the blocks in it. -/
theorem plainWildcards_of_blocks {b : List Stmt} (h : ∀ s ∈ b, (∀ span e arms,
      s = .select span e arms → ∀ a ∈ arms, a.pattern.isWildcard → a.guard = none) ∧
      ∀ c ∈ s.blocks, PlainWildcards c) : PlainWildcards b := by
  intro c hc span e arms hselect
  cases hc with
  | refl => exact (h _ hselect).1 span e arms rfl
  | yes hmem hc => exact (h _ hmem).2 _ mem_cons_self c hc span e arms hselect
  | no hmem hc => exact (h _ hmem).2 _ (by simp [Stmt.blocks]) c hc span e arms hselect
  | arm hmem ha hc => exact (h _ hmem).2 _ (mem_map_of_mem ha) c hc span e arms hselect

theorem plainWildcards_ret (span : Span) (value : Expr) : PlainWildcards [.ret span value] :=
  plainWildcards_of_blocks (by simp [Stmt.blocks])

theorem plainWildcards_select {span e arms}
    (h : ∀ a ∈ arms, (a.pattern.isWildcard → a.guard = none) ∧ PlainWildcards a.body) :
    PlainWildcards [.select span e arms] := by
  refine plainWildcards_of_blocks (forall_mem_singleton.mpr ⟨?_, ?_⟩)
  · rintro _ _ _ ⟨⟩ a ha
    exact (h a ha).1
  intro c hc
  obtain ⟨a, ha, rfl⟩ := mem_map.mp hc
  exact (h a ha).2

theorem plainWildcards_judge : PlainWildcards judge.body := by
  have hlevel (span : Span) (e : Expr) (one others : Expr) :
      PlainWildcards [.select span e (byLevel [.ret {} one] [.ret {} others])] :=
    plainWildcards_select (by simp [byLevel, plainWildcards_ret])
  refine plainWildcards_of_blocks ?_
  simp [judge, Stmt.blocks, plainWildcards_ret, hlevel]

/-- The court may come to either verdict, and never to the statement that is not looked at. -/
theorem judge_returns_foreseen : ∃ flow,
    court.check = .ok ⟨court, courtEnv, []⟩ ∧ .function judge ∈ court.leaves ∧
    courtEnv.function? "judge" =
      some ⟨"judge", {}, [], [("proven", .bool), ("level", .int)], .enum "Verdict"⟩ ∧
    courtEnv.enum? "Verdict" = some verdictInfo ∧ verdictInfo.exclusive = true ∧
    PlainWildcards judge.body ∧ blockFlow "Verdict" {} judge.body = .ok flow ∧
    flow.variants.keys = ["Guilty", "NotGuilty"] ∧
    (∀ v, BlockRuns true judge.body (.returns (some ("Verdict", v))) →
      flow.variants.contains v = true) ∧
    BlockRuns true judge.body (.returns (some ("Verdict", "NotGuilty"))) ∧
    ¬BlockRuns true (judge.body.take 1) .goesOn := by
  have hf : .function judge ∈ court.leaves := mem_cons_of_mem _ mem_cons_self
  have hinfo : courtEnv.enum? "Verdict" = some verdictInfo := rfl
  obtain ⟨flow, hflow, hforeseen, hskipped⟩ := returns_foreseen check_court rfl hf rfl rfl hinfo rfl
    fun _ : true = true => plainWildcards_judge
  refine ⟨flow, check_court, hf, rfl, hinfo, rfl, plainWildcards_judge, hflow, ?_, hforeseen, ?_,
    hskipped _ .refl _ _ (take_append_drop 1 _).symm _ rfl rfl⟩
  · cases hflow
    rfl
  · -- the act is proven, and it is not of the first level
    let v : Scrutinee := fun _ => False
    have harm : Chosen v (byLevel (verdict "Guilty") (verdict "NotGuilty"))
        (some (verdict "NotGuilty")) :=
      .pass (.inr (.inr ⟨_, rfl, id⟩)) (.take fun k hk => by cases hk)
    exact .stop (.yes (.stop (.ret (.select harm .variant))))

/-- The wildcard arm has a guard. -/
def judgeInHaste : FunctionDecl where
  span := {}
  name := "judge"
  typeParams := []
  params := [⟨{}, "proven", .prim {} .bool⟩]
  result := .named {} "Verdict" []
  body :=
    [.select {} "proven"
      [⟨{}, .wildcard {}, some "proven", [.ret {} (verdict "Guilty")]⟩],
      .ret {} (verdict "NotGuilty")]

def hastyCourt : Program := ⟨"hasty court", [.enum verdictDecl, .function judgeInHaste]⟩

def hastyCourtEnv : Env where
  defs := [⟨"Verdict", {}, [], .enum verdictInfo⟩]
  functions := [⟨"judge", {}, [], [("proven", .bool)], .enum "Verdict"⟩]

/-- Where nothing is proven, the run goes on behind the `match` to a verdict that the analysis has
not seen: it takes the `match` to return always. -/
theorem acquittal_overlooked :
    hastyCourt.check = .ok ⟨hastyCourt, hastyCourtEnv, []⟩ ∧
    .function judgeInHaste ∈ hastyCourt.leaves ∧
    hastyCourtEnv.enum? "Verdict" = some verdictInfo ∧ verdictInfo.exclusive = true ∧
    ∃ flow flow', blockFlow "Verdict" {} judgeInHaste.body = .ok flow ∧
      BlockRuns true judgeInHaste.body (.returns (some ("Verdict", "NotGuilty"))) ∧
      flow.variants.contains "NotGuilty" = false ∧
      blockFlow "Verdict" {} (judgeInHaste.body.take 1) = .ok flow' ∧ flow'.returns = true ∧
      BlockRuns true (judgeInHaste.body.take 1) .goesOn := by
  have hmissed : StmtRuns true (judgeInHaste.body.head (by simp [judgeInHaste])) .goesOn := by
    let v : Scrutinee := fun _ => False
    exact @StmtRuns.missed true v _ _ _ rfl (.pass (.inl rfl) .none)
  refine ⟨check_eq_ok rfl, mem_cons_of_mem _ mem_cons_self, rfl, rfl, _, _, rfl, ?_, rfl,
    rfl, rfl, ?_⟩
  · exact .next hmissed (.stop (.ret .variant))
  · exact .next hmissed .nil

end Statute
