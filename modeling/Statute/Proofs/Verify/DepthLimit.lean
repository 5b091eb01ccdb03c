import Statute.Proofs.Lowering.Course
import Statute.Verify.Result

/-!
# The limit on quantifiers

What the limit on the nesting of quantifiers says of a form, and when a principle is refused because
of it.

Lowering counts the quantifiers that are written around a place. It refuses for their number exactly
what goes beyond the limit, as long as there is no `match`: `depth_guard_exact`. A name that a
pattern binds is replaced by the term of what is matched, so the form may be deeper than the limit.
How deep it is, and that it keeps to the limit where such names are not read under further
quantifiers, is `form_depth`.
-/

namespace Statute

open Logic

/-!
## Forms
-/

namespace LoweringContext

/-- The term has no quantifiers, or it is as deep as a declared value unfolds, whose quantifiers
keep to the limit. -/
def DeepAsValue (cx : LoweringContext) (t : Term) : Prop :=
  t.depth = 0 ∨ ∃ l ∈ cx.values, l.value.nesting ≤ cx.maxDepth ∧
    t.depth = l.value.unfolded cx.env fun _ => 0

/-- Anything may be left behind but assumptions of another depth. -/
def depthAllowance (cx : LoweringContext) : Allowance where
  sorts _ := True
  structs _ _ := True
  functions _ := True
  names _ := True
  assumptions := cx.DeepAsValue

variable {cx : LoweringContext}

theorem allowedHere_depthAllowance (e : Expr) : e.AllowedHere cx.env cx.depthAllowance := by
  cases e with
  | member => exact fun _ _ _ _ _ => ⟨fun _ _ _ => trivial, fun _ => trivial⟩
  | call =>
    exact fun _ _ _ => ⟨fun _ _ _ => trivial, fun _ _ _ _ _ => trivial, fun _ _ _ _ => trivial⟩
  | select => exact fun _ _ _ _ _ _ => trivial
  | satisfies => exact fun _ => trivial
  | quantified => exact fun _ _ _ _ _ => trivial
  | literal | name | variant | unary | binary | record => trivial

theorem suffices_depthAllowance : cx.depthAllowance.Suffices cx where
  limits _ _ _ hg := .inl (depth_of_withinLimits? hg)
  types _ _ _ _ _ _ _ _ := trivial
  bodies l _ _ := ⟨Expr.everywhere_of_forall allowedHere_depthAllowance l.value, fun _ _ => trivial⟩
  values l hl _ x s t source t' hdepth hnesting ht := by
    refine .inr ⟨l, List.mem_of_find?_eq_some hl, hnesting, ?_⟩
    rw [Term.depth, depth_of_coerce? ht, hdepth]
    simp [Term.depth]

/-- How deep a form is. Its principle keeps to the limit. -/
theorem depth_of_lower {p : Principle} {f : Form} (hf : cx.lower p = .ok f) :
    p.body.nesting ≤ cx.maxDepth ∧ f.formula.depth = p.body.unfolded cx.env (fun _ => 0) ∧
      ∀ t ∈ f.assumptions, cx.DeepAsValue t := by
  obtain ⟨⟨d, hwithin, -, hassumptions⟩, hdepth, hnesting⟩ :=
    within_of_lower suffices_depthAllowance
      (Expr.everywhere_of_forall allowedHere_depthAllowance _) (fun _ _ => trivial) hf
  exact ⟨hnesting, hdepth, hassumptions ▸ hwithin.assumptions⟩

theorem beyond_of_lower_eq_error {p : Principle} {o : Obstacle} (ho : cx.lower p = .error o) :
    o.fault.kind.Beyond cx.maxDepth p.body.nesting :=
  kind_of_lower_eq_error suffices_depthAllowance
    (Expr.everywhere_of_forall allowedHere_depthAllowance _) (fun _ _ => trivial) ho

end LoweringContext

/-- The formula of a principle is as deep as the principle is with its names unfolded, and each
assumption is as deep as the unfolded value of a declaration, or has no quantifiers. So they keep to
the limit if names that stand for something with quantifiers are not read inside of further ones. -/
theorem form_depth (cx : LoweringContext) (p : Principle) {f : Form} (hf : cx.lower p = .ok f) :
    f.formula.depth = p.body.unfolded cx.env (fun _ => 0) ∧
    (∀ t ∈ f.assumptions, cx.DeepAsValue t) ∧
    (p.body.Flat cx.env (fun _ => 0) → f.formula.depth ≤ cx.maxDepth) ∧
    ((∀ l ∈ cx.values, l.value.Flat cx.env fun _ => 0) →
      ∀ t ∈ f.assumptions, t.depth ≤ cx.maxDepth) := by
  obtain ⟨hnesting, hdepth, hassumptions⟩ := cx.depth_of_lower hf
  refine ⟨hdepth, hassumptions, fun hflat => ?_, fun hflat t ht => ?_⟩
  · rw [hdepth]
    exact Expr.unfolded_le hflat hnesting fun _ _ => Nat.zero_le _
  · rcases hassumptions t ht with hzero | ⟨l, hl, hnesting, hdepth⟩
    · omega
    · rw [hdepth]
      exact Expr.unfolded_le (hflat l hl) hnesting fun _ _ => Nat.zero_le _

/-!
### A name that is read under a quantifier
-/

/-- No whole number is negative. -/
def noNegative : Expr :=
  .quantified {} .all "x" (.prim {} .int)
    (.binary {} .ge "x" (.literal {} (.int 0)))

/-- One quantifier may stand inside of none, and there is a declared value with one. -/
def oneDeep : LoweringContext := ⟨{}, [⟨{}, "v", .prim {} .bool, noNegative⟩], 1⟩

/-- A statement with a quantifier is matched, and read again by `inner`. -/
def rereading (inner : Expr → Expr) : Principle where
  span := {}
  name := "P"
  body := .select {} {} noNegative
    [⟨{}, .binding "b", none, inner "b"⟩,
      ⟨{}, .wildcard {}, none, .literal {} (.bool true)⟩]

/-- What was matched is read beside a declared value. -/
def readingBeside : Principle :=
  rereading fun b => .binary {} .or b "v"

/-- What was matched is read under a quantifier. -/
def readingBeneath : Principle :=
  rereading fun b => .quantified {} .all "y" (.prim {} .int) b

variable {env : Env} {σ : String → Nat}

theorem Expr.flat_leaf {e : Expr} (he : e.isBinder = false) (hchildren : e.children = []) :
    e.Flat env σ :=
  .plain he (by simp [hchildren])

theorem flat_noNegative : noNegative.Flat env σ := by
  refine .quantified (by simp [Expr.reads]) (.plain rfl ?_)
  simpa [Expr.children] using ⟨Expr.flat_leaf rfl rfl, Expr.flat_leaf rfl rfl⟩

theorem flat_readingBeside : readingBeside.body.Flat env fun _ => 0 := by
  refine .select flat_noNegative (by simp) ?_
  rw [List.forall_mem_cons, List.forall_mem_singleton]
  refine ⟨.plain rfl ?_, Expr.flat_leaf rfl rfl⟩
  simpa [Expr.children] using ⟨Expr.flat_leaf rfl rfl, Expr.flat_leaf rfl rfl⟩

/-- Beside a declared value, a form with quantifiers in its formula and in its assumption keeps to
the limit. -/
theorem form_depth_beside : ∃ f, oneDeep.lower readingBeside = .ok f ∧
    (readingBeside.body.Flat oneDeep.env fun _ => 0) ∧
    (∀ l ∈ oneDeep.values, l.value.Flat oneDeep.env fun _ => 0) ∧
    f.assumptions ≠ [] ∧ f.formula.depth ≤ 1 ∧ ∀ t ∈ f.assumptions, t.depth ≤ 1 := by
  have hvalues : ∀ l ∈ oneDeep.values, l.value.Flat oneDeep.env fun _ => 0 := by
    simpa [oneDeep] using flat_noNegative
  obtain ⟨f, hf, hassumed⟩ : ∃ f, oneDeep.lower readingBeside = .ok f ∧ f.assumptions ≠ [] :=
    ⟨_, rfl, by simp⟩
  obtain ⟨-, -, hformula, hassumptions⟩ := form_depth oneDeep readingBeside hf
  exact ⟨f, hf, flat_readingBeside, hvalues, hassumed, hformula flat_readingBeside,
    hassumptions hvalues⟩

/-- Beneath a quantifier, it makes a form that is deeper than the limit. -/
theorem form_beyond_limit :
    ∃ f, oneDeep.lower readingBeneath = .ok f ∧ oneDeep.maxDepth < f.formula.depth :=
  ⟨_, rfl, by decide⟩

/-!
## Principles that are refused
-/

/-- Verifies a principle with a solver that is asked in the course of other effects. -/
def verifyPrincipleVia {m : Type → Type} [Monad m] (ask : Query → Nat → m Response)
    (o : VerifyOptions) (p : CheckedProgram) (d : Principle) :
    m (Except Obstacle VerificationResult) :=
  match (LoweringContext.ofProgram p o.maxDepth).lower d with
  | .error obstacle => return .error obstacle
  | .ok f => do
    let answer ← ask (refutation f) o.timeout
    return .ok ((Solver.mk "" fun _ _ => answer).verify f o.timeout)

/-- With a solver without effects, this is verification. -/
theorem verifyPrincipleVia_check (s : Solver) (o : VerifyOptions) (p : CheckedProgram)
    (d : Principle) :
    (verifyPrincipleVia (m := Id) (fun q n => s.check q n) o p d).run =
      s.verifyPrinciple o p d := by
  unfold verifyPrincipleVia Solver.verifyPrinciple
  cases (LoweringContext.ofProgram p o.maxDepth).lower d <;> rfl

/-- A principle without more quantifiers inside one another than the limit is never refused for
their depth. A refusal for depth is at the first quantifier beyond the limit. And a principle
without `match` that goes beyond the limit is refused before any solver is asked. -/
theorem depth_guard_exact (cx : LoweringContext) (p : Principle) :
    ((∀ n, p.body.Nests n → n ≤ cx.maxDepth) → ∀ o, cx.lower p = .error o →
      ∀ depth limit, o.fault.kind ≠ .quantifierDepthExceeded depth limit) ∧
    (∀ o, cx.lower p = .error o →
      ∀ depth limit, o.fault.kind = .quantifierDepthExceeded depth limit →
        depth = cx.maxDepth + 1 ∧ limit = cx.maxDepth) ∧
    (p.body.MatchFree → (∃ n, p.body.Nests n ∧ cx.maxDepth < n) → ∃ o, cx.lower p = .error o ∧
      ∀ cp settings, cx = .ofProgram cp settings.maxDepth →
        (∀ s : Solver, s.verifyPrinciple settings cp p = .error o) ∧
        ∀ (m : Type → Type) [Monad m] (ask : Query → Nat → m Response),
          verifyPrincipleVia ask settings cp p = pure (.error o)) := by
  refine ⟨fun hnests o ho depth limit hkind => ?_, fun o ho depth limit hkind => ?_,
    fun hfree hdeep => ?_⟩
  · rcases cx.beyond_of_lower_eq_error ho with hother | ⟨-, hdeep⟩
    · rw [hkind] at hother
      cases hother
    · exact absurd (hnests _ (Expr.nests_nesting p.body)) (by omega)
  · rcases cx.beyond_of_lower_eq_error ho with hother | ⟨hkind', -⟩
    · rw [hkind] at hother
      cases hother
    · rw [hkind] at hkind'
      cases hkind'
      exact ⟨rfl, rfl⟩
  · obtain ⟨n, hn, hlt⟩ := hdeep
    have hle := hn.le_nesting hfree
    cases hlower : cx.lower p with
    | ok f => exact absurd (cx.depth_of_lower hlower).1 (by omega)
    | error o =>
      refine ⟨o, rfl, ?_⟩
      rintro cp settings rfl
      refine ⟨fun s => ?_, fun m _ ask => ?_⟩
      · rw [Solver.verifyPrinciple, hlower]
        rfl
      · rw [verifyPrincipleVia, hlower]

/-- One quantifier beside two inside one another. -/
def besideTwo : Principle where
  span := {}
  name := "P"
  body := .binary {} .and noNegative (.quantified {} .some "y" (.prim {} .int) noNegative)

theorem matchFree_besideTwo : besideTwo.body.MatchFree := by
  simp [besideTwo, noNegative, Expr.MatchFree]

/-- With room for one quantifier, two inside one another are refused for their depth and no solver
is asked. With room for two they are not. -/
theorem depth_guard_besideTwo :
    besideTwo.body.MatchFree ∧ (∃ n, besideTwo.body.Nests n ∧ 1 < n) ∧
    (∃ o, LoweringContext.lower ⟨{}, [], 1⟩ besideTwo = .error o ∧
      o.fault.kind = .quantifierDepthExceeded 2 1 ∧
      ∀ (m : Type → Type) [Monad m] (ask : Query → Nat → m Response),
        verifyPrincipleVia ask { maxDepth := 1 } ⟨⟨"besideTwo", [.principle besideTwo]⟩, {}, []⟩
          besideTwo = pure (.error o)) ∧
    (∀ n, besideTwo.body.Nests n → n ≤ 2) ∧
    ∀ o, LoweringContext.lower ⟨{}, [], 2⟩ besideTwo = .error o →
      ∀ depth limit, o.fault.kind ≠ .quantifierDepthExceeded depth limit := by
  have hdeep : ∃ n, besideTwo.body.Nests n ∧ 1 < n :=
    ⟨2, Expr.nests_nesting besideTwo.body, by decide⟩
  have hnests : ∀ n, besideTwo.body.Nests n → n ≤ 2 :=
    fun n hn => hn.le_nesting matchFree_besideTwo
  obtain ⟨o, ho, hdriver⟩ := (depth_guard_exact ⟨{}, [], 1⟩ besideTwo).2.2 matchFree_besideTwo hdeep
  refine ⟨matchFree_besideTwo, hdeep, ⟨o, ho, ?_, fun m _ ask => ?_⟩, hnests, ?_⟩
  · cases ho
    rfl
  · exact (hdriver _ { maxDepth := 1 } rfl).2 m ask
  · exact (depth_guard_exact ⟨{}, [], 2⟩ besideTwo).1 hnests

end Statute
