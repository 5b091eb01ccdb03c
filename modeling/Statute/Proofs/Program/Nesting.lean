import Statute.Proofs.Match.Selection

/-!
# Quantifiers inside one another

How deep quantifiers are nested in an expression, said in two ways. `nesting` is a number that is
computed; `Nests n e` says that some path into the expression goes through `n` quantifiers. The
number is that of some path, and if nothing in the expression is a `match`, no path has more.

A name that a pattern binds stands for what is matched, quantifiers and all. `unfolded` is the depth
where names count for what they stand for. It keeps to the nesting as long as names that stand for
something with quantifiers are not read inside of further ones, `unfolded_le`.
-/

namespace Statute

open List

attribute [local simp] Expr.children

variable {n : Nat} {e : Expr} {es : List Expr}

variable {arms : List (Arm Expr Expr)} {c : Expr}

namespace Expr

mutual

/-- The largest number of quantifiers inside one another. Arms behind one that always applies do not
count. -/
def nesting : Expr → Nat
  | .literal _ _ => 0
  | .name _ _ => 0
  | .variant _ _ _ => 0
  | .unary _ _ e => e.nesting
  | .binary _ _ l r => max l.nesting r.nesting
  | .member _ b _ => b.nesting
  | .call _ _ args => nestingOfArgs args
  | .record _ _ fields => nestingOfFields fields
  | .select _ _ e arms => max e.nesting (nestingOfArms arms)
  | .satisfies _ e _ => e.nesting
  | .quantified _ _ _ _ b => b.nesting + 1

/-- The nesting of arguments. -/
def nestingOfArgs : List Expr → Nat
  | [] => 0
  | e :: es => max e.nesting (nestingOfArgs es)

/-- The nesting of the values of fields. -/
def nestingOfFields : List (Ident × Expr) → Nat
  | [] => 0
  | (_, e) :: fs => max e.nesting (nestingOfFields fs)

/-- The nesting of arms, up to the first that always applies. -/
def nestingOfArms : List (Arm Expr Expr) → Nat
  | [] => 0
  | ⟨_, p, none, b⟩ :: arms => max b.nesting (if p.isTotal then 0 else nestingOfArms arms)
  | ⟨_, _, some g, b⟩ :: arms => max g.nesting (max b.nesting (nestingOfArms arms))

end

/-- Some path into the expression goes through so many quantifiers. -/
inductive Nests : Nat → Expr → Prop where
  | here {e : Expr} : Nests 0 e
  | inside {n : Nat} {e c : Expr} (hc : c ∈ e.children) (h : Nests n c) : Nests n e
  | quantified {n : Nat} {span : Span} {q : Quantifier} {var : Ident} {type : TypeExpr}
      {body : Expr} (h : Nests n body) : Nests (n + 1) (.quantified span q var type body)

/-- Nothing in the expression is a `match`. -/
def MatchFree : Expr → Prop :=
  Everywhere fun
    | .select _ _ _ _ => False
    | _ => True

theorem Nests.max {m : Nat} (hm : Nests m e) (hn : Nests n e) : Nests (Max.max m n) e := by
  rcases le_total m n with h | h
  · rwa [max_eq_right h]
  · rwa [max_eq_left h]

theorem nestingOfFields_eq (fields : List (Ident × Expr)) :
    nestingOfFields fields = nestingOfArgs (fields.map (·.2)) := by
  induction fields with
  | nil => rfl
  | cons f fields ih => rw [nestingOfFields, ih, map_cons, nestingOfArgs]

section Lists

variable {e : Expr}

theorem nests_nestingOfArgs (h : ∀ c ∈ es, Nests c.nesting e) : Nests (nestingOfArgs es) e := by
  induction es with
  | nil => exact .here
  | cons c es ih =>
    obtain ⟨hc, hes⟩ := forall_mem_cons.mp h
    exact hc.max (ih hes)

theorem nests_nestingOfArms (hguards : ∀ a ∈ arms, ∀ g, a.guard = some g → Nests g.nesting e)
    (hbodies : ∀ a ∈ arms, Nests a.body.nesting e) : Nests (nestingOfArms arms) e := by
  induction arms with
  | nil => exact .here
  | cons a arms ih =>
    obtain ⟨span, p, guard, b⟩ := a
    obtain ⟨hguard, hguards⟩ := forall_mem_cons.mp hguards
    obtain ⟨hbody, hbodies⟩ := forall_mem_cons.mp hbodies
    have hrest := ih hguards hbodies
    cases guard with
    | none =>
      refine hbody.max ?_
      split
      · exact .here
      · exact hrest
    | some g =>
      exact (hguard g rfl).max (hbody.max hrest)

theorem nesting_le_nestingOfArgs (h : c ∈ es) : c.nesting ≤ nestingOfArgs es := by
  induction es with
  | nil => cases h
  | cons e es ih =>
    rcases mem_cons.mp h with rfl | h
    · exact le_max_left _ _
    · exact (ih h).trans (le_max_right _ _)

end Lists

/-- The nesting is that of a path. -/
theorem nests_nesting (e : Expr) : Nests e.nesting e := by
  induction e using Expr.induction with
  | h e ih =>
  have hinside : ∀ c ∈ e.children, Nests c.nesting e := fun c hc => .inside hc (ih c hc)
  cases e with
  | literal | name | variant => exact .here
  | unary span op e => exact hinside e (by simp)
  | binary span op l r =>
    exact (hinside l (by simp)).max (hinside r (by simp))
  | member span base field => exact hinside base (by simp)
  | call span callee args => exact nests_nestingOfArgs hinside
  | record span name fields =>
    rw [nesting, nestingOfFields_eq]
    exact nests_nestingOfArgs hinside
  | select span place e arms =>
    refine (hinside e (by simp)).max (nests_nestingOfArms ?_ ?_)
    · exact fun a ha g hg => hinside g (guard_mem_children ha hg)
    · exact fun a ha => hinside a.body (body_mem_children ha)
  | satisfies span e test => exact hinside e (by simp)
  | quantified span q var type body => exact .quantified (ih body (by simp))

/-- Unless it is a `match`, an expression is nested as deep as all that is inside. -/
theorem nesting_le_of_mem_children (he : ∀ span place s arms, e ≠ .select span place s arms)
    (hc : c ∈ e.children) : c.nesting ≤ e.nesting := by
  cases e with
  | literal | name | variant => cases hc
  | unary span op e =>
    obtain rfl := mem_singleton.mp hc
    exact le_rfl
  | binary span op l r =>
    rcases mem_pair.mp hc with rfl | rfl
    · exact le_max_left _ _
    · exact le_max_right _ _
  | member span base field =>
    obtain rfl := mem_singleton.mp hc
    exact le_rfl
  | call span callee args => exact nesting_le_nestingOfArgs hc
  | record span name fields =>
    rw [nesting, nestingOfFields_eq]
    exact nesting_le_nestingOfArgs hc
  | select span place e arms => exact absurd rfl (he span place e arms)
  | satisfies span e test =>
    obtain rfl := mem_singleton.mp hc
    exact le_rfl
  | quantified span q var type body =>
    obtain rfl := mem_singleton.mp hc
    exact Nat.le_succ _

/-- Where nothing is a `match`, the nesting is the largest of all paths. -/
theorem Nests.le_nesting (h : Nests n e) (he : e.MatchFree) : n ≤ e.nesting := by
  induction h with
  | here => exact Nat.zero_le _
  | @inside n e c hc _ ih =>
    have hselect : ∀ span place s arms, e ≠ .select span place s arms := by
      rintro span place s arms rfl
      exact Everywhere.here he
    exact (ih (Everywhere.inside he c hc)).trans (nesting_le_of_mem_children hselect hc)
  | quantified _ ih => exact Nat.succ_le_succ (ih (Everywhere.inside he _ (by simp)))

end Expr

/-!
## Names that stand for more
-/

/-- What names count for inside an arm, where what is matched counts for `n`. -/
def Pattern.count (n : Nat) (σ : String → Nat) : Pattern → String → Nat
  | .binding id => Function.update σ id.name n
  | _ => σ

/-- The depth of the statement that something of depth `n` passes a legal test. A test without
requirements has nothing to say about it. -/
def Env.testDepth (env : Env) (n : Nat) (test : String) : Nat :=
  match env.test? test with
  | some info => if info.requirementNames.isEmpty then 0 else n
  | none => 0

/-- The depth of the statement that the pattern matches something of depth `n`. -/
def Pattern.testDepth (env : Env) (n : Nat) : Pattern → Nat
  | .literal _ _ | .variant _ _ _ => n
  | .satisfies _ test => env.testDepth n test.name
  | .wildcard _ | .binding _ => 0

namespace Expr

mutual

/-- The largest number of quantifiers inside one another, where names count for what they stand for.
Struct values count for nothing. -/
def unfolded (env : Env) (σ : String → Nat) : Expr → Nat
  | .literal _ _ => 0
  | .name _ id => σ id.name
  | .variant _ _ _ => 0
  | .unary _ _ e => e.unfolded env σ
  | .binary _ _ l r => max (l.unfolded env σ) (r.unfolded env σ)
  | .member _ b _ => b.unfolded env σ
  | .call _ _ args => unfoldedArgs env σ args
  | .record _ _ _ => 0
  | .select _ _ e arms => unfoldedArms env σ (e.unfolded env σ) arms
  | .satisfies _ e test => env.testDepth (e.unfolded env σ) test.name
  | .quantified _ _ v _ b => b.unfolded env (Function.update σ v.name 0) + 1

/-- The unfolded nesting of arguments. -/
def unfoldedArgs (env : Env) (σ : String → Nat) : List Expr → Nat
  | [] => 0
  | e :: es => max (e.unfolded env σ) (unfoldedArgs env σ es)

/-- The unfolded nesting of arms that something of depth `n` is matched with. What always applies
ends them. -/
def unfoldedArms (env : Env) (σ : String → Nat) (n : Nat) : List (Arm Expr Expr) → Nat
  | [] => 0
  | ⟨_, p, none, b⟩ :: arms =>
    max (p.testDepth env n)
      (max (b.unfolded env (p.count n σ)) (if p.isTotal then 0 else unfoldedArms env σ n arms))
  | ⟨_, p, some g, b⟩ :: arms =>
    max (p.testDepth env n) (max (g.unfolded env (p.count n σ))
      (max (b.unfolded env (p.count n σ)) (unfoldedArms env σ n arms)))

end

/-- The expression binds names. -/
def isBinder : Expr → Bool
  | .select _ _ _ _ | .quantified _ _ _ _ _ => true
  | _ => false

/-- Names that stand for something with quantifiers are not read inside of further quantifiers. -/
inductive Flat (env : Env) : (String → Nat) → Expr → Prop where
  | plain {σ : String → Nat} {e : Expr} (he : e.isBinder = false)
      (h : ∀ c ∈ e.children, Flat env σ c) : Flat env σ e
  | select {σ : String → Nat} {span place : Span} {e : Expr} {arms : List (Arm Expr Expr)}
      (he : Flat env σ e)
      (hguards : ∀ a ∈ arms, ∀ g, a.guard = some g →
        Flat env (a.pattern.count (e.unfolded env σ) σ) g)
      (hbodies : ∀ a ∈ arms, Flat env (a.pattern.count (e.unfolded env σ) σ) a.body) :
      Flat env σ (.select span place e arms)
  | quantified {σ : String → Nat} {span : Span} {q : Quantifier} {var : Ident} {type : TypeExpr}
      {body : Expr} (hreads : ∀ x ∈ body.reads, x ≠ var.name → σ x = 0)
      (h : Flat env (Function.update σ var.name 0) body) :
      Flat env σ (.quantified span q var type body)

end Expr

theorem Env.testDepth_le {env : Env} {test : String} : env.testDepth n test ≤ n := by
  unfold testDepth
  split
  · split
    · exact Nat.zero_le _
    · exact le_rfl
  · exact Nat.zero_le _

theorem Pattern.testDepth_le {env : Env} {n : Nat} {p : Pattern} : p.testDepth env n ≤ n := by
  cases p with
  | wildcard | binding => exact Nat.zero_le _
  | literal | variant => exact le_rfl
  | satisfies span test => exact Env.testDepth_le

/-- The names inside an arm count for no more than what is matched and the names outside. -/
theorem Pattern.count_le {N} {σ : String → Nat} {p : Pattern} {names} (hn : n ≤ N)
    (h : ∀ x ∈ p.unbound names, σ x ≤ N) : ∀ x ∈ names, p.count n σ x ≤ N := by
  intro x hx
  cases p with
  | binding id =>
    by_cases hid : x = id.name
    · simpa [count, hid] using hn
    · simp only [count, Function.update_of_ne hid]
      exact h x (by simpa [unbound, hx] using hid)
  | _ => exact h x hx

namespace Expr

section Bound

variable {env : Env} {σ : String → Nat} {N : Nat}

theorem unfoldedArgs_le (h : ∀ c ∈ es, c.unfolded env σ ≤ N) : unfoldedArgs env σ es ≤ N := by
  induction es with
  | nil => exact Nat.zero_le _
  | cons e es ih =>
    obtain ⟨he, hes⟩ := forall_mem_cons.mp h
    exact max_le he (ih hes)

theorem unfoldedArms_le (hn : n ≤ N) (hnesting : nestingOfArms arms ≤ N)
    (hreads : ∀ x ∈ readsOfArms arms, σ x ≤ N) (hguards : ∀ a ∈
      arms, ∀ g, a.guard = some g → g.nesting ≤ N → (∀ x ∈ g.reads, a.pattern.count n σ x ≤ N) →
      g.unfolded env (a.pattern.count n σ) ≤ N) (hbodies : ∀ a ∈ arms, a.body.nesting ≤ N → (∀ x ∈
      a.body.reads, a.pattern.count n σ x ≤ N) → a.body.unfolded env (a.pattern.count n σ) ≤ N) :
    unfoldedArms env σ n arms ≤ N := by
  induction arms with
  | nil => exact Nat.zero_le _
  | cons a arms ih =>
    obtain ⟨span, p, guard, b⟩ := a
    obtain ⟨hguard, hguards⟩ := forall_mem_cons.mp hguards
    obtain ⟨hbody, hbodies⟩ := forall_mem_cons.mp hbodies
    have hrest := fun hnesting hreads => ih hnesting hreads hguards hbodies
    have htest : p.testDepth env n ≤ N := Pattern.testDepth_le.trans hn
    cases guard with
    | none =>
      rw [readsOfArms, forall_mem_append] at hreads
      rw [nestingOfArms, max_le_iff] at hnesting
      refine max_le htest (max_le (hbody hnesting.1 (Pattern.count_le hn hreads.1)) ?_)
      split
      · exact Nat.zero_le _
      next htotal => grind
    | some g =>
      rw [readsOfArms, forall_mem_append] at hreads
      have hcount := forall_mem_append.mp (Pattern.count_le hn hreads.1)
      rw [nestingOfArms, max_le_iff, max_le_iff] at hnesting
      obtain ⟨hg, hb, harms⟩ := hnesting
      refine max_le htest (max_le (hguard g rfl hg hcount.1) (max_le (hbody hb hcount.2) ?_))
      exact hrest harms hreads.2

/-- As long as names that stand for something with quantifiers are not read inside of further ones,
unfolding does not go beyond the nesting and what the names stand for. -/
theorem unfolded_le (h : Flat env σ e) (hnesting : e.nesting ≤ N) (hreads : ∀ x ∈ e.reads, σ x ≤ N) :
    e.unfolded env σ ≤ N := by
  induction h generalizing N with
  | @plain σ e he _ ih =>
    cases e with
    | literal | variant | record => exact Nat.zero_le _
    | name span id => exact hreads id.name (by simp [reads])
    | unary span op e => exact ih e (by simp) hnesting hreads
    | binary span op l r =>
      rw [reads, forall_mem_append] at hreads
      obtain ⟨hl, hr⟩ := max_le_iff.mp hnesting
      exact max_le (ih l (by simp) hl hreads.1) (ih r (by simp) hr hreads.2)
    | member span base field => exact ih base (by simp) hnesting hreads
    | call span callee args =>
      refine unfoldedArgs_le fun c hc => ih c hc ((nesting_le_nestingOfArgs hc).trans hnesting) ?_
      exact fun x hx => hreads x (mem_readsOfArgs.mpr ⟨c, hc, hx⟩)
    | satisfies span e test =>
      exact Env.testDepth_le.trans (ih e (by simp) hnesting hreads)
    | select | quantified => cases he
  | @select σ span place e arms _ _ _ ih ihguards ihbodies =>
    rw [reads, forall_mem_append] at hreads
    obtain ⟨he, harms⟩ := max_le_iff.mp hnesting
    refine unfoldedArms_le (ih he hreads.1) harms hreads.2 ?_ ?_
    · exact fun a ha g hg hn hr => ihguards a ha g hg hn hr
    · exact fun a ha hn hr => ihbodies a ha hn hr
  | @quantified σ span q var type body hzero _ ih =>
    cases N with
    | zero => simp [nesting] at hnesting
    | succ N =>
      -- inside, no name counts for anything
      refine Nat.succ_le_succ (ih (Nat.le_of_succ_le_succ hnesting) fun x hx => ?_)
      by_cases hvar : x = var.name
      · simp [hvar]
      · grind

end Bound

end Expr

end Statute
