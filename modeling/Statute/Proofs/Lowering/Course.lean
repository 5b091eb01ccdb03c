import Statute.Lowering.Principle
import Statute.Proofs.Lowering.Proper
import Statute.Proofs.Program.Nesting

/-!
# What lowering leaves behind

Lowering may stop at an obstacle and go on elsewhere, so all that it ever puts into a draft counts:
struct types, functions, constants and assumptions. An `Allowance` says what of them may be there.
`course_lowerIn` follows the whole of lowering once: an expression that asks for nothing else leaves
nothing else behind, whatever becomes of it.

On the way the depth of quantifiers is followed too. Lowering counts those around the place where
it is, and stops at one that is too much. The count is of quantifiers that are written; the depth of
the term is another matter, since a name that a pattern binds becomes the term of what is matched.
The depth of a lowered term is the unfolded nesting of the expression, the count has kept to the
limit, and an obstacle for the sake of depth is met at the first quantifier beyond it.
-/

namespace Statute

open Logic List

variable {span : Span} {r : Lowered}

/-!
## Steps and their obstacles
-/

/-- The second draft registers first the struct types that the first one does. -/
def Draft.Extends (d d' : Draft) : Prop := d.structs <+: d'.structs

instance : IsPreorder Draft Draft.Extends where
  refl _ := prefix_refl _
  trans _ _ _ := List.IsPrefix.trans

/-- The step keeps up `I` and forgets no struct type. It ends with a result that satisfies `Q`, or
stops at an obstacle of a kind in `E`. -/
abbrev Ends (I : Draft → Prop) (E : ObstacleKind → Prop) {β : Type} (x : Lowering β) (d : Draft)
    (Q : β → Draft → Prop) : Prop :=
  Run I Draft.Extends E x d Q

/-!
## What may be left behind
-/

/-- What may be found in a draft. -/
structure Allowance where
  /-- Sorts other than those of enums and of allowed struct types. -/
  sorts : SortDecl → Prop
  /-- The struct types, by name and arguments. -/
  structs : String → List Ty → Prop
  functions : FunDecl → Prop
  /-- The names of the declared values that may become constants. -/
  names : String → Prop
  assumptions : Term → Prop

/-- If the type is a struct type under its constraints, it is an allowed one. -/
def Allowance.Admits (A : Allowance) (ty : Ty) : Prop :=
  ∀ n args, ty.core = .struct n args → A.structs n args

/-- The draft holds nothing but what is allowed. -/
structure Draft.Within (env : Env) (A : Allowance) (d : Draft) : Prop where
  sorts : ∀ s ∈ d.vocabulary.sorts, A.sorts s ∨
    (∃ n info, env.enum? n = some info ∧ s = .enum info.name info.variants) ∨
      ∃ n args, A.structs n args ∧ s = .free (structSortName (.struct n args))
  structs : ∀ e ∈ d.structs, e.1 = structSortName (.struct e.2.1 e.2.2) ∧ A.structs e.2.1 e.2.2
  functions : ∀ f ∈ d.vocabulary.functions, A.functions f
  constants : ∀ c ∈ d.vocabulary.constants, A.names c.symbol
  assumptions : ∀ t ∈ d.assumptions, A.assumptions t

variable {ts : List Term}

section

variable {env : Env} {A : Allowance} {d : Draft} (hd : d.Within env A)

include hd

theorem Draft.Within.declareSort {ty : Ty} (hadmits : A.Admits ty) :
    (d.declareSort env ty).Within env A := by
  have hadds := d.addsSort_declareSort env ty
  refine ⟨fun s hs => ?_, fun e he => ?_, hadds.functions ▸ hd.functions,
    hadds.constants ▸ hd.constants, hadds.assumptions ▸ hd.assumptions⟩
  · rcases hadds.sorts s hs with hs | hs | ⟨n, args, hcore, heq⟩
    · exact hd.sorts s hs
    · exact .inr (.inl hs)
    · exact .inr (.inr ⟨n, args, hadmits n args hcore, heq⟩)
  · rcases hadds.structs e he with he | ⟨hname, hcore⟩
    · exact hd.structs e he
    · exact ⟨hname, hadmits _ _ hcore⟩

theorem Draft.Within.assume (hts : ∀ t ∈ ts, A.assumptions t) :
    ({ d with assumptions := d.assumptions ++ ts } : Draft).Within env A :=
  ⟨hd.sorts, hd.structs, hd.functions, hd.constants,
    forall_mem_append.mpr ⟨hd.assumptions, hts⟩⟩

theorem Draft.Within.declare {c : ConstDecl} (hc : A.names c.symbol)
    (hlimits : ∀ g, withinLimits? (.var c.symbol) (c.lower, c.upper) = some g → A.assumptions g) :
    (d.declare c).Within env A := by
  refine Within.assume (d := { d with declared := _, vocabulary := d.vocabulary.addConstant c })
    ⟨?_, hd.structs, ?_, fun e he => ?_, hd.assumptions⟩ fun g hg => ?_
  · simpa using hd.sorts
  · simpa using hd.functions
  · rcases Vocabulary.mem_addConstant he with he | rfl
    · exact hd.constants e he
    · exact hc
  · exact hlimits g (Option.mem_toList.mp hg)

end

/-- The obstacle is not the depth of quantifiers, unless they reach beyond the limit; then it is at
the first one that is too much. -/
def ObstacleKind.Beyond (limit reach : Nat) (k : ObstacleKind) : Prop :=
  k.isDepth = false ∨ k = .quantifierDepthExceeded (limit + 1) limit ∧ limit < reach

/-- From wherever it starts, the step leaves nothing behind but what is allowed, its result
satisfies `Q`, and it stops for the sake of depth only if the quantifiers reach beyond the limit. -/
def Course (cx : LoweringContext) (A : Allowance) (reach : Nat) {β : Type} (x : Lowering β)
    (Q : β → Prop) : Prop :=
  ∀ d : Draft, d.Within cx.env A →
    Ends (Draft.Within cx.env A) (ObstacleKind.Beyond cx.maxDepth reach) x d fun b _ => Q b

namespace Course

variable {cx : LoweringContext} {A : Allowance} {reach : Nat} {β γ : Type} {x : Lowering β}
  {Q : β → Prop}

theorem mono {Q' : β → Prop} (hx : Course cx A reach x Q) (h : ∀ b, Q b → Q' b) :
    Course cx A reach x Q' :=
  fun d hd => (hx d hd).mono fun b _ _ => h b

theorem widen {reach' : Nat} (hx : Course cx A reach x Q) (h : reach ≤ reach') :
    Course cx A reach' x Q := by
  refine fun d hd => (hx d hd).excuse fun k hk => ?_
  exact hk.imp id fun hdepth => ⟨hdepth.1, hdepth.2.trans_le h⟩

theorem pure {b : β} (h : Q b) : Course cx A reach (pure b) Q := fun _ hd => .pure hd h

theorem stop {f : LoweringFault} {span : Span} (h : f.kind.isDepth = false) :
    Course cx A reach (Lowering.stop f span) Q :=
  fun _ hd => .stop hd (.inl h)

theorem bind {f : β → Lowering γ} {P : γ → Prop} (hx : Course cx A reach x Q)
    (hf : ∀ b, Q b → Course cx A reach (f b) P) : Course cx A reach (x >>= f) P :=
  fun d hd => (hx d hd).bind fun b d' hd' _ hb => hf b hb d' hd'

theorem get : Course cx A reach get fun d => d.Within cx.env A := by
  refine fun d hd => (Run.get hd).mono fun s _ _ hs => ?_
  rw [hs.1]
  exact hd

/-- A change to the draft that leaves the struct types alone. -/
theorem modify {f : Draft → Draft} (hstructs : ∀ d, (f d).structs = d.structs)
    (hf : ∀ d, d.Within cx.env A → (f d).Within cx.env A) :
    Course cx A reach (modify f) fun _ => True := by
  intro d hd
  refine .modify (hf d hd) ?_ trivial
  unfold Draft.Extends
  rw [hstructs]

theorem addFunction {f : FunDecl} (hf : A.functions f) :
    Course cx A reach (Lowering.addFunction f) fun _ => True := by
  refine modify (fun _ => rfl) fun d hd => ⟨?_, hd.structs, fun g hg => ?_, ?_, hd.assumptions⟩
  · simpa using hd.sorts
  · rcases Vocabulary.mem_addFunction hg with hg | rfl
    · exact hd.functions g hg
    · exact hf
  · simpa using hd.constants

theorem warnHidden {locals q x} : Course cx A reach (warnHidden cx locals q x) fun _ => True := by
  unfold Statute.warnHidden
  split
  · exact modify (fun _ => rfl) fun _ hd =>
      ⟨hd.sorts, hd.structs, hd.functions, hd.constants, hd.assumptions⟩
  · exact .pure trivial

theorem fresh {name : String} : Course cx A reach (Lowering.fresh name) fun _ => True :=
  fun _ hd => .of_ok rfl ⟨hd.sorts, hd.structs, hd.functions, hd.constants, hd.assumptions⟩
    (prefix_refl _) trivial

theorem typeOf {t : TypeExpr} :
    Course cx A reach (Lowering.ofExcept (typeOf cx.env t)) fun ty => Stands cx.env [] t ty := by
  refine fun d hd => .ofExcept hd (fun ty hty => stands_of_typeOf hty) fun o ho => .inl ?_
  obtain ⟨name, hname⟩ := missesType_typeIn ho
  rw [hname]
  rfl

theorem sortOf {ty : Ty} {span : Span} (hadmits : A.Admits ty) :
    Course cx A reach (sortOf cx.env span ty) fun r => ty.encoding? = some r :=
  fun d hd => (Run.sortOf (fun _ => .inl rfl) hd (hd.declareSort hadmits)
    (d.addsSort_declareSort _ _).extended).mono fun _ _ _ hr => hr.1

theorem enumSort {n : String} : Course cx A reach (enumSort cx.env n) fun _ => True :=
  fun d hd => .of_ok (run_enumSort cx.env n d) (hd.declareSort fun _ _ hcore => nomatch hcore)
    (d.addsSort_declareSort _ _).extended trivial

end Course

theorem Decides.course {cx A reach} {β : Type} {Q : β → Prop} {F : ObstacleKind → Prop} {x}
    (hx : Decides Q F x) : Course cx A reach x Q :=
  fun _ hd => (hx.run hd fun _ hdepth _ => .inl hdepth).mono fun _ _ _ hb => hb.1

variable {n : Nat}

/-!
## Depths of terms
-/

namespace Logic.Term

@[simp] theorem depths_cons (t : Term) (ts : List Term) :
    depths (t :: ts) = max t.depth (depths ts) := rfl

@[simp] theorem depths_nil : depths [] = 0 := rfl

theorem depths_of_forall (hne : ts ≠ []) (h : ∀ t ∈ ts, t.depth = n) : depths ts = n := by
  induction ts with
  | nil => exact absurd rfl hne
  | cons t ts ih =>
    obtain ⟨ht, hts⟩ := forall_mem_cons.mp h
    rw [depths_cons, ht]
    cases ts with
    | nil => simp
    | cons t' ts => rw [ih (by simp) hts, max_self]

theorem depth_conj (h : ∀ t ∈ ts, t.depth = n) : (conj ts).depth = if ts.isEmpty then 0 else n := by
  match ts with
  | [] => rfl
  | [t] => exact h t (by simp)
  | t :: t' :: ts => exact depths_of_forall (by simp) h

end Logic.Term

attribute [local simp] Term.depth Expr.children

theorem depth_of_coerce? {t t' : Term} {source target : SmtSort}
    (h : coerce? t source target = some t') : t'.depth = t.depth := by
  unfold coerce? at h
  split at h
  · cases h
    rfl
  split at h
  · split at h
    · cases h
      rfl
    · cases h
      rfl
  · cases h

theorem depth_of_withinLimits? {x} {g : Term} {l} (h : withinLimits? (.var x) l = some g) :
    g.depth = 0 := by
  unfold withinLimits? at h
  split at h <;> cases h <;> simp

theorem depth_guardBody {q guard} {body : Term} (h : ∀ g, guard = some g → g.depth = 0) :
    (guardBody q guard body).depth = body.depth := by
  cases guard with
  | none => cases q <;> rfl
  | some g => cases q <;> simp [guardBody, h g rfl]

variable {arms : List LoweredArm}

/-!
## Steps of lowering
-/

section Steps

variable {cx : LoweringContext} {A : Allowance} {reach : Nat}

theorem course_coerce {t : Term} {source target : SmtSort} :
    Course cx A reach (coerce t source target span) fun t' => t'.depth = t.depth :=
  decides_coerce.course.mono fun _ => depth_of_coerce?

theorem Literal.depth_encoding? {v : Literal} (h : v.encoding? = some r) : r.1.depth = 0 := by
  cases v with
  | date text =>
    obtain ⟨_, -, rfl⟩ := Option.map_eq_some_iff.mp h
    rfl
  | _ => cases h <;> rfl

theorem course_lowerVariant {type variant : Ident} :
    Course cx A reach (lowerVariant cx.env type variant span) fun r => r.1.depth = 0 := by
  unfold lowerVariant
  split
  · exact .stop rfl
  · exact Course.enumSort.bind fun _ _ => .pure rfl

theorem Negates.depth {op r'} (h : Negates op r r') : r'.1.depth = r.1.depth := by
  cases h <;> rfl

theorem Combines.depth {op l r r'} (h : Combines op l r r') :
    r'.1.depth = max l.1.depth r.1.depth := by
  cases h with
  | logical => cases op <;> simp [connective]
  | comparison _ _ _ ha hb | arithmetic _ _ _ ha hb =>
    simp [depth_of_coerce? ha, depth_of_coerce? hb]

/-- The struct type comes from the draft, so it is allowed, and its fields may be read. -/
theorem course_lowerMember {field : Ident} (hfield : ∀ n args ty, A.structs n args →
      cx.env.fieldType? n args field.name = some ty → A.Admits ty ∧ ∀ f, A.functions f) :
    Course cx A reach (lowerMember cx.env r span field) fun r' => r'.1.depth = r.1.depth := by
  obtain ⟨t, s⟩ := r
  refine Course.get.bind fun d hd => ?_
  dsimp only
  split
  · exact .stop rfl
  next name struct args hstruct =>
    split
    · exact .stop rfl
    next ty hty =>
      have hallowed : A.structs struct args := by
        split at hstruct
        next name' =>
          obtain ⟨st, hst, heq⟩ := Option.map_eq_some_iff.mp hstruct
          cases heq
          obtain ⟨before, after, hstructs, -⟩ := List.lookup_eq_some_iff.mp hst
          exact (hd.structs (name, struct, args) (by simp [hstructs])).2
        · cases hstruct
      obtain ⟨hadmits, hfunctions⟩ := hfield struct args ty hallowed hty
      refine (Course.sortOf hadmits).bind fun _ _ => ?_
      exact (Course.addFunction (hfunctions _)).bind fun _ _ => .pure (by simp)

section Tests

variable (hfunctions : ∀ f, A.functions f)

include hfunctions

theorem course_lowerRequirements {test : String} {names : List String} :
    Course cx A reach (lowerRequirements test r names) fun ts =>
      ts.length = names.length ∧ ∀ t ∈ ts, t.depth = r.1.depth := by
  induction names with
  | nil => exact .pure ⟨rfl, by simp⟩
  | cons name names ih =>
    refine Course.get.bind fun _ _ => (Course.addFunction (hfunctions _)).bind fun _ _ => ?_
    refine ih.bind fun ts hts => .pure ⟨by simp [hts.1], ?_⟩
    exact forall_mem_cons.mpr ⟨by simp, hts.2⟩

theorem course_lowerTest {test : Ident} :
    Course cx A reach (lowerTest cx.env test r) fun t =>
      t.depth = cx.env.testDepth r.1.depth test.name := by
  unfold lowerTest
  split
  · exact .stop rfl
  next info hinfo =>
    refine (course_lowerRequirements hfunctions).bind fun ts hts => .pure ?_
    obtain ⟨hlength, hdepth⟩ := hts
    have hempty : ts.isEmpty = info.requirementNames.isEmpty := by
      rw [Bool.eq_iff_iff, isEmpty_iff_length_eq_zero, isEmpty_iff_length_eq_zero,
        hlength]
    rw [Term.depth_conj hdepth, hempty, Env.testDepth, hinfo]

end Tests

theorem course_lowerPattern {p : Pattern}
    (hp : ∀ span test, p = .satisfies span test → ∀ f, A.functions f) :
    Course cx A reach (lowerPattern cx.env r p) fun c =>
      c.2 = p.boundLocals r ∧ c.1.isNone = p.isTotal ∧
        c.1.elim 0 Term.depth = p.testDepth cx.env r.1.depth := by
  cases p with
  | wildcard | binding => exact .pure ⟨rfl, rfl, rfl⟩
  | literal span v =>
    refine decides_lowerLiteral.course.bind fun t ht => course_coerce.bind fun t' ht' => .pure ?_
    exact ⟨rfl, rfl, by simp [Pattern.testDepth, ht', v.depth_encoding? ht]⟩
  | variant span type variant =>
    refine course_lowerVariant.bind fun t ht => decides_expectSort.course.bind fun _ _ => .pure ?_
    exact ⟨rfl, rfl, by simp [Pattern.testDepth, ht]⟩
  | satisfies span test =>
    exact (course_lowerTest (hp span test rfl)).bind fun t ht => .pure ⟨rfl, rfl, ht⟩

/-- The arms end with one that always applies, and the conditionals that they become are `n`
deep. -/
inductive Linked : List LoweredArm → Nat → Prop where
  | last {a : LoweredArm} (h : a.condition = none) : Linked [a] a.body.depth
  | cons {a : LoweredArm} {c : Term} {arms : List LoweredArm} {n : Nat} (h : a.condition = some c)
      (harms : Linked arms n) : Linked (a :: arms) (max c.depth (max a.body.depth n))

theorem Linked.closing (h : Linked arms n) : Closing arms := by
  induction h with
  | last hnone => exact .last hnone
  | cons hsome _ ih => exact .cons hsome ih

theorem Chains.depth {s : SmtSort} {arms} {t : Term} {n} (h : Chains s arms t)
    (hlinked : Linked arms n) : t.depth = n := by
  induction h generalizing n with
  | last hnone ht =>
    cases hlinked with
    | last => exact depth_of_coerce? ht
    | cons hsome => cases hnone.symm.trans hsome
  | cons hsome ht _ ih =>
    cases hlinked with
    | last hnone => cases hnone.symm.trans hsome
    | cons hsome' hlinked =>
      cases hsome.symm.trans hsome'
      rw [Term.depth, ih hlinked, depth_of_coerce? ht, max_assoc]

theorem course_lowerArms {place : Span} {closed : Bool} (h : closed → Linked arms n) :
    Course cx A reach (lowerArms place arms closed) fun r => r.1.depth = n := by
  refine decides_lowerArms.course.mono fun r hr => ?_
  obtain ⟨hclosed, -, -, hchain⟩ := hr
  have hlinked := h hclosed
  exact (hchain hlinked.closing).depth hlinked

end Steps

/-!
## Names
-/

/-- The names count for the depth of the terms that they are bound to, and for nothing where they
are not bound. -/
def Counts (σ : String → Nat) (locals : List Local) : Prop :=
  ∀ x, σ x = ((locals.find? (·.name == x)).map (·.term.depth)).getD 0

namespace Counts

variable {σ : String → Nat} {locals : List Local}

theorem bind (h : Counts σ locals) (x : String) (t : Term) (s : SmtSort) :
    Counts (Function.update σ x t.depth) (⟨x, t, s⟩ :: locals) := by
  intro y
  by_cases hy : y = x
  · subst hy
    simp
  · rw [Function.update_of_ne hy, h y, find?_cons_of_neg (by simpa using Ne.symm hy)]

theorem bindPattern (h : Counts σ locals) (p : Pattern) (r : Lowered) :
    Counts (p.count r.1.depth σ) (p.boundLocals r ++ locals) := by
  cases p with
  | binding id => exact h.bind id.name r.1 r.2
  | _ => exact h

end Counts

section Values

variable {cx : LoweringContext} {A : Allowance} {reach : Nat}

/-- A declared value may be opened: its name and its type are allowed, and so is all that its value
leaves behind and that it is assumed to equal. -/
def Declaration.Opens (cx : LoweringContext) (A : Allowance) (lowerBody : Expr → Lowering Lowered)
    (l : Declaration) : Prop :=
  (∀ ty, Stands cx.env [] l.type ty → A.Admits ty) ∧
    ∃ reach, Course cx A reach (lowerBody l.value) fun r =>
      ∀ x s t, coerce? r.1 r.2 s = some t → A.assumptions (.cmp .eq (.var x) t)

/-- A declared value becomes a constant. What is assumed of it are its limits and its value, and
what stands in the way of the value stops nothing. -/
theorem course_lowerValue {lowerBody : Expr → Lowering Lowered} {l : Declaration}
    (hlimits : ∀ x b g, withinLimits? (.var x) b = some g → A.assumptions g)
    (hname : A.names l.name.name) (hl : l.Opens cx A lowerBody) :
    Course cx A reach (lowerValue cx lowerBody l) fun r => r.1.depth = 0 := by
  obtain ⟨hadmits, _, hbody⟩ := hl
  intro d hd
  have hcases := introduces_lowerValue cx lowerBody l d
  generalize hrun : (lowerValue cx lowerBody l).run.run d = outcome at hcases
  cases hcases with
  | untyped ho =>
    refine .of_error hrun hd (prefix_refl _) (.inl ?_)
    obtain ⟨name, hname⟩ := missesType_typeIn ho
    rw [hname]
    rfl
  | unsorted ho => exact .of_error hrun hd (prefix_refl _) (.inl (by rw [ho]; rfl))
  | known hty =>
    exact .of_ok hrun (hd.declareSort (hadmits _ (stands_of_typeOf hty)))
      (d.addsSort_declareSort _ _).extended rfl
  | @new ty s limits c hty hs hnew hc =>
    have hd₁ := hd.declareSort (hadmits ty (stands_of_typeOf hty))
    have hd₂ := hd₁.declare (c := c) (hc ▸ hname) fun g => hlimits _ _ g
    obtain ⟨hd₃, hle₃, hvalue, -⟩ := hbody _ hd₂
    refine .of_ok hrun (hd₃.assume fun t ht => ?_)
      ((d.addsSort_declareSort cx.env ty).extended.trans hle₃) rfl
    obtain ⟨r, t', hr, ht', rfl⟩ := ConstDecl.of_equation?_eq_some (Option.mem_toList.mp ht)
    exact hvalue r hr _ _ t' ht'

end Values

/-!
## Expressions
-/

/-- The outermost part of the expression asks for nothing but what is allowed. -/
def Expr.AllowedHere (env : Env) (A : Allowance) : Expr → Prop
  | .member _ _ field => ∀ n args ty, A.structs n args →
      env.fieldType? n args field.name = some ty → A.Admits ty ∧ ∀ f, A.functions f
  | .call _ callee _ => ∀ sig, env.function? callee.name = some sig → sig.typeParams = [] →
      A.Admits sig.result ∧ (∀ p ∈ sig.params, A.Admits p.2) ∧
        ∀ sorts s, sig.params.map (·.2.encoding?.map (·.1)) = sorts.map some →
          sig.result.encoding?.map (·.1) = some s → A.functions ⟨sig.name, sorts, s⟩
  | .select _ _ _ arms => ∀ a ∈ arms, ∀ span test, a.pattern = .satisfies span test →
      ∀ f, A.functions f
  | .satisfies _ _ _ => ∀ f, A.functions f
  | .quantified _ _ _ type _ => ∀ ty, Stands env [] type ty → A.Admits ty
  | _ => True

/-- Lowered at a depth, the expression becomes a term as deep as it unfolds, and only if its
quantifiers keep to the limit; an obstacle for the sake of depth is met only if they do not. -/
def Measured (cx : LoweringContext) (A : Allowance) (lowerBody : Expr → Lowering Lowered)
    (locals : List Local) (σ : String → Nat) (depth : Nat) (e : Expr) : Prop :=
  Course cx A (depth + e.nesting) (lowerWith cx lowerBody locals depth e) fun r =>
    r.1.depth = e.unfolded cx.env σ ∧ depth + e.nesting ≤ cx.maxDepth

section Expressions

variable {cx : LoweringContext} {A : Allowance} {lowerBody : Expr → Lowering Lowered}
  {locals : List Local} {σ : String → Nat} {depth : Nat}

theorem Measured.widen {e : Expr} {reach : Nat} (h : Measured cx A lowerBody locals σ depth e)
    (hreach : depth + e.nesting ≤ reach) :
    Course cx A reach (lowerWith cx lowerBody locals depth e) fun r =>
      r.1.depth = e.unfolded cx.env σ ∧ depth + e.nesting ≤ cx.maxDepth :=
  Course.widen h hreach

theorem course_lowerArgs {params : List Ty} {args : List Expr} (hdepth : depth ≤ cx.maxDepth)
    (hlength : params.length = args.length) (hparams : ∀ p ∈ params, A.Admits p)
    (hargs : ∀ e ∈ args, Measured cx A lowerBody locals σ depth e) :
    Course cx A (depth + Expr.nestingOfArgs args)
      (lowerArgs cx lowerBody locals depth span params args) fun rs =>
        Term.depths (rs.map (·.1)) = Expr.unfoldedArgs cx.env σ args ∧
          depth + Expr.nestingOfArgs args ≤ cx.maxDepth ∧
          params.map (·.encoding?.map (·.1)) = (rs.map (·.2)).map some := by
  induction args generalizing params with
  | nil =>
    obtain rfl := length_eq_zero_iff.mp hlength
    exact .pure ⟨by simp [Expr.unfoldedArgs], hdepth, rfl⟩
  | cons e args ih =>
    cases params with
    | nil => cases hlength
    | cons p params =>
      obtain ⟨he, hargs⟩ := forall_mem_cons.mp hargs
      obtain ⟨hp, hparams⟩ := forall_mem_cons.mp hparams
      have hrest := ih (Nat.succ.inj hlength) hparams hargs
      rw [lowerArgs, Expr.nestingOfArgs, Expr.unfoldedArgs]
      refine (Course.sortOf hp).bind fun s hs => (he.widen (by omega)).bind fun r hr => ?_
      refine course_coerce.bind fun t ht => (hrest.widen (by omega)).bind fun rs hrs => .pure ?_
      obtain ⟨hdepths, hwithin, hsorts⟩ := hrs
      refine ⟨?_, by omega, ?_⟩
      · rw [map_cons, Term.depths_cons, hdepths, ht, hr.1]
      · simp only [map_cons, hs, hsorts, Option.map_some]

/-- The depth of the condition of an arm with a guard. -/
theorem depth_bothConditions {c : Option Term} {g : Term} :
    ∃ t, bothConditions c (some g) = some t ∧ t.depth = max (c.elim 0 Term.depth) g.depth := by
  cases c with
  | none => exact ⟨g, rfl, by simp⟩
  | some c => exact ⟨.and [c, g], rfl, by simp⟩

/-- The arms are lowered up to the first that always applies, if there is one. -/
theorem course_lowerEachArm {arms} (hdepth : depth ≤ cx.maxDepth) (hσ : Counts σ locals)
    (hnames : Unbound A.names locals (Expr.readsOfArms arms))
    (hpatterns : ∀ a ∈ arms, ∀ span test, a.pattern = .satisfies span test → ∀ f, A.functions f)
      (hguards : ∀ a ∈ arms, ∀ g, a.guard = some g → ∀ locals σ, Counts σ locals → Unbound A.names
      locals g.reads → Measured cx A lowerBody locals σ depth g) (hbodies : ∀ a ∈ arms, ∀ locals σ,
      Counts σ locals → Unbound A.names locals a.body.reads → Measured cx A lowerBody locals σ depth
      a.body) :
    Course cx A (depth + Expr.nestingOfArms arms)
      (lowerEachArm cx lowerBody locals depth r arms) fun out =>
        (out.2 → Linked out.1 (Expr.unfoldedArms cx.env σ r.1.depth arms)) ∧
          depth + Expr.nestingOfArms arms ≤ cx.maxDepth := by
  induction arms with
  | nil => exact .pure ⟨by simp, hdepth⟩
  | cons a arms ih =>
    obtain ⟨span, p, guard, b⟩ := a
    obtain ⟨hguard, hguards⟩ := forall_mem_cons.mp hguards
    obtain ⟨hbody, hbodies⟩ := forall_mem_cons.mp hbodies
    obtain ⟨hpattern, hpatterns⟩ := forall_mem_cons.mp hpatterns
    have hrest := fun hnames => ih hnames hpatterns hguards hbodies
    have hb : Unbound A.names (p.boundLocals r ++ locals) b.reads →
        Measured cx A lowerBody (p.boundLocals r ++ locals) (p.count r.1.depth σ) depth b :=
      hbody _ _ (hσ.bindPattern p r)
    cases guard with
    | none =>
      obtain ⟨hnames, hnames'⟩ := hnames.append
      have hb := hb hnames.bindPattern
      rw [lowerEachArm, Expr.nestingOfArms, Expr.unfoldedArms]
      refine (course_lowerPattern hpattern).bind fun c hc => ?_
      obtain ⟨c, bound⟩ := c
      obtain ⟨rfl, htotal, htest⟩ := hc
      refine (hb.widen (by omega)).bind fun t ht => ?_
      rw [← htest, ← htotal, ← ht.1]
      cases c with
      | none =>
        refine .pure ⟨fun _ => ?_, by simpa using ht.2⟩
        simpa using Linked.last (a := ⟨none, t.1, t.2, b.span⟩) rfl
      | some c =>
        dsimp only [Option.isNone_some]
        rw [if_neg Bool.false_ne_true, if_neg Bool.false_ne_true]
        refine ((hrest hnames').widen (by omega)).bind fun out hout => ?_
        exact .pure ⟨fun hclosed => .cons rfl (hout.1 hclosed), by omega⟩
    | some g =>
      obtain ⟨hnames, hnames'⟩ := hnames.append
      obtain ⟨hnamesGuard, hnamesBody⟩ := (hnames.bindPattern (r := r)).append
      have hb := hb hnamesBody
      rw [lowerEachArm, Expr.nestingOfArms, Expr.unfoldedArms]
      refine (course_lowerPattern hpattern).bind fun c hc => ?_
      obtain ⟨c, bound⟩ := c
      obtain ⟨rfl, -, htest⟩ := hc
      have hg := hguard g rfl _ _ (hσ.bindPattern p r) hnamesGuard
      refine (hg.widen (by omega)).bind fun tg htg => decides_expectSort.course.bind fun _ _ => ?_
      refine (hb.widen (by omega)).bind fun t ht => ?_
      refine ((hrest hnames').widen (by omega)).bind fun out hout =>
        .pure ⟨fun hclosed => ?_, by omega⟩
      obtain ⟨u, hu, hdepth⟩ := depth_bothConditions (c := c) (g := tg.1)
      rw [← htest, ← htg.1, ← ht.1, ← max_assoc, ← hdepth]
      exact .cons hu (hout.1 hclosed)

variable (hlimits : ∀ x b g, withinLimits? (.var x) b = some g → A.assumptions g)
  (hbody : ∀ l, cx.value? l.name.name = some l → A.names l.name.name → l.Opens cx A lowerBody)

include hlimits hbody

theorem course_lowerName {reach : Nat} {id : Ident} (hσ : Counts σ locals)
    (hname : Unbound A.names locals [id.name]) :
    Course cx A reach (lowerName cx lowerBody locals id) fun r => r.1.depth = σ id.name := by
  unfold lowerName
  rw [hσ id.name]
  split
  next l hl =>
    rw [hl]
    exact .pure rfl
  next hnone =>
    rw [hnone]
    split
    next l hl =>
      have hid : l.name.name = id.name := by simpa using find?_some hl
      have hallowed : A.names l.name.name := hid ▸ hname id.name (mem_singleton_self _) hnone
      exact course_lowerValue hlimits hallowed (hbody l (hid ▸ hl) hallowed)
    · exact .stop rfl

/-- What lowering an expression leaves behind, how deep the term is, and where the limit is
overstepped. -/
theorem course_lowerWith {e : Expr} (he : e.Everywhere (Expr.AllowedHere cx.env A))
    (hnames : Unbound A.names locals e.reads) (hdepth : depth ≤ cx.maxDepth)
    (hσ : Counts σ locals) : Measured cx A lowerBody locals σ depth e := by
  induction e using Expr.induction generalizing locals σ depth with
  | h e ih =>
  replace ih := fun c hc {locals σ depth} =>
    @ih c hc locals σ depth (Expr.Everywhere.inside he c hc)
  unfold Measured
  cases e with
  | literal span v =>
    exact decides_lowerLiteral.course.mono fun r hr => ⟨v.depth_encoding? hr, hdepth⟩
  | name span id =>
    exact (course_lowerName hlimits hbody hσ hnames).mono fun r hr => ⟨hr, hdepth⟩
  | variant span type variant =>
    exact course_lowerVariant.mono fun r hr => ⟨hr, hdepth⟩
  | unary span op e =>
    refine Course.bind (ih e (by simp) hnames hdepth hσ) fun r hr => ?_
    exact decides_lowerUnary.course.mono fun r' hr' => ⟨hr'.depth.trans hr.1, hr.2⟩
  | binary span op l r =>
    obtain ⟨hnamesLeft, hnamesRight⟩ := hnames.append
    have hl := ih l (by simp) hnamesLeft hdepth hσ
    have hr := ih r (by simp) hnamesRight hdepth hσ
    rw [lowerWith, Expr.nesting, Expr.unfolded]
    refine (hl.widen (by omega)).bind fun a ha => (hr.widen (by omega)).bind fun b hb => ?_
    refine decides_lowerBinary.course.mono fun r' hr' => ⟨?_, by omega⟩
    rw [hr'.depth, ha.1, hb.1]
  | member span base field =>
    refine Course.bind (ih base (by simp) hnames hdepth hσ) fun r hr => ?_
    exact (course_lowerMember he.here).mono fun r' hr' => ⟨hr'.trans hr.1, hr.2⟩
  | call span callee args =>
    refine decides_calledFunction.course.bind fun f hf => ?_
    obtain ⟨hf, htypes, hlength⟩ := hf
    obtain ⟨hresult, hparams, hfunctions⟩ := he.here f hf htypes
    have hlength : (f.params.map (·.2)).length = args.length := by simpa using hlength
    refine (course_lowerArgs hdepth hlength (forall_mem_map.mpr hparams) fun e he =>
      ih e he (fun x hx => hnames x (Expr.mem_readsOfArgs.mpr ⟨e, he, hx⟩)) hdepth hσ).bind
        fun rs hrs => ?_
    obtain ⟨hdepths, hwithin, hsorts⟩ := hrs
    rw [map_map] at hsorts
    refine (Course.sortOf hresult).bind fun r hr => ?_
    refine (Course.addFunction (hfunctions _ r.1 hsorts (by rw [hr]; rfl))).bind fun _ _ => ?_
    exact .pure ⟨hdepths, hwithin⟩
  | record span name fields =>
    exact .stop rfl
  | select span place e arms =>
    obtain ⟨hnamesFirst, hnamesArms⟩ := hnames.append
    have hfirst := ih e (by simp) hnamesFirst hdepth hσ
    rw [lowerWith, Expr.nesting, Expr.unfolded]
    refine (hfirst.widen (by omega)).bind fun r hr => ?_
    have harms := course_lowerEachArm (r := r) hdepth hσ hnamesArms he.here
      (fun a ha g hg _ _ hσ' hnames' => ih g (Expr.guard_mem_children ha hg) hnames' hdepth hσ')
      fun a ha _ _ hσ' hnames' => ih a.body (Expr.body_mem_children ha) hnames' hdepth hσ'
    refine (harms.widen (by omega)).bind fun out hout => ?_
    rw [hr.1] at hout
    exact (course_lowerArms hout.1).mono fun r' hr' => ⟨hr', by omega⟩
  | satisfies span e test =>
    rw [lowerWith, Expr.unfolded]
    refine Course.bind (ih e (by simp) hnames hdepth hσ) fun r hr => ?_
    refine (course_lowerTest he.here).bind fun t ht => .pure ⟨?_, hr.2⟩
    rw [ht, hr.1]
  | quantified span q var type body =>
    rw [lowerWith_quantified, Expr.nesting, Expr.unfolded]
    split
    next hdeep =>
      -- this is the first quantifier beyond the limit
      obtain rfl : depth = cx.maxDepth := by omega
      exact fun d hd => .stop hd (.inr ⟨rfl, by omega⟩)
    next hwithin =>
      refine Course.typeOf.bind fun ty hty => (Course.sortOf (he.here ty hty)).bind fun r _ => ?_
      refine Course.warnHidden.bind fun _ _ => Course.fresh.bind fun symbol _ => ?_
      have hinside : Measured cx A lowerBody (⟨var.name, .var symbol, r.1⟩ :: locals)
          (Function.update σ var.name 0) (depth + 1) body :=
        ih body (by simp) (Unbound.bind hnames) (by omega)
          (hσ.bind var.name (.var symbol) r.1)
      refine (hinside.widen (by omega)).bind fun r hr => ?_
      refine decides_expectSort.course.bind fun _ _ => .pure ⟨?_, by omega⟩
      rw [Term.depth, depth_guardBody fun g hg => depth_of_withinLimits? hg, hr.1, Nat.add_comm]

end Expressions

/-!
## Principles
-/

/-- What is allowed suffices for the declared values that may become constants: for their types,
for what their values ask for, and for what is assumed of them. -/
structure Allowance.Suffices (A : Allowance) (cx : LoweringContext) : Prop where
  limits : ∀ x b g, withinLimits? (.var x) b = some g → A.assumptions g
  types : ∀ l, cx.value? l.name.name = some l → A.names l.name.name →
    ∀ ty, Stands cx.env [] l.type ty → A.Admits ty
  bodies : ∀ l, cx.value? l.name.name = some l → A.names l.name.name →
    l.value.Everywhere (Expr.AllowedHere cx.env A) ∧ ∀ x ∈ l.value.reads, A.names x
  values : ∀ l, cx.value? l.name.name = some l → A.names l.name.name →
    ∀ x s t source t', t.depth = l.value.unfolded cx.env (fun _ => 0) →
      l.value.nesting ≤ cx.maxDepth → coerce? t source s = some t' →
        A.assumptions (.cmp .eq (.var x) t')

section Principles

variable {cx : LoweringContext} {A : Allowance} {p : Principle}

/-- Whatever room there is for values to be opened, lowering leaves behind what is allowed. -/
theorem course_lowerIn (hA : A.Suffices cx) {n : Nat} {e : Expr}
    (he : e.Everywhere (Expr.AllowedHere cx.env A)) (hnames : ∀ x ∈ e.reads, A.names x) :
    Course cx A e.nesting (lowerIn cx n [] 0 e) fun r =>
      r.1.depth = e.unfolded cx.env (fun _ => 0) ∧ e.nesting ≤ cx.maxDepth := by
  have hopen {lowerBody : Expr → Lowering Lowered} {e : Expr}
      (hbody : ∀ l, cx.value? l.name.name = some l → A.names l.name.name →
        l.Opens cx A lowerBody)
      (he : e.Everywhere (Expr.AllowedHere cx.env A)) (hnames : ∀ x ∈ e.reads, A.names x) :
      Course cx A e.nesting (lowerWith cx lowerBody [] 0 e) fun r =>
        r.1.depth = e.unfolded cx.env (fun _ => 0) ∧ e.nesting ≤ cx.maxDepth := by
    have hstart : Counts (fun _ => 0) [] := fun _ => rfl
    simpa only [Measured, Nat.zero_add] using
      course_lowerWith hA.limits hbody he (fun x hx _ => hnames x hx) (Nat.zero_le _) hstart
  induction n generalizing e with
  | zero => exact hopen (fun l hl hname => ⟨hA.types l hl hname, 0, .stop rfl⟩) he hnames
  | succ n ih =>
    refine hopen (fun l hl hname => ?_) he hnames
    obtain ⟨hallowed, hreads⟩ := hA.bodies l hl hname
    refine ⟨hA.types l hl hname, _, (ih hallowed hreads).mono fun r hr x s t ht => ?_⟩
    exact hA.values l hl hname x s r.1 r.2 t hr.1 hr.2 ht

theorem course_lowerStatement (hA : A.Suffices cx)
    (hbody : p.body.Everywhere (Expr.AllowedHere cx.env A)) (hnames : ∀ x ∈ p.body.reads, A.names x) :
    Course cx A p.body.nesting (lowerStatement cx p) fun t =>
      t.depth = p.body.unfolded cx.env (fun _ => 0) ∧ p.body.nesting ≤ cx.maxDepth := by
  refine (course_lowerIn hA hbody hnames).bind fun r hr => ?_
  obtain ⟨t, s⟩ := r
  dsimp only
  split
  · exact .pure hr
  · exact .stop rfl

theorem Draft.within_start : cx.start.Within cx.env A := by
  constructor <;> simp [LoweringContext.start]

section

variable (hA : A.Suffices cx) (hbody : p.body.Everywhere (Expr.AllowedHere cx.env A))
  (hnames : ∀ x ∈ p.body.reads, A.names x)

include hA hbody hnames

/-- A form comes from a draft that holds nothing but what is allowed. How deep its formula is, and
that its principle keeps to the limit. -/
theorem within_of_lower {f : Form} (hf : cx.lower p = .ok f) :
    (∃ d : Draft, d.Within cx.env A ∧ f.vocabulary = d.vocabulary ∧
      f.assumptions = d.assumptions) ∧
      f.formula.depth = p.body.unfolded cx.env (fun _ => 0) ∧ p.body.nesting ≤ cx.maxDepth := by
  obtain ⟨hwithin, -, hresult, -⟩ :=
    course_lowerStatement hA hbody hnames cx.start Draft.within_start
  unfold LoweringContext.lower at hf
  split at hf
  next formula d hrun =>
    cases hf
    have hrun : (lowerStatement cx p).run.run cx.start = (.ok formula, d) := hrun
    rw [hrun] at hwithin hresult
    exact ⟨⟨d, hwithin, rfl, rfl⟩, hresult formula rfl⟩
  · cases hf

/-- A principle that is not lowered for the sake of depth goes beyond the limit. -/
theorem kind_of_lower_eq_error {o : Obstacle} (ho : cx.lower p = .error o) :
    o.fault.kind.Beyond cx.maxDepth p.body.nesting := by
  obtain ⟨-, -, -, hstops⟩ := course_lowerStatement hA hbody hnames cx.start Draft.within_start
  unfold LoweringContext.lower at ho
  split at ho
  · cases ho
  next o' d hrun =>
    obtain rfl := Except.error.inj ho
    have hrun : (lowerStatement cx p).run.run cx.start = (.error o', d) := hrun
    exact hstops o' (by rw [hrun])

end

end Principles

end Statute
