import Statute.Lowering.Principle
import Statute.Proofs.Lowering.Proper

/-!
# Lowering follows its rules

Whatever lowering makes of a principle, the rules allow, and the draft that it leaves is proper:
`proper_of_lower`. The induction is over expressions, and inside it over the values that
are still to be opened. Each is opened at most once, so the room for them is never used up; if the
value of a declared name is not assumed, then because it cannot be lowered.
-/

namespace Statute

open Logic List

attribute [local simp] Expr.children

variable {cx : LoweringContext} {T : String → List Ty → Prop} {opening : List String}
  {locals : List Local} {used : List String} {d d₁ d' : Draft} {span : Span} {r : Lowered}

/-- The rules make the term of the expression, whatever is declared after the draft. -/
def Becomes (cx : LoweringContext) (T : String → List Ty → Prop) (used : List String)
    (locals : List Local) (e : Expr) (r : Lowered) (d : Draft) : Prop :=
  ∀ v, d.vocabulary.Le v → Yields (cx.setting T v) used locals e r d.used

/-!
## Literals and operators
-/

theorem keeps_lowerVariant {n v : Ident} (hd : d.Proper cx T opening) :
    Keeps cx T opening (lowerVariant cx.env n v span) d fun r d' =>
      (∃ info, cx.env.enum? n.name = some info ∧ info.hasVariant v.name) ∧
        r = (.variant n.name v.name, .enum n.name) ∧ d'.used = d.used := by
  unfold lowerVariant
  split
  · exact Run.stop hd trivial
  next info hinfo =>
    obtain ⟨hinfo, hv⟩ := Option.filter_eq_some_iff.mp hinfo
    refine (keeps_enumSort hd).bind fun s d' hd' _ hs => ?_
    exact Run.pure hd' ⟨⟨info, hinfo, hv⟩, by rw [hs.1], hs.2⟩

variable {e : Expr} {span' : Span}

theorem keeps_lowerUnary {op : UnaryOp} (hd : d.Proper cx T opening)
    (hr : Becomes cx T used locals e r d) :
    Keeps cx T opening (lowerUnary op r span') d fun r' d' =>
      Becomes cx T used locals (.unary span op e) r' d' := by
  refine (decides_lowerUnary.keeps hd).mono fun r' d' _ hr' => ?_
  obtain ⟨hr', rfl⟩ := hr'
  intro v hv
  cases hr' with
  | not => exact .not (hr v hv)
  | neg hs => exact .neg (hr v hv) hs

theorem keeps_lowerBinary {op l r a b span''} (hd : d.Proper cx T opening)
    (ha : Becomes cx T used locals l a d₁) (hle : d₁.Grows d)
    (hb : Becomes cx T d₁.used locals r b d) :
    Keeps cx T opening (lowerBinary op a b span' span'') d fun r' d' =>
      Becomes cx T used locals (.binary span op l r) r' d' := by
  refine (decides_lowerBinary.keeps hd).mono fun r' d' _ hr' => ?_
  obtain ⟨hr', rfl⟩ := hr'
  intro v hv
  replace ha := ha v (hle.vocabulary.trans hv)
  replace hb := hb v hv
  cases hr' with
  | logical hop => exact .logical hop ha hb
  | comparison _ hop hjoined ha' hb' hordered =>
    exact .comparison hop ha hb hjoined ha' hb' hordered
  | arithmetic hlogical hcomparison hjoined ha' hb' hnumeric =>
    exact .arithmetic hlogical hcomparison ha hb hjoined ha' hb' hnumeric

/-!
## Functions
-/

/-- A function that has just been declared stays declared. -/
theorem declared_addFunction {v v' : Vocabulary} {f : FunDecl} (hv : (v.addFunction f).Le v') :
    ∃ g, v'.function? f.name = some g := by
  obtain ⟨g, -, hg⟩ := Vocabulary.exists_function?_addFunction (v := v) (d := f)
  exact ⟨g, hv.functions _ _ hg⟩

theorem keeps_lowerMember (hclosed : Closes cx T) {base field} (hd : d.Proper cx T opening)
    (hr : Becomes cx T used locals base r d) :
    Keeps cx T opening (lowerMember cx.env r span' field) d fun r' d' =>
      Becomes cx T used locals (.member span base field) r' d' := by
  obtain ⟨t, s⟩ := r
  refine (Run.get hd).bind fun st d' hd' _ hst => ?_
  obtain ⟨hst, hsame⟩ := hst
  subst hst hsame
  dsimp only
  split
  · exact Run.stop hd' trivial
  next name struct args hstruct =>
    -- the sort is a free one, and the draft knows the struct type that it stands for
    obtain ⟨rfl, hlookup⟩ : s = .free name ∧ d'.structs.lookup name = some (struct, args) := by
      split at hstruct
      next name' =>
        obtain ⟨st, hst, heq⟩ := Option.map_eq_some_iff.mp hstruct
        cases heq
        exact ⟨rfl, hst⟩
      · cases hstruct
    obtain ⟨before, after, hstructs, -⟩ := List.lookup_eq_some_iff.mp hlookup
    obtain ⟨hname, hT⟩ := hd'.structs (name, struct, args) (by simp [hstructs])
    dsimp only at hname hT
    subst hname
    split
    · exact Run.stop hd' trivial
    next ty hty =>
      refine (keeps_sortOf hd' (hclosed.fields struct args field.name ty hT hty)).bind ?_
      intro result d₁ hd₁ hle₁ hresult
      refine (keeps_addFunction hd₁).bind fun _ d₂ hd₂ hle₂ hd₂' => ?_
      subst hd₂'
      refine Run.pure hd₂ fun v hv => ?_
      have hbase := hr v ((hle₁.trans hle₂).vocabulary.trans hv)
      rw [← hresult.2] at hbase
      exact .member hbase hT hty hresult.1 (declared_addFunction hv)

/-- The symbol of a requirement, once it is declared, stays the same. -/
theorem requirementSymbol_addFunction {v v' : Vocabulary} {test requirement : String} {s : SmtSort}
    (hv : (v.addFunction ⟨requirementSymbol v test requirement s, [s], .bool⟩).Le v') :
    requirementSymbol v' test requirement s = requirementSymbol v test requirement s := by
  have hle := fun f d hf => hv.functions f d ((Vocabulary.Le.addFunction _).functions f d hf)
  unfold requirementSymbol at hv ⊢
  dsimp only at hv ⊢
  cases hf : v.function? (test ++ "." ++ requirement) with
  | some f => rw [hle _ f hf]
  | none =>
    -- nothing had the plain name before, so the requirement has it now
    rw [hf] at hv
    have hplain : (v.addFunction ⟨test ++ "." ++ requirement, [s], .bool⟩).function?
        (test ++ "." ++ requirement) = some ⟨test ++ "." ++ requirement, [s], .bool⟩ := by
      rw [Vocabulary.function?] at hf
      simp [Vocabulary.addFunction, Vocabulary.function?, hf]
    rw [hv.functions _ _ hplain]
    simp

theorem keeps_lowerRequirements {test : String} {names : List String} (hd : d.Proper cx T opening) :
    Keeps cx T opening (lowerRequirements test r names) d fun ts d' => d'.used = d.used ∧
      ∀ v, d'.vocabulary.Le v →
        (∀ q ∈ names, (Source.requirement test q r.2).Declared v) ∧
        ts = names.map fun q => .apply ((Source.requirement test q r.2).symbol v) [r.1] := by
  induction names generalizing d with
  | nil => exact Run.pure hd ⟨rfl, fun v _ => ⟨by simp, rfl⟩⟩
  | cons q names ih =>
    refine (Run.get hd).bind fun st d' hd' _ hst => ?_
    obtain ⟨hst, hsame⟩ := hst
    subst hst hsame
    refine (keeps_addFunction hd').bind fun _ d₁ hd₁ hle₁ hd₁' => ?_
    refine (ih hd₁).bind fun ts d₂ hd₂ hle₂ hts => ?_
    refine Run.pure hd₂ ⟨hts.1.trans (by rw [hd₁']), fun v hv => ?_⟩
    obtain ⟨hdeclared, hmap⟩ := hts.2 v hv
    have hv₁ := hle₂.vocabulary.trans hv
    rw [hd₁'] at hv₁
    have hsymbol := requirementSymbol_addFunction hv₁
    refine ⟨forall_mem_cons.mpr ⟨?_, hdeclared⟩, ?_⟩
    · rw [Source.Declared, Source.symbol, hsymbol]
      exact declared_addFunction hv₁
    · rw [hmap, map_cons, Source.symbol, hsymbol]

theorem keeps_lowerTest {test : Ident} (hd : d.Proper cx T opening) :
    Keeps cx T opening (lowerTest cx.env test r) d fun t d' => d'.used = d.used ∧
      ∀ v, d'.vocabulary.Le v → YieldsTest (cx.setting T v) test.name r t := by
  unfold lowerTest
  split
  · exact Run.stop hd trivial
  next info hinfo =>
    refine (keeps_lowerRequirements hd).bind fun ts d' hd' _ hts => ?_
    refine Run.pure hd' ⟨hts.1, fun v hv => ?_⟩
    obtain ⟨hdeclared, rfl⟩ := hts.2 v hv
    exact .intro hinfo hdeclared

/-!
## Arms
-/

theorem keeps_lowerPattern {p : Pattern} (hd : d.Proper cx T opening) :
    Keeps cx T opening (lowerPattern cx.env r p) d fun c d' =>
      c.2 = p.boundLocals r ∧ d'.used = d.used ∧
        ∀ v, d'.vocabulary.Le v → YieldsPattern (cx.setting T v) r p c.1 := by
  cases p with
  | wildcard span => exact Run.pure hd ⟨rfl, rfl, fun _ _ => .wildcard⟩
  | binding id => exact Run.pure hd ⟨rfl, rfl, fun _ _ => .binding⟩
  | literal span v =>
    refine (decides_lowerLiteral.keeps hd).bind fun l d' hd' _ hl => ?_
    obtain ⟨hl, hsame⟩ := hl
    subst hsame
    refine (decides_coerce.keeps hd').bind fun t d' hd' _ ht => ?_
    obtain ⟨ht, hsame⟩ := ht
    subst hsame
    exact Run.pure hd' ⟨rfl, rfl, fun _ _ => .literal hl ht⟩
  | variant span n v =>
    refine (keeps_lowerVariant hd).bind fun l d₁ hd₁ _ hl => ?_
    obtain ⟨⟨info, hinfo, hv⟩, rfl, hused⟩ := hl
    refine (decides_expectSort.keeps hd₁).bind fun _ d₂ hd₂ _ hs => ?_
    obtain ⟨hs, hsame⟩ := hs
    subst hsame
    exact Run.pure hd₂ ⟨rfl, hused, fun _ _ => .variant hinfo hv hs.symm⟩
  | satisfies span test =>
    refine (keeps_lowerTest hd).bind fun t d' hd' _ ht => ?_
    exact Run.pure hd' ⟨rfl, ht.1, fun v hv => .satisfies (ht.2 v hv)⟩

variable {arms : List (Arm Expr Expr)}

theorem YieldsArms.closing {S used' lowered} (h : YieldsArms S used locals r arms lowered used') :
    Closing lowered := by
  induction lowered generalizing used arms with
  | nil => cases h
  | cons a lowered ih =>
    cases h with
    | last => exact .last rfl
    | cons _ _ harms => exact .cons rfl (ih harms)
    | @guarded _ _ _ _ _ _ _ _ _ _ _ c _ _ _ _ _ _ _ harms =>
      cases c with
      | none | some => exact .cons rfl (ih harms)

/-!
## Declared values
-/

/-- Lowers the values of declarations as long as fewer than `n` are unopened; and a value that it
cannot lower cannot be lowered. -/
structure Opens (cx : LoweringContext) (T : String → List Ty → Prop) (n : Nat)
    (lowerBody : Expr → Lowering Lowered) : Prop where
  keeps : ∀ l ∈ cx.values, ∀ opening d, d.Proper cx T opening → (cx.unopened d).card < n →
    Keeps cx T opening (lowerBody l.value) d fun r d' => Becomes cx T d.used [] l.value r d'
  obstructed : ∀ e d s, (cx.unopened d).card < n →
    (∀ t source, ((lowerBody e).run.run d).1 = .ok (t, source) → coerce? t source s = none) →
      Obstructed cx e s

theorem Draft.Proper.assume {l : List Term} (hd : d.Proper cx T opening)
    (hl : ∀ t ∈ l, ∀ v, d.vocabulary.Le v →
      Assumed (cx.setting T v) (cx.values.map (·.name.name)) t) :
    d.Grows { d with assumptions := d.assumptions ++ l } ∧
      ({ d with assumptions := d.assumptions ++ l } : Draft).Proper cx T opening := by
  have hle : d.Grows { d with assumptions := d.assumptions ++ l } :=
    ⟨⟨fun _ h => h, fun _ _ h => h, fun _ h => h⟩, fun _ h => h,
      fun _ h => mem_append_left _ h⟩
  exact ⟨hle, hd.used, hd.sorts, hd.structs, hd.constants, hd.declared,
    forall_mem_append.mpr ⟨hd.assumptions, hl⟩,
    fun x hx => (hd.settled x hx).imp id fun h => h.mono hle⟩

/-- A value that has been settled is open no more. -/
theorem Draft.Proper.close {x : String} (hd : d.Proper cx T (x :: opening))
    (hx : d.Settled cx T x) : d.Proper cx T opening := by
  refine ⟨hd.used, hd.sorts, hd.structs, hd.constants, hd.declared, hd.assumptions, ?_⟩
  intro y hy
  rcases hd.settled y hy with hmem | hsettled
  · grind
  · exact .inr hsettled

theorem Draft.grows_declare (d : Draft) (c : ConstDecl) : d.Grows (d.declare c) :=
  ⟨⟨fun _ h => h, (Vocabulary.Le.addConstant c).functions, Vocabulary.subset_addConstant⟩,
    fun _ h => mem_append_left _ h, fun _ h => mem_append_left _ h⟩

/-- A new constant for a declared value, which is open from then on. -/
theorem Draft.Proper.declare {l : Declaration} {c : ConstDecl} (hd : d.Proper cx T opening)
    (hl : cx.value? c.symbol = some l) (hnew : c.symbol ∉ d.declared)
    (hconst : c ∈ (d.declare c).vocabulary.constants →
      l.Constant (cx.setting T (d.declare c).vocabulary) c) :
    (d.declare c).Proper cx T (c.symbol :: opening) ∧
      l.Constant (cx.setting T (d.declare c).vocabulary) c := by
  have hconstants : (d.declare c).vocabulary.constants = d.vocabulary.constants ++ [c] := by
    refine Vocabulary.constants_addConstant fun e he heq => hnew ?_
    exact (hd.declared c.symbol).mpr ⟨e, he, heq⟩
  have hle := d.grows_declare c
  replace hconst := hconst (by simp [hconstants])
  refine ⟨⟨hd.used, ?_, hd.structs, ?_, ?_, ?_, ?_⟩, hconst⟩
  · simpa [Draft.declare] using hd.sorts
  · intro e he
    rcases mem_append.mp (hconstants ▸ he) with he | he
    · obtain ⟨l', hl', hconst'⟩ := hd.constants e he
      exact ⟨l', hl', hconst'.mono hle.constants⟩
    · grind
  · intro x
    show x ∈ d.declared ++ [c.symbol] ↔ _
    rw [mem_append, hd.declared x, mem_singleton]
    constructor
    · grind
    · grind
  · refine forall_mem_append.mpr ⟨fun t ht v hv => ?_, fun g hg v hv => ?_⟩
    · exact hd.assumptions t ht v (hle.vocabulary.trans hv)
    · exact .limits hl (hconst.mono hv.constants) (Option.mem_toList.mp hg)
  · intro x hx
    rcases mem_append.mp hx with hx | hx
    · exact (hd.settled x hx).imp (mem_cons_of_mem _) fun h => h.mono hle
    · exact .inl (by simp [mem_singleton.mp hx])

variable {n : Nat} {lowerBody : Expr → Lowering Lowered}

/-- A declared value becomes its constant. -/
theorem keeps_lowerValue (hclosed : Closes cx T) (hopens : Opens cx T n lowerBody) {l : Declaration}
    (hl : cx.value? l.name.name = some l) (hd : d.Proper cx T opening)
    (hroom : (cx.unopened d).card ≤ n) :
    Keeps cx T opening (lowerValue cx lowerBody l) d fun r d' =>
      ∃ c, l.Constant (cx.setting T d'.vocabulary) c ∧ r = (.var c.symbol, c.sort) := by
  have hmem := mem_of_find?_eq_some hl
  have hadmits {ty : Ty} (hty : typeOf cx.env l.type = .ok ty) : (cx.setting T {}).Admits ty :=
    hclosed.values l hmem ty (stands_of_typeOf hty)
  have hcases := introduces_lowerValue cx lowerBody l d
  generalize hrun : (lowerValue cx lowerBody l).run.run d = outcome at hcases
  cases hcases with
  | untyped | unsorted => exact .of_error hrun hd (.refl d) trivial
  | @known ty s limits hty hs hold =>
    obtain ⟨c, hc, hcl⟩ := (hd.declared _).mp hold
    obtain ⟨l', hl', hconst⟩ := hd.constants c hc
    obtain rfl : l = l' := by grind
    -- the constant has the sort of the declared type, which is found only once
    obtain ⟨ty', hstands', -, hs'⟩ := hconst.type
    obtain rfl := hstands'.eq_of_typeOf hty
    obtain ⟨hd₁, hle₁⟩ := hd.declareSort (hadmits hty)
    refine .of_ok hrun hd₁ hle₁ ⟨c, hconst.mono hle₁.constants, ?_⟩
    rw [hs] at hs'
    cases hs'
    rw [hcl]
  | @new ty s limits c hty hs hnew hc =>
    obtain ⟨hd₁, hle₁⟩ := hd.declareSort (hadmits hty)
    have hle₂ := (d.declareSort cx.env ty).grows_declare c
    have hsymbol : c.symbol = l.name.name := by rw [hc]
    rw [← hsymbol] at hl hnew
    obtain ⟨hd₂, hconst⟩ := hd₁.declare hl ((d.addsSort_declareSort cx.env ty).declared ▸ hnew)
      fun hmem => ⟨hmem, hsymbol, by rw [hc], ty, stands_of_typeOf hty, hadmits hty, by rw [hs, hc]⟩
    have hroom₂ : (cx.unopened ((d.declareSort cx.env ty).declare c)).card < n :=
      (card_unopened_lt hmem (hsymbol ▸ hnew) (by simp [Draft.declare, hsymbol])
        (hle₁.trans hle₂)).trans_le hroom
    obtain ⟨hd₃, hle₃, hvalue, -⟩ := hopens.keeps l hmem _ _ hd₂ hroom₂
    have hobstructed := hopens.obstructed l.value _ c.sort hroom₂
    generalize (lowerBody l.value).run.run ((d.declareSort cx.env ty).declare c) = outcome
      at hrun hd₃ hle₃ hvalue hobstructed
    obtain ⟨r, d₃⟩ := outcome
    dsimp only at hd₃ hle₃ hvalue hobstructed
    obtain ⟨hle₄, hd₄⟩ := hd₃.assume (l := (c.equation? r).toList) fun t ht v hv => by
      obtain ⟨x, t', hx, ht', rfl⟩ := ConstDecl.of_equation?_eq_some (Option.mem_toList.mp ht)
      refine .value hl (hconst.mono (hle₃.vocabulary.trans hv).constants) ?_ (hvalue x hx v hv) ht'
      intro y hy
      obtain ⟨l', hl', rfl⟩ := mem_map.mp hy
      exact hd₂.used l' hl'
    have hconst₄ := hconst.mono (hle₃.trans hle₄).constants
    refine .of_ok hrun (hd₄.close ⟨l, c, hl, hconst₄, fun g hg => ?_, ?_⟩)
      (((hle₁.trans hle₂).trans hle₃).trans hle₄) ⟨c, hconst₄, rfl⟩
    · refine hle₄.assumptions (hle₃.assumptions (mem_append_right _ ?_))
      exact Option.mem_toList.mpr hg
    cases hequation : c.equation? r with
    | none =>
      -- without a value to assume, the constant is settled as it is
      refine .inl (hobstructed fun t source ht => ?_)
      rw [ht] at hequation
      exact ConstDecl.of_equation?_eq_none hequation
    | some t =>
      obtain ⟨x, t', hx, ht', rfl⟩ := ConstDecl.of_equation?_eq_some hequation
      exact .inr ⟨_, x.1, x.2, t', _, hvalue x hx, ht', by simp⟩

theorem keeps_lowerName (hclosed : Closes cx T) (hopens : Opens cx T n lowerBody) {id : Ident}
    (hd : d.Proper cx T opening) (hroom : (cx.unopened d).card ≤ n) :
    Keeps cx T opening (lowerName cx lowerBody locals id) d fun r d' =>
      Becomes cx T d.used locals (.name span id) r d' := by
  unfold lowerName
  split
  next l hl => exact Run.pure hd fun v _ => .bound hl
  next hfree =>
    split
    next l hl =>
      have hname : l.name.name = id.name := by simpa using find?_some hl
      rw [← hname] at hl
      refine (keeps_lowerValue hclosed hopens hl hd hroom).mono fun r d' hle hr => ?_
      obtain ⟨c, hc, rfl⟩ := hr
      rw [hname] at hl
      exact fun v hv => .declared hfree hl (hc.mono hv.constants) hle.used
    · exact Run.stop hd trivial

/-!
## Expressions
-/

/-- The expression is lowered by the rules, under any locals, as long as at most `n` values are
unopened. -/
def Follows (cx : LoweringContext) (T : String → List Ty → Prop) (n : Nat)
    (lowerBody : Expr → Lowering Lowered) (e : Expr) : Prop :=
  ∀ opening locals depth d, d.Proper cx T opening → (cx.unopened d).card ≤ n →
    Keeps cx T opening (lowerWith cx lowerBody locals depth e) d fun r d' =>
      Becomes cx T d.used locals e r d'

variable {n : Nat} {lowerBody : Expr → Lowering Lowered} {depth : Nat}

theorem keeps_lowerArgs {params : List Ty} {args : List Expr}
    (hparams : ∀ p ∈ params, (cx.setting T {}).Admits p) (hlen : params.length = args.length)
    (hargs : ∀ e ∈ args, Follows cx T n lowerBody e) (hd : d.Proper cx T opening)
    (hroom : (cx.unopened d).card ≤ n) :
    Keeps cx T opening (lowerArgs cx lowerBody locals depth span params args) d fun rs d' =>
      ∀ v, d'.vocabulary.Le v →
        YieldsEach (cx.setting T v) d.used locals params args rs d'.used := by
  induction args generalizing params d with
  | nil =>
    obtain rfl := length_eq_zero_iff.mp hlen
    exact Run.pure hd fun _ _ => .nil
  | cons e args ih =>
    obtain ⟨p, params, rfl⟩ := exists_cons_of_length_eq_add_one hlen
    obtain ⟨hp, hparams⟩ := forall_mem_cons.mp hparams
    obtain ⟨he, hargs⟩ := forall_mem_cons.mp hargs
    refine (keeps_sortOf hd hp).bind fun r d₁ hd₁ hle₁ hr => ?_
    obtain ⟨s, limits⟩ := r
    obtain ⟨hencoding, hused₁⟩ := hr
    have hroom₁ := (card_unopened_le hle₁).trans hroom
    refine (he opening locals depth d₁ hd₁ hroom₁).bind fun r d₂ hd₂ hle₂ ht => ?_
    obtain ⟨t, source⟩ := r
    refine (decides_coerce.keeps hd₂).bind fun t' d₂ hd₂ _ ht' => ?_
    obtain ⟨ht', hsame⟩ := ht'
    subst hsame
    have hroom₂ := (card_unopened_le hle₂).trans hroom₁
    refine (ih hparams (Nat.succ.inj hlen) hargs hd₂ hroom₂).bind fun rs d₃ hd₃ hle₃ hrs => ?_
    refine Run.pure hd₃ fun v hv => ?_
    have hthere := ht v (hle₃.vocabulary.trans hv)
    rw [hused₁] at hthere
    exact .cons hencoding hthere ht' (hrs v hv)

theorem keeps_lowerEachArm
    (hguards : ∀ a ∈ arms, ∀ g, a.guard = some g → Follows cx T n lowerBody g)
    (hbodies : ∀ a ∈ arms, Follows cx T n lowerBody a.body) (hd : d.Proper cx T opening)
    (hroom : (cx.unopened d).card ≤ n) :
    Keeps cx T opening (lowerEachArm cx lowerBody locals depth r arms) d fun lowered d' =>
      lowered.2 = true → ∀ v, d'.vocabulary.Le v →
        YieldsArms (cx.setting T v) d.used locals r arms lowered.1 d'.used := by
  induction arms generalizing d with
  | nil => exact Run.pure hd fun h => nomatch h
  | cons a arms ih =>
    obtain ⟨span, p, guard, b⟩ := a
    obtain ⟨hguard, hguards'⟩ := forall_mem_cons.mp hguards
    obtain ⟨hbody, hbodies'⟩ := forall_mem_cons.mp hbodies
    cases guard with
    | none =>
      refine (keeps_lowerPattern hd).bind fun c d₁ hd₁ hle₁ hc => ?_
      obtain ⟨c, bound⟩ := c
      obtain ⟨rfl, hused₁, hc⟩ := hc
      have hroom₁ := (card_unopened_le hle₁).trans hroom
      refine (hbody opening _ depth d₁ hd₁ hroom₁).bind fun r' d₂ hd₂ hle₂ ht => ?_
      obtain ⟨t, s⟩ := r'
      rw [hused₁] at ht
      cases c with
      | none =>
        -- the arm always applies, so those after it do not matter
        refine Run.pure hd₂ fun _ v hv => ?_
        exact .last (hc v (hle₂.vocabulary.trans hv)) (ht v hv)
      | some c =>
        have hroom₂ := (card_unopened_le hle₂).trans hroom₁
        refine (ih hguards' hbodies' hd₂ hroom₂).bind fun rest d₃ hd₃ hle₃ hrest => ?_
        obtain ⟨rest, closed⟩ := rest
        refine Run.pure hd₃ fun hclosed v hv => ?_
        have hv₂ := hle₃.vocabulary.trans hv
        exact .cons (hc v (hle₂.vocabulary.trans hv₂)) (ht v hv₂) (hrest hclosed v hv)
    | some g =>
      refine (keeps_lowerPattern hd).bind fun c d₁ hd₁ hle₁ hc => ?_
      obtain ⟨c, bound⟩ := c
      obtain ⟨rfl, hused₁, hc⟩ := hc
      have hroom₁ := (card_unopened_le hle₁).trans hroom
      refine (hguard g rfl opening _ depth d₁ hd₁ hroom₁).bind fun r' d₂ hd₂ hle₂ hg => ?_
      obtain ⟨tg, sg⟩ := r'
      rw [hused₁] at hg
      refine (decides_expectSort.keeps hd₂).bind fun _ d₂ hd₂ _ hs => ?_
      obtain ⟨hs, hsame⟩ := hs
      subst hs hsame
      have hroom₂ := (card_unopened_le hle₂).trans hroom₁
      refine (hbody opening _ depth d₂ hd₂ hroom₂).bind fun r' d₃ hd₃ hle₃ ht => ?_
      obtain ⟨t, s⟩ := r'
      have hroom₃ := (card_unopened_le hle₃).trans hroom₂
      refine (ih hguards' hbodies' hd₃ hroom₃).bind fun rest d₄ hd₄ hle₄ hrest => ?_
      obtain ⟨rest, closed⟩ := rest
      refine Run.pure hd₄ fun hclosed v hv => ?_
      have hv₃ := hle₄.vocabulary.trans hv
      have hv₂ := hle₃.vocabulary.trans hv₃
      exact .guarded (hc v (hle₂.vocabulary.trans hv₂)) (hg v hv₂) (ht v hv₃) (hrest hclosed v hv)

/-- A quantified variable becomes a new symbol. -/
theorem keeps_lowerBound {q} {var : Ident} {type : TypeExpr} {ty : Ty} {s : SmtSort} {limits body}
    (hbody : Follows cx T n lowerBody body) (hstands : Stands cx.env [] type ty)
    (hadmits : (cx.setting T {}).Admits ty) (hty : ty.encoding? = some (s, limits))
    (hd : d.Proper cx T opening) (hroom : (cx.unopened d).card ≤ n) :
    Keeps cx T opening (lowerBound cx lowerBody locals depth q var.name s limits body) d
      fun r d' => Becomes cx T d.used locals (.quantified span q var type body) r d' := by
  refine (keeps_fresh hd).bind fun symbol d₁ hd₁ hle₁ hsymbol => ?_
  obtain ⟨hnew, hfor, hused₁⟩ := hsymbol
  have hroom₁ := (card_unopened_le hle₁).trans hroom
  refine (hbody opening _ depth d₁ hd₁ hroom₁).bind fun r d₂ hd₂ _ ht => ?_
  obtain ⟨t, bodySort⟩ := r
  refine (decides_expectSort.keeps hd₂).bind fun _ d₂ hd₂ _ hs => ?_
  obtain ⟨hs, hsame⟩ := hs
  subst hs hsame
  rw [hused₁] at ht
  exact Run.pure hd₂ fun v hv => .quantified hstands hadmits hty hnew hfor (ht v hv)

/-- Expressions are lowered by the rules. -/
theorem follows (hclosed : Closes cx T) (hopens : Opens cx T n lowerBody)
    (hadmitted : e.Admitted (cx.setting T {})) : Follows cx T n lowerBody e := by
  induction e using Expr.induction with
  | h e ih =>
  replace ih := fun c hc => ih c hc (Expr.Everywhere.inside hadmitted c hc)
  intro opening locals depth d hd hroom
  cases e with
  | literal span v =>
    refine (decides_lowerLiteral.keeps hd).mono fun r d' _ hr => ?_
    obtain ⟨hr, rfl⟩ := hr
    exact fun v _ => .literal hr
  | name span id =>
    exact keeps_lowerName hclosed hopens hd hroom
  | variant span n v =>
    refine (keeps_lowerVariant hd).mono fun r d' _ hr => ?_
    obtain ⟨⟨info, hinfo, hv⟩, rfl, hused⟩ := hr
    intro v _
    rw [hused]
    exact .variant hinfo hv
  | unary span op e =>
    refine (ih e (by simp) opening locals depth d hd hroom).bind ?_
    intro r d₁ hd₁ _ hr
    exact keeps_lowerUnary hd₁ hr
  | binary span op l r =>
    refine (ih l (by simp) opening locals depth d hd hroom).bind ?_
    intro a d₁ hd₁ hle₁ ha
    have hroom₁ := (card_unopened_le hle₁).trans hroom
    refine (ih r (by simp) opening locals depth d₁ hd₁ hroom₁).bind ?_
    intro b d₂ hd₂ hle₂ hb
    exact keeps_lowerBinary hd₂ ha hle₂ hb
  | member span base field =>
    refine (ih base (by simp) opening locals depth d hd hroom).bind ?_
    intro r d₁ hd₁ _ hr
    exact keeps_lowerMember hclosed hd₁ hr
  | call span callee args =>
    refine (decides_calledFunction.keeps hd).bind fun sig d' hd' _ hsig => ?_
    obtain ⟨⟨hsig, htypes, hlen⟩, hsame⟩ := hsig
    subst hsame
    have hname : sig.name = callee.name := by simpa using find?_some hsig
    have hparams : ∀ ty ∈ sig.params.map (·.2), (cx.setting T {}).Admits ty :=
      forall_mem_map.mpr (hclosed.params _ sig hsig htypes)
    have hlen : (sig.params.map (·.2)).length = args.length := by simpa using hlen
    refine (keeps_lowerArgs hparams hlen ih hd' hroom).bind fun rs d₁ hd₁ hle₁ hrs => ?_
    refine (keeps_sortOf hd₁ (hclosed.results _ sig hsig htypes)).bind fun r d₂ hd₂ hle₂ hr => ?_
    obtain ⟨s, limits⟩ := r
    refine (keeps_addFunction hd₂).bind fun _ d₃ hd₃ hle₃ hd₃' => ?_
    subst hd₃'
    rw [hname] at hd₃ hle₃ ⊢
    refine Run.pure hd₃ fun v hv => ?_
    have hargs := hrs v ((hle₂.trans hle₃).vocabulary.trans hv)
    rw [← hr.2] at hargs
    exact .call hsig hargs hr.1 (declared_addFunction hv)
  | record span n fields =>
    exact Run.stop hd trivial
  | select span place e arms =>
    refine (ih e (by simp) opening locals depth d hd hroom).bind ?_
    intro r d₁ hd₁ hle₁ hr
    have hroom₁ := (card_unopened_le hle₁).trans hroom
    refine (keeps_lowerEachArm (fun a ha g hg => ih g (Expr.guard_mem_children ha hg))
      (fun a ha => ih a.body (Expr.body_mem_children ha)) hd₁ hroom₁).bind ?_
    intro lowered d₂ hd₂ hle₂ harms
    obtain ⟨lowered, closed⟩ := lowered
    refine (decides_lowerArms.keeps hd₂).mono fun r' d₃ _ hr' => ?_
    obtain ⟨⟨hclosed, -, hsort, hchain⟩, rfl⟩ := hr'
    obtain ⟨t, s⟩ := r'
    subst hsort
    intro v hv
    have harms := harms hclosed v hv
    exact .select (hr v (hle₂.vocabulary.trans hv)) harms (hchain harms.closing)
  | satisfies span e test =>
    refine (ih e (by simp) opening locals depth d hd hroom).bind ?_
    intro r d₁ hd₁ _ hr
    refine (keeps_lowerTest hd₁).bind fun t d₂ hd₂ hle₂ ht => ?_
    refine Run.pure hd₂ fun v hv => ?_
    have he := hr v (hle₂.vocabulary.trans hv)
    rw [← ht.1] at he
    exact .satisfies he (ht.2 v hv)
  | quantified span q var type body =>
    have hbody := ih body (by simp)
    rw [lowerWith_quantified]
    split
    · exact Run.stop hd trivial
    refine (Run.ofExcept (Q := fun ty d' => typeOf cx.env type = .ok ty ∧ d' = d) hd
      (fun ty hty => ⟨hty, rfl⟩) fun _ _ => trivial).bind fun ty d' hd' _ hty => ?_
    obtain ⟨hty, hsame⟩ := hty
    subst hsame
    have hstands := stands_of_typeOf hty
    have hadmits := hadmitted.here ty hstands
    refine (keeps_sortOf hd' hadmits).bind fun r d₁ hd₁ hle₁ hr => ?_
    refine (keeps_warnHidden hd₁).bind fun _ d₂ hd₂ hle₂ hused₂ => ?_
    have hroom₂ := (card_unopened_le (hle₁.trans hle₂)).trans hroom
    rw [← hr.2, ← hused₂]
    exact keeps_lowerBound hbody hstands hadmits hr.1 hd₂ hroom₂

/-- With room for as many values as are unopened, expressions are lowered by the rules. -/
theorem keeps_lowerIn (hclosed : Closes cx T)
    (hvalues : ∀ l ∈ cx.values, l.value.Admitted (cx.setting T {})) {pending : Nat}
    (hadmitted : e.Admitted (cx.setting T {})) (hd : d.Proper cx T opening)
    (hroom : (cx.unopened d).card ≤ pending) :
    Keeps cx T opening (lowerIn cx pending [] 0 e) d fun r d' =>
      Becomes cx T d.used [] e r d' := by
  induction pending generalizing e opening d with
  | zero =>
    -- nothing is left to be opened
    have hopens : Opens cx T 0 fun e => Lowering.stop .openMatch e.span :=
      ⟨fun _ _ _ _ _ h => absurd h (Nat.not_lt_zero _),
        fun _ _ _ h => absurd h (Nat.not_lt_zero _)⟩
    exact follows hclosed hopens hadmitted opening [] 0 d hd hroom
  | succ pending ih =>
    have hopens : Opens cx T (pending + 1) fun e => lowerIn cx pending [] 0 e :=
      ⟨fun l hl _ _ hd hroom => ih (hvalues l hl) hd (Nat.lt_succ_iff.mp hroom),
        fun _ d _ hroom h => ⟨pending, d, Nat.lt_succ_iff.mp hroom, h⟩⟩
    exact follows hclosed hopens hadmitted opening [] 0 d hd hroom

/-- A form comes from a proper draft, and its formula from the rules. -/
theorem proper_of_lower (hclosed : Closes cx T)
    (hvalues : ∀ l ∈ cx.values, l.value.Admitted (cx.setting T {})) {p : Principle}
    (hadmitted : p.body.Admitted (cx.setting T {})) {f : Form} (hf : cx.lower p = .ok f) :
    ∃ d : Draft, d.Proper cx T [] ∧ f.vocabulary = d.vocabulary ∧ f.assumptions = d.assumptions ∧
      Yields (cx.setting T f.vocabulary) cx.start.used [] p.body (f.formula, .bool) d.used := by
  have hroom : (cx.unopened cx.start).card ≤ cx.values.length := by
    refine (Finset.card_filter_le _ _).trans ((toFinset_card_le _).trans ?_)
    rw [length_map]
  have hbody := keeps_lowerIn hclosed hvalues hadmitted Draft.proper_start hroom
  have hstatement : Keeps cx T [] (lowerStatement cx p) cx.start fun t d =>
      Becomes cx T cx.start.used [] p.body (t, .bool) d := by
    refine hbody.bind fun r d hd _ hr => ?_
    obtain ⟨t, s⟩ := r
    dsimp only
    split
    next hs => grind [Run.pure]
    · exact Run.stop hd trivial
  obtain ⟨hproper, -, hresult, -⟩ := hstatement
  unfold LoweringContext.lower at hf
  split at hf
  next formula d hrun =>
    cases hf
    have hrun : (lowerStatement cx p).run.run cx.start = (.ok formula, d) := hrun
    rw [hrun] at hproper hresult
    exact ⟨d, hproper, rfl, rfl, hresult formula rfl _ (.refl _)⟩
  · cases hf

end Statute
