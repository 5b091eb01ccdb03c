import Statute.Proofs.Check.Bounds
import Statute.Proofs.Lowering.Folding

/-!
# Constants that are declared

A value that is declared by a constant expression is checked against the limits of its type, and in
the logic it is assumed to keep within these limits and to equal the term that the expression is
lowered to. Both are about one number: `trueOf_limits` says that what the checker lets pass
satisfies the limits that are assumed, also where a whole number is taken as a real one, and
`trueOf_equation` that it equals the term. So assumptions about a constant are true of it,
`folded_constants_agree`, unless folding has rounded a quotient the other way,
`rounded_constant_contradicts`.
-/

namespace Statute

open Logic Search Checking

variable {cx : LoweringContext} {lowerBody : Expr → Lowering Lowered} {name : String} {s : SmtSort}

/-!
## Numbers as real numbers
-/

/-- The value is the constant, as it is or as a real number. -/
def Constant.TakenAs (v : Constant) (w : Value) : Prop :=
  w = v.value ∨ realValue v.value = some w

/-- The order in which doubles are tried out comes to the comparison, where it is not reversed. -/
theorem order_of_compare {x y : Float} {o : Ordering}
    (h : x.toModel.unpack.compare y.toModel.unpack = some o) (hne : o ≠ .gt) :
    (if x < y then some Ordering.lt else if x > y then some .gt else if x == y then some .eq
      else none) = some o := by
  have hlt (a b : Float) : a < b ↔ a.toModel.unpack.compare b.toModel.unpack = some .lt := by
    change decide (a.toModel < b.toModel) = true ↔ _
    rw [decide_eq_true_iff]
    exact beq_iff_eq
  cases o with
  | lt => rw [if_pos ((hlt x y).mpr h)]
  | gt => exact absurd rfl hne
  | eq =>
    have hnot : ¬ x < y := by rw [hlt, h]; decide
    have hnot' : ¬ x > y := by rw [gt_iff_lt, hlt, compare_symm h]; decide
    have hsame : (x == y) = true := by
      change (x.toModel.unpack.compare y.toModel.unpack == some .eq) = true
      rw [h, beq_self_eq_true]
    rw [if_neg hnot, if_neg hnot', if_pos hsame]

theorem orderOf?_of_le {m n : Int} (h : m ≤ n) {w w' : Value} (hw : (Constant.int m).TakenAs w)
    (hw' : (Constant.int n).TakenAs w') :
    ∃ o, orderOf? w w' = some o ∧ o ≠ .gt ∧ (m = n → o = .eq) := by
  obtain ⟨o, ho, hne⟩ := notAbove_ofInt h
  have hsame (hmn : m = n) : o = .eq := by
    subst hmn
    exact Option.some.inj (ho.symm.trans (NotAbove.compare_self ⟨o, ho, hne⟩))
  rcases hw with rfl | hw <;> rcases hw' with rfl | hw'
  · refine ⟨compare m n, rfl, ?_, ?_⟩
    · exact fun hgt => absurd (Int.compare_eq_gt.mp hgt) (Int.not_lt.mpr h)
    · exact fun hmn => Std.compare_eq_iff_eq.mpr hmn
  · cases hw'
    exact ⟨o, order_of_compare ho hne, hne, hsame⟩
  · cases hw
    exact ⟨o, order_of_compare ho hne, hne, hsame⟩
  cases hw
  cases hw'
  exact ⟨o, order_of_compare ho hne, hne, hsame⟩

theorem compareValues_le {m n : Int} (h : m ≤ n) {w w' : Value} (hw : (Constant.int m).TakenAs w)
    (hw' : (Constant.int n).TakenAs w') : compareValues .le w w' = some true := by
  obtain ⟨o, ho, hne, -⟩ := orderOf?_of_le h hw hw'
  rw [compareValues, ho]
  exact congrArg some (bne_iff_ne.mpr hne)

/-!
## Limits
-/

/-- The statement is true wherever the name has the value. -/
def TrueOf (name : String) (w : Value) (t : Term) : Prop :=
  ∀ i bound, i.symbol? bound name = some w → (eval i bound t).value = some (.bool true)

section Limits

variable {n : Int} {w : Value} {name : String}

theorem trueOf_atLeast (hw : (Constant.int n).TakenAs w) {lo : Int} (h : lo ≤ n) :
    TrueOf name w (.cmp .le (.int lo) (.var name)) := by
  intro i bound hname
  rw [value_cmp (value_int i bound lo) (value_var hname)]
  exact congrArg (Option.map Value.bool) (compareValues_le h (.inl rfl) hw)

theorem trueOf_atMost (hw : (Constant.int n).TakenAs w) {hi : Int} (h : n ≤ hi) :
    TrueOf name w (.cmp .le (.var name) (.int hi)) := by
  intro i bound hname
  rw [value_cmp (value_var hname) (value_int i bound hi)]
  exact congrArg (Option.map Value.bool) (compareValues_le h hw (.inl rfl))

theorem TrueOf.and {x y : Term} (hx : TrueOf name w x) (hy : TrueOf name w y) :
    TrueOf name w (.and [x, y]) := by
  intro i bound hname
  have htruth {t : Term} (ht : TrueOf name w t) : (eval i bound t).truth.truth = some true := by
    rw [Outcome.truth, ht i bound hname]
  rw [eval, evalAll, htruth hx]
  rw [evalAll, htruth hy]
  rfl

/-- A number within limits satisfies the statement that it is, also as a real number. -/
theorem trueOf_withinLimits? {l : Limits} (hn : l.allow n)
    (hw : (Constant.int n).TakenAs w) {g : Term} (hg : withinLimits? (.var name) l = some g) :
    TrueOf name w g := by
  obtain ⟨_ | lo, _ | hi⟩ := l <;> cases hg
  · exact trueOf_atMost hw (by simpa [Limits.allow] using hn)
  · exact trueOf_atLeast hw (by simpa [Limits.allow] using hn)
  · have hboth : lo ≤ n ∧ n ≤ hi := by simpa [Limits.allow] using hn
    exact (trueOf_atLeast hw hboth.1).and (trueOf_atMost hw hboth.2)

end Limits

namespace Ty

variable {env : Env} {t : Ty} {s : SmtSort} {l : Limits}

/-- The limits of a type of numbers are the same for the checker and in the logic. -/
theorem limits_of_encoding? {t : Ty} (h : t.encoding? = some (s, l))
    (haccepts : t.accepts .int) : l = t.limits := by
  cases t with
  | prim p => cases p <;> cases h <;> rfl
  | refine base lo hi =>
    obtain ⟨e, -, he⟩ := Option.map_eq_some_iff.mp h
    cases he
    rfl
  | temporal inner => exact limits_of_encoding? (t := inner) h haccepts
  | positive inner =>
    rw [encoding?] at h
    split at h
    · obtain ⟨e, -, he⟩ := Option.map_eq_some_iff.mp h
      cases he
      rfl
    · cases h
  | validDate => cases haccepts
  | struct | enum | citation | moneyIn =>
    cases h
    rfl
  | nonEmpty | union | array | var | unknown => cases h

/-- Numbers do not stand for anything else. -/
theorem accepts_of_isNumeric {q : Prim} (hnumeric : t.isNumeric) (h : t.HasSort s)
    (haccepts : t.accepts (.prim q)) : q.isNumeric := by
  obtain ⟨p, hcore, hp, -⟩ := prim_of_isNumeric h.sort_core hnumeric
  rw [← accepts_core, hcore, accepts, primAccepts, eachAlternative] at haccepts
  have hsame : p = q ∨ q = .int ∧ p.isNumeric = true := by simpa using haccepts
  rcases hsame with rfl | ⟨rfl, -⟩
  · exact hp
  · rfl

/-- Only numbers have limits. -/
theorem limits_eq_none {q : Prim} (hq : q = .bool ∨ q = .string) {t : Ty} (ht : t.Sound env)
    (h : t.encoding? = some (s, l)) (haccepts : t.accepts (.prim q)) : l = (none, none) := by
  have hnot : q.isNumeric = false := by rcases hq with rfl | rfl <;> rfl
  cases t with
  | prim p => cases p <;> cases h <;> rfl
  | refine base lo hi =>
    obtain ⟨e, he, -⟩ := Option.map_eq_some_iff.mp h
    have hnumeric := accepts_of_isNumeric (Every.refine_iff.mp ht).1.1 ⟨e.2, he⟩ haccepts
    simp [hnot] at hnumeric
  | temporal inner =>
    exact limits_eq_none hq (t := inner) (Every.temporal_iff.mp ht).2 h haccepts
  | positive inner =>
    rw [encoding?] at h
    split at h
    · obtain ⟨e, he, -⟩ := Option.map_eq_some_iff.mp h
      have hnumeric := accepts_of_isNumeric (Every.positive_iff.mp ht).1 ⟨e.2, he⟩ haccepts
      simp [hnot] at hnumeric
    · cases h
  | validDate => rcases hq with rfl | rfl <;> cases haccepts
  | struct | enum | citation | moneyIn =>
    cases h
    rfl
  | nonEmpty | union | array | var | unknown => cases h

end Ty

variable {e : Expr} {t : Ty}

/-!
## Declarations
-/

/-- The type that is found for an expression is that of the constant that it folds to. -/
theorem HasValue.typed {ok : Int → Prop} {v : Constant} (h : HasValue ok (fun _ => none) e v)
    {cx scope want} (ht : Typed cx scope want e t) : t = .prim v.prim := by
  induction h generalizing want t with
  | int | bool | string =>
    cases ht with
    | literal ht =>
      obtain ⟨r, rfl, -⟩ := ht
      rfl
  | name h => cases h
  | not he ih =>
    cases ht with
    | unary ht hu =>
      rcases (passes_unaryType _ _ _).result t hu with ⟨-, -, rfl⟩ | ⟨hop, -⟩
      · rfl
      · cases hop
  | neg he h ih =>
    cases ht with
    | unary ht hu =>
      rcases (passes_unaryType _ _ _).result t hu with ⟨hop, -⟩ | ⟨-, -, rfl⟩
      · cases hop
      · rw [ih ht]
        rfl
  | @settled span op l r p c hl h ih =>
    cases ht with
    | binary hl' hr' ht =>
      have hop : op.isLogical = true := by cases op <;> first | rfl | cases h
      cases (passes_binaryType op _ _ _ _).result t ht with
      | logical => rfl
      | comparison hlogical | duration hlogical | arithmetic hlogical => simp [hop] at hlogical
  | @combined span op l r a b v hl hr h ihl ihr =>
    cases ht with
    | binary hl' hr' ht =>
      have hleft := ihl hl'
      have hright := ihr hr'
      cases h with
      | arithmetic hk =>
        rw [hleft, hright] at ht
        obtain ⟨r, rfl, -⟩ := ht
        exact congrArg (fun x : Checking Ty => (x.run r).1)
          (binaryType_int hk.isArithmetic.1 hk.isArithmetic.2 _ _)
      | comparison hc =>
        cases (passes_binaryType op _ _ _ _).result t ht with
        | comparison => rfl
        | logical hop => cases hop.symm.trans hc.isComparison.1
        | duration _ hop | arithmetic _ hop => cases hop.symm.trans hc.isComparison.2
      | connective hlogical =>
        cases (passes_binaryType op _ _ _ _).result t ht with
        | logical => rfl
        | comparison hop | duration hop | arithmetic hop => simp [hop] at hlogical

/-- The type that is written in a declaration of an accepted program is sound, and the value fits
it. -/
theorem declared_of_check {p : Program} {options} {cp : CheckedProgram}
    (h : p.check options = .ok cp) {d : Declaration} (hd : d ∈ p.values) :
    ∃ t, Stands cp.env [] d.type t ∧ t.Sound cp.env ∧ ∃ scope u,
      Typed ⟨cp.env, options, []⟩ scope (some t) d.value u ∧ fits cp.env t u ∧
        constantFaults t d.value = [] := by
  obtain ⟨scope, hitem⟩ := goesThrough_checkItem h (Program.mem_values_iff.mp hd)
  have hadds := onlyAdds_resolve ⟨cp.env, options, []⟩ d.type
  have hvalueAdds (t : Ty) : OnlyAdds (expectValue ⟨cp.env, options, []⟩ scope t d.value) :=
    (passes_expectValue t d.value).onlyAdds
  obtain ⟨hresolve, hrest⟩ := hitem.bind hadds
    ((hvalueAdds _).bind fun _ => (passes_bindName d.name _ .variable).onlyAdds)
  have hexpect := (hrest.bind (hvalueAdds _) (passes_bindName d.name _ .variable).onlyAdds).1
  refine ⟨_, (orderly_of_check h).stands_of_gives (hresolve.result hadds.gives),
    (settles_resolve cp.env [] [] d.type).through hresolve, scope, ?_⟩
  exact hexpect.result (passes_expectValue _ d.value)

variable {locals : List Local} {depth : Nat}

/-!
## Assumptions
-/

/-- The step leaves the draft as it is, whether it comes to an end or not. -/
def Idle {β : Type} (x : Lowering β) : Prop :=
  ∀ d, Run (· = d) Draft.Extends (fun _ => True) x d fun _ _ => True

theorem Idle.bind {β γ : Type} {x : Lowering β} {f : β → Lowering γ} (hx : Idle x)
    (hf : ∀ b, Idle (f b)) : Idle (x >>= f) := by
  intro d
  refine (hx d).bind fun b d' hd' _ _ => ?_
  subst hd'
  exact hf b d'

theorem Decides.idle {β : Type} {Q : β → Prop} {F : ObstacleKind → Prop} {x : Lowering β}
    (hx : Decides Q F x) : Idle x :=
  fun d => (hx.run (I := (· = d)) rfl fun _ _ _ => trivial).mono fun _ _ _ _ => trivial

/-- An expression without names leaves the draft as it is. -/
theorem idle_lowerWith (he : e.isExact) : Idle (lowerWith cx lowerBody locals depth e) := by
  fun_induction Expr.isExact e with
  | case1 span l => exact decides_lowerLiteral.idle
  | case2 span op e ih => exact (ih he).bind fun _ => decides_lowerUnary.idle
  | case3 span op l r ihl ihr =>
    obtain ⟨hl, hr⟩ := Bool.and_eq_true_iff.mp he
    exact (ihl hl).bind fun _ => (ihr hr).bind fun _ => decides_lowerBinary.idle
  | case4 => cases he

/-- What is assumed about a declared value are the limits of its type and its equality with its
value. -/
theorem assumptions_lowerValue {P : Term → Prop} {d : Declaration} (hbody : Idle (lowerBody d.value))
    {Q : Lowered → Prop} (hQ : Results (lowerBody d.value) Q)
    (hassumed : ∀ t s l, typeOf cx.env d.type = .ok t → t.encoding? = some (s, l) →
      (∀ g, withinLimits? (.var d.name.name) l = some g → P g) ∧
        ∀ r x, Q r → coerce? r.1 r.2 s = some x → P (.cmp .eq (.var d.name.name) x))
    (draft : Draft) :
    ∃ new, ((lowerValue cx lowerBody d).run.run draft).2.assumptions = draft.assumptions ++ new ∧
      ∀ a ∈ new, P a := by
  have hcases := introduces_lowerValue cx lowerBody d draft
  generalize (lowerValue cx lowerBody d).run.run draft = outcome at hcases
  cases hcases with
  | untyped | unsorted => exact ⟨[], by simp⟩
  | @known ty => exact ⟨[], by simp [(draft.addsSort_declareSort cx.env ty).assumptions]⟩
  | @new ty s limits c hty hs hnew hc =>
    obtain ⟨hguard, hvalue⟩ := hassumed ty s limits hty hs
    have hsame := (hbody ((draft.declareSort cx.env ty).declare c)).kept
    have hresult := hQ ((draft.declareSort cx.env ty).declare c)
    generalize (lowerBody d.value).run.run _ = outcome at hsame hresult
    refine ⟨(withinLimits? (.var c.symbol) (c.lower, c.upper)).toList ++
      (c.equation? outcome.1).toList, ?_, List.forall_mem_append.mpr ⟨?_, ?_⟩⟩
    · rw [Draft.settle, hsame, Draft.declare, (draft.addsSort_declareSort cx.env ty).assumptions,
        List.append_assoc]
    · grind
    · grind [ConstDecl.of_equation?_eq_some]

/-!
## Agreement
-/

section Agreement

variable {v : Constant} {w w' : Value}

/-- All forms in which a constant is taken are equal. -/
theorem compareValues_takenAs (hv : v.isExact) (hw : v.TakenAs w) (hw' : v.TakenAs w') :
    compareValues .eq w w' = some true := by
  cases v with
  | float => cases hv
  | int n =>
    obtain ⟨o, ho, -, heq⟩ := orderOf?_of_le (Int.le_refl n) hw hw'
    obtain rfl := heq rfl
    rw [compareValues, ho]
    rfl
  | bool b | string b =>
    rcases hw with rfl | hw
    · rcases hw' with rfl | hw'
      · exact congrArg some (beq_self_eq_true b)
      · cases hw'
    · cases hw

/-- A term that computes a constant does so as a real number where one is asked for. -/
theorem takenAs_coerce? {t x : Term} (ht : Computes t v) (hx : coerce? t v.sort s = some x) :
    ∃ w, v.TakenAs w ∧ ∀ i bound, (eval i bound x).value = some w := by
  unfold coerce? at hx
  split at hx
  · cases hx
    exact ⟨v.value, .inl rfl, ht⟩
  cases v with
  | float | bool | string => cases hx
  | int n =>
    cases s with
    | real =>
      refine ⟨.real (Float.ofInt n), .inr rfl, fun i bound => ?_⟩
      have hvalue := ht i bound
      dsimp only [Constant.sort] at hx
      split at hx
      next k =>
        cases hx
        cases hvalue
        rw [eval]
      · cases hx
        rw [eval, Outcome.bindValue, hvalue]
        rfl
    | _ => cases hx

theorem trueOf_equation {t x : Term} (hv : v.isExact) (hw : v.TakenAs w) (ht : Computes t v)
    (hx : coerce? t v.sort s = some x) : TrueOf name w (.cmp .eq (.var name) x) := by
  obtain ⟨w', hw', hvalue⟩ := takenAs_coerce? ht hx
  intro i bound hname
  rw [value_cmp (value_var hname) (hvalue i bound), compareValues_takenAs hv hw hw']
  rfl

/-- The limits of the declared type of a constant that is accepted for it hold of the constant. -/
theorem trueOf_limits {env : Env} {l : Limits} {g : Term} (he : foldClosed e = some v)
    (hv : v.isExact) (ht : t.Sound env) (hfits : fits env t (.prim v.prim))
    (hfaults : constantFaults t e = []) (hl : t.encoding? = some (s, l)) (hw : v.TakenAs w)
    (hg : withinLimits? (.var name) l = some g) : TrueOf name w g := by
  have haccepts : t.accepts (.prim v.prim) = true := by
    rcases Bool.or_eq_true_iff.mp hfits with h | h
    · exact h
    · split at h <;> simp_all [Ty.core]
  have hnone (hq : v.prim = .bool ∨ v.prim = .string) : TrueOf name w g := by
    rw [Ty.limits_eq_none hq ht hl haccepts] at hg
    cases hg
  cases v with
  | float => cases hv
  | bool => exact hnone (.inl rfl)
  | string => exact hnone (.inr rfl)
  | int n =>
    have hallow : l.allow n = true := by
      rw [constantFaults_of_fold he, ← Ty.limits_of_encoding? hl haccepts] at hfaults
      by_contra hnot
      rw [if_neg hnot] at hfaults
      cases hfaults
    exact trueOf_withinLimits? hallow hw hg

end Agreement

/-- An operation on two whole numbers that are written out. -/
def Expr.onInts (op : BinaryOp) (m n : Int) : Expr :=
  .binary {} op (.literal {} (.int m)) (.literal {} (.int n))

/-- A single quotient or remainder is folded as the logic evaluates it exactly if rounding makes no
difference. -/
theorem division_agrees_iff {op} (hop : op = .div ∨ op = .mod) {m n} (hm : Whole.InRange m)
    (hn : n ≠ 0) :
    Results (lowerWith cx lowerBody locals depth (.onInts op m n)) fun r => ∀ i bound,
      (foldClosed (.onInts op m n)).map Constant.value = (eval i bound r.1).value ↔
        Whole.RoundsAlike m n := by
  have hlowered : lowerWith cx lowerBody locals depth (.onInts op m n) =
      pure (.arith (arithmeticOf op) .int (.int m) (.int n), .int) := by
    rcases hop with rfl | rfl <;> rfl
  rw [hlowered]
  refine .pure fun i bound => ?_
  have hvalue : (eval i bound (.arith (arithmeticOf op) .int (.int m) (.int n))).value =
      (intArithmetic (arithmeticOf op) m n).map Value.int := by
    rfl
  have hints (q q' : Option Int) :
      (q.map Constant.int).map Constant.value = q'.map Value.int ↔ q = q' := by
    rw [Option.map_map]
    exact (Option.map_injective fun _ _ => Value.int.inj).eq_iff
  rcases hop with rfl | rfl
  · exact (hints (Whole.quot? m n) (Whole.div? m n)).trans (Whole.quot?_eq_div?_iff hm hn)
  · exact (hints (Whole.rem? m n) (Whole.mod? m n)).trans (Whole.rem?_eq_mod?_iff hm hn)

/-- Constants are folded as the logic evaluates them, if each division that is carried out has a
dividend that is not negative or comes out even. Then what an expression is lowered to has the value
that it folds to, whatever symbols stand for; and what an accepted program assumes about a value
that it declares by such an expression, limits included, is true of the constant. For a single
quotient or remainder the condition is also necessary. -/
theorem folded_constants_agree {e : Expr} {v : Constant} (hexact : e.isExact = true)
    (hfold : foldClosed e = some v) (halike : ∀ d ∈ e.divisions, Whole.RoundsAlike d.1 d.2) :
    (∀ cx lowerBody locals depth, Results (lowerWith cx lowerBody locals depth e) fun r =>
      ∀ i bound, (eval i bound r.1).value = some v.value) ∧
    (∀ {p : Program} {options : CheckOptions} {cp : CheckedProgram}, p.check options = .ok cp →
      ∀ d ∈ p.values, d.value = e → ∀ cx : LoweringContext, cx.env = cp.env →
        ∀ pending draft w, v.TakenAs w →
          ∃ new, ((lowerValue cx (lowerIn cx pending [] 0) d).run.run draft).2.assumptions =
              draft.assumptions ++ new ∧
            ∀ a ∈ new, ∀ i bound, i.symbol? bound d.name.name = some w →
              (eval i bound a).value = some (.bool true)) ∧
    ∀ op m n, op = .div ∨ op = .mod → Whole.InRange m → n ≠ 0 → ∀ cx lowerBody locals depth,
      Results (lowerWith cx lowerBody locals depth (.onInts op m n)) fun r => ∀ i bound,
        (foldClosed (.onInts op m n)).map Constant.value = (eval i bound r.1).value ↔
          Whole.RoundsAlike m n := by
  obtain ⟨hhas, hkind⟩ := hasValue_of_foldClosed hexact hfold
  refine ⟨fun cx lowerBody locals depth =>
      (results_of_foldClosed hexact hfold halike).mono fun r hr => hr.2, ?_,
    fun op m n hop hm hn cx lowerBody locals depth => division_agrees_iff hop hm hn⟩
  intro p options cp hcheck d hd hvalue cx henv pending draft w hw
  obtain ⟨t, hstands, hsound, scope, u, hu, hfits, hfaults⟩ := declared_of_check hcheck hd
  rw [hvalue] at hu hfaults
  obtain rfl := hhas.typed hu
  have hlowered (k : Nat) : ∃ lowerBody, lowerIn cx k [] 0 = lowerWith cx lowerBody [] 0 := by
    cases k with
    | zero => exact ⟨_, rfl⟩
    | succ k => exact ⟨_, rfl⟩
  obtain ⟨lowerBody, hbody⟩ := hlowered pending
  rw [hbody]
  refine assumptions_lowerValue (Q := fun r => r.2 = v.sort ∧ Computes r.1 v)
    (hvalue ▸ idle_lowerWith hexact) (hvalue ▸ results_of_foldClosed hexact hfold halike)
    (fun t' s l ht' hl => ?_) draft
  rw [henv] at ht'
  obtain rfl := hstands.eq_of_typeOf ht'
  refine ⟨fun g hg => trueOf_limits hfold hkind hsound hfits hfaults hl hw hg, ?_⟩
  rintro ⟨t, _⟩ x ⟨rfl, ht⟩ hx
  exact trueOf_equation hkind hw ht hx

/-- A surcharge of one, by two divisions of which neither depends on the way of rounding. -/
def surcharge : Declaration where
  span := {}
  name := "surcharge"
  type := .refine {} (.prim {} .money) (some 0) (some 10)
  value := .binary {} .add
    (.binary {} .div (.unary {} .neg (.literal {} (.int 6))) (.literal {} (.int 3)))
    (.binary {} .mod (.literal {} (.int 7)) (.unary {} .neg (.literal {} (.int 4))))

def surcharges : Program where
  name := "surcharges"
  items := [.value surcharge]

theorem check_surcharges : surcharges.check = .ok ⟨surcharges, {}, []⟩ := check_eq_ok rfl

theorem surcharge_agrees :
    surcharge.value.isExact = true ∧ foldClosed surcharge.value = some (.int 1) ∧
    surcharge.value.divisions = [(-6, 3), (7, -4)] ∧
    surcharges.check = .ok ⟨surcharges, {}, []⟩ ∧
    Results (lowerIn ⟨{}, [surcharge], 1⟩ 0 [] 0 surcharge.value) (fun r =>
      ∀ i bound, (eval i bound r.1).value = some (.int 1)) ∧
    ((lowerValue ⟨{}, [surcharge], 1⟩ (lowerIn ⟨{}, [surcharge], 1⟩ 1 [] 0) surcharge).run.run
      {}).2.assumptions.length = 2 ∧
    ∀ a ∈ ((lowerValue ⟨{}, [surcharge], 1⟩ (lowerIn ⟨{}, [surcharge], 1⟩ 1 [] 0)
        surcharge).run.run {}).2.assumptions,
      ∀ i bound, i.symbol? bound "surcharge" = some (.real (Float.ofInt 1)) →
        (eval i bound a).value = some (.bool true) := by
  have hexact : surcharge.value.isExact = true := rfl
  have hfold : foldClosed surcharge.value = some (.int 1) := rfl
  have hdivisions : surcharge.value.divisions = [(-6, 3), (7, -4)] := rfl
  have halike : ∀ d ∈ surcharge.value.divisions, Whole.RoundsAlike d.1 d.2 := by
    rw [hdivisions]
    decide
  obtain ⟨hvalue, hassumed, -⟩ := folded_constants_agree hexact hfold halike
  refine ⟨hexact, hfold, hdivisions, check_surcharges, hvalue _ _ _ _, rfl, ?_⟩
  obtain ⟨new, hnew, htrue⟩ := hassumed check_surcharges surcharge List.mem_cons_self rfl
    ⟨{}, [surcharge], 1⟩ rfl 1 {} _ (.inr rfl)
  rw [hnew]
  exact htrue

/-- Arrears from minus three to zero, by a division that depends on the way of rounding. -/
def arrears : Declaration where
  span := {}
  name := "arrears"
  type := .refine {} (.prim {} .int) (some (-3)) (some 0)
  value := .binary {} .div (.unary {} .neg (.literal {} (.int 7))) (.literal {} (.int 2))

/-- Minus seven by two is folded to minus three and evaluated as minus four. So there are accepted
declarations about which is assumed what no number satisfies. -/
theorem rounded_constant_contradicts :
    foldClosed arrears.value = some (.int (-3)) ∧
    (∃ t, (lowerIn ⟨{}, [arrears], 1⟩ 1 [] 0 arrears.value).run.run {} = (.ok (t, .int), {}) ∧
      ∀ i bound, (eval i bound t).value = some (.int (-4))) ∧
    Program.check ⟨"arrears", [.value arrears]⟩ = .ok ⟨⟨"arrears", [.value arrears]⟩, {}, []⟩ ∧
    ∀ i bound n, i.symbol? bound "arrears" = some (.int n) →
      ¬ ∀ a ∈ ((lowerValue ⟨{}, [arrears], 1⟩ (lowerIn ⟨{}, [arrears], 1⟩ 1 [] 0)
          arrears).run.run {}).2.assumptions, (eval i bound a).value = some (.bool true) := by
  have hvalue (i : Interpretation) (bound : List (String × Value)) :
      (eval i bound (.arith .div .int (.neg (.int 7)) (.int 2))).value = some (.int (-4)) := by
    rw [eval, eval, eval, eval]
    rfl
  refine ⟨rfl, ⟨_, rfl, hvalue⟩, check_eq_ok rfl, fun i bound n hn hall => ?_⟩
  have hassumed : ((lowerValue ⟨{}, [arrears], 1⟩ (lowerIn ⟨{}, [arrears], 1⟩ 1 [] 0)
      arrears).run.run {}).2.assumptions =
        [.and [.cmp .le (.int (-3)) (.var "arrears"), .cmp .le (.var "arrears") (.int 0)],
          .cmp .eq (.var "arrears") (.arith .div .int (.neg (.int 7)) (.int 2))] := rfl
  rw [hassumed, List.forall_mem_cons, List.forall_mem_singleton] at hall
  obtain ⟨hlimits, hequal⟩ := hall
  -- the number would be minus four, which is below the lower limit
  rw [value_cmp (value_var hn) (hvalue i bound)] at hequal
  obtain rfl : n = -4 := by simpa [compareValues, orderOf?] using hequal
  have hbelow : (eval i bound (.cmp .le (.int (-3)) (.var "arrears"))).value =
      some (.bool false) := by
    rw [value_cmp (value_int i bound (-3)) (value_var hn)]
    rfl
  rw [eval, evalAll, Outcome.truth, hbelow] at hlimits
  cases hlimits

end Statute
