import Mathlib.Data.List.Forall2
import Statute.Proofs.Check.Typing

/-!
# What an accepted expression tells

Each check that takes part in inference asks something of the types it is given. Where it comes out
with nothing reported, what it asks for holds: operands suit their operator, a field is there, the
arguments of a call fit its parameters, the arms of a `match` fit the first one.
-/

namespace Statute

open Checking

/-!
## Literals, variants and legal tests
-/

theorem passes_literalType (v : Literal) (span : Span) :
    Passes (literalType v span) fun t => t = .prim (literalPrim v) := by
  unfold literalType
  split
  · exact (tame_readDate _ span).onlyAdds.gives.bind fun _ => .pure fun _ => rfl
  · exact .pure rfl

theorem passes_variantType (env : Env) (type variant : Ident) (span : Span) :
    Passes (variantType env type variant span) fun t =>
      t = .enum type.name ∧
        ∃ info, env.enum? type.name = some info ∧ info.hasVariant variant.name := by
  unfold variantType
  split
  · exact .fault (.pure _)
  next info hinfo =>
    refine (Passes.faultIf _ _ _).bind fun _ => .pure fun hvariant => ⟨rfl, info, hinfo, ?_⟩
    simpa using hvariant

theorem passes_checkTest (env : Env) (test : Ident) :
    Passes (checkTest env test) fun _ => ∃ info, env.test? test.name = some info := by
  refine (Passes.faultIf _ _ _).mono fun _ hnone => ?_
  exact Option.isSome_iff_exists.mp (by simpa using hnone)

/-!
## Operators
-/

theorem passes_unaryType (op : UnaryOp) (t : Ty) (span : Span) :
    Passes (unaryType op t span) fun u =>
      (op = .not ∧ t.isBool ∧ u = .bool) ∨
        (op = .neg ∧ t.isNumeric ∧ u = t.core) := by
  cases op with
  | not =>
    refine (Passes.faultIf _ _ _).bind fun _ => .pure fun hbool => .inl ⟨rfl, ?_, rfl⟩
    simpa using hbool
  | neg =>
    unfold unaryType
    dsimp only
    split
    next hnumeric => exact .pure (.inr ⟨rfl, hnumeric, rfl⟩)
    · exact .fault (.pure _)

/-- What an operator asks of the types of its operands, and the type of the result. -/
inductive Suits (op : BinaryOp) (l r : Ty) : Ty → Prop where
  | logical (hop : op.isLogical = true) (hl : l.isBool = true) (hr : r.isBool = true) :
      Suits op l r .bool
  | comparison (hlogical : op.isLogical = false) (hop : op.isComparison = true)
      (h : comparable op l r = true) : Suits op l r .bool
  | duration {t} (hlogical : op.isLogical = false) (hcomparison : op.isComparison = false)
      (h : durationType? op l r = some t) : Suits op l r t
  | arithmetic (hlogical : op.isLogical = false) (hcomparison : op.isComparison = false)
      (hl : l.isNumeric = true) (hr : r.isNumeric = true) : Suits op l r (arithmeticType l r)

theorem passes_binaryType (op : BinaryOp) (l r : Ty) (lspan rspan : Span) :
    Passes (binaryType op l r lspan rspan) (Suits op l r) := by
  unfold binaryType
  split
  next hlogical =>
    refine (Passes.faultIf _ _ _).bind fun _ => (Passes.faultIf _ _ _).bind fun _ => ?_
    exact .pure fun hr hl => .logical hlogical (by simpa using hl) (by simpa using hr)
  next hlogical =>
    have hlogical : op.isLogical = false := by simpa using hlogical
    split
    next hcomparison =>
      refine (Passes.faultIf _ _ _).bind fun _ => .pure fun h => ?_
      exact .comparison hlogical hcomparison (by simpa using h)
    next hcomparison =>
      have hcomparison : op.isComparison = false := by simpa using hcomparison
      split
      next t ht => exact .pure (.duration hlogical hcomparison ht)
      · split
        · exact .fault (.pure _)
        next hl =>
          split
          · exact .fault (.pure _)
          next hr =>
            exact .pure (.arithmetic hlogical hcomparison (by simpa using hl) (by simpa using hr))

/-!
## Fields and calls
-/

theorem passes_memberType (env : Env) (t : Ty) (span : Span) (field : Ident) :
    Passes (memberType env t span field) fun u => t.core = .unknown ∨
      ∃ n args, t.core = .struct n args ∧ env.fieldType? n args field.name = some u := by
  unfold memberType
  split
  next hcore => exact .pure (.inl hcore)
  next n args hcore =>
    split
    next u hu => exact .pure (.inr ⟨n, args, hcore, hu⟩)
    · exact .fault (.pure _)
  · exact .fault (.pure _)

/-- With nothing bound, nothing is replaced. -/
theorem Binding.apply_empty (t : Ty) : ({} : Binding).apply t = t :=
  apply_of_unbound fun _ _ _ _ => rfl

variable {cx : Context}

/-- Without type parameters, every argument has to fit its parameter. -/
theorem passes_checkArgs {params : List Ty} {args : List (Ty × Span)}
    (hlen : params.length = args.length) :
    Passes (checkArgs cx [] {} params args) fun b => b = {} ∧
      List.Forall₂ (fun p a => fits cx.env p a.1 = true) params args := by
  induction params generalizing args with
  | nil =>
    obtain rfl := List.length_eq_zero_iff.mp hlen.symm
    exact .pure ⟨rfl, .nil⟩
  | cons p params ih =>
    obtain ⟨⟨a, span⟩, args, rfl⟩ := List.exists_cons_of_length_eq_add_one hlen.symm
    have hrest := ih (Nat.succ.inj hlen)
    have hplain : checkArgs cx [] {} (p :: params) ((a, span) :: args) = (do
        expectFits cx (({} : Binding).apply p) a span
        checkArgs cx [] {} params args) := by
      cases p <;> rfl
    rw [hplain, Binding.apply_empty]
    refine (Passes.faultIf _ _ _).bind fun _ => hrest.mono fun b hb hfits => ?_
    exact ⟨hb.1, .cons (by simpa using hfits) hb.2⟩

/-- A function without type parameters gives its result, and its arguments fit. -/
theorem passes_callType (callee : Ident) (args : List (Ty × Span)) :
    Passes (callType cx callee args) fun t =>
      ∃ f, cx.env.function? callee.name = some f ∧ (f.typeParams = [] → t = f.result ∧
        List.Forall₂ (fun p a => fits cx.env p a.1 = true) (f.params.map (·.2)) args) := by
  unfold callType
  split
  · exact .fault (.pure _)
  next f hf =>
    split
    · exact .fault (.pure _)
    next hlen =>
      by_cases hparams : f.typeParams = []
      · have hlen : (f.params.map (·.2)).length = args.length := by simpa using hlen
        rw [hparams]
        refine (passes_checkArgs hlen).bind fun b => .pure fun hb => ⟨f, hf, fun _ => ?_⟩
        obtain ⟨rfl, hfits⟩ := hb
        rw [Binding.apply_empty]
        exact ⟨if_neg (by simp), hfits⟩
      · refine (onlyAdds_checkArgs cx _ _ _ _).gives.bind fun b => .pure fun _ => ⟨f, hf, ?_⟩
        exact fun hnone => absurd hnone hparams

/-!
## Arms
-/

/-- What a pattern asks of the type of the scrutinee. -/
def Pattern.Suits (env : Env) (scrutinee : Ty) : Pattern → Prop
  | .literal _ v => scrutinee.accepts (.prim (literalPrim v)) = true ∨
      (Ty.prim (literalPrim v)).accepts scrutinee = true
  | .variant _ type v => fits env scrutinee (.enum type.name) = true ∧
      ∃ info, env.enum? type.name = some info ∧ info.hasVariant v.name = true
  | .satisfies _ test => ∃ info, env.test? test.name = some info
  | .wildcard _ | .binding _ => True

theorem suits_of_checkPattern {scope inside scrutinee} {p : Pattern}
    (h : Gives (checkPattern cx scope scrutinee p) inside) : p.Suits cx.env scrutinee := by
  have hpasses : Passes (checkPattern cx scope scrutinee p) fun _ => p.Suits cx.env scrutinee := by
    cases p with
    | wildcard | binding => exact (onlyAdds_checkPattern cx _ _ _).passes fun _ _ => trivial
    | literal span v =>
      refine (passes_literalType v span).bind fun t => (Passes.faultIf _ _ _).bind fun _ => ?_
      refine .pure fun haccepts ht => ?_
      subst ht
      show _ ∨ _
      simpa [or_iff_not_imp_left] using haccepts
    | variant span type variant =>
      refine (passes_variantType _ _ _ _).bind fun t => (Passes.faultIf _ _ _).bind fun _ => ?_
      refine .pure fun hfits ht => ?_
      obtain ⟨rfl, hinfo⟩ := ht
      exact ⟨by simpa using hfits, hinfo⟩
    | satisfies span test =>
      exact (passes_checkTest _ _).bind fun _ => .pure fun htest => htest
  exact hpasses.result _ h

/-- Once the type of the arms is known, it stays, and all others fit it. -/
theorem passes_joinArms {result : Ty} (hknown : result.isUnknown = false)
    (tys : List (Ty × Span)) :
    Passes (joinArms cx result tys) fun u => u = result ∧
      ∀ t ∈ tys, fits cx.env result t.1 := by
  induction tys with
  | nil => exact .pure ⟨rfl, by simp⟩
  | cons t tys ih =>
    obtain ⟨t, span⟩ := t
    rw [joinArms, hknown, if_neg Bool.false_ne_true]
    refine (Passes.faultIf _ _ _).bind fun _ => ih.mono fun u hu hfits => ⟨hu.1, ?_⟩
    exact List.forall_mem_cons.mpr ⟨by simpa using hfits, hu.2⟩

end Statute
