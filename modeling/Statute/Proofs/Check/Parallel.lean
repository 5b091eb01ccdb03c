import Statute.Check.Program
import Statute.Proofs.Check.Compound

/-!
# Checks side by side

A check reads its report only to see which alias cycles have been reported, and its options only
where a name is shadowed and where a function returns an exclusive enum. So two checks of the same
thing, under options `o` and `o'` and begun with different reports, go through the same steps. If
`R` relates the reports, and still does after each of the few steps that touch them
(`Tolerant R o o'`), the checks give the same result and reports related by `R` (`Parallel R`). This
is proved once here, for each function of the checker; what is known about reports is got by
choosing `R`.
-/

namespace Statute

open Checking

-- theorems that are proved together hand the hypothesis on without using it
set_option linter.unusedSectionVars false

variable {f : Finding}

/-- From related states the computations come to the same result and to related states. -/
def Parallel {σ τ β : Type} (R : σ → τ → Prop) (x : StateM σ β) (y : StateM τ β) : Prop :=
  ∀ s t, R s t → (x.run s).1 = (y.run t).1 ∧ R (x.run s).2 (y.run t).2

/-- The computation keeps related states related. -/
abbrev Respects {σ β : Type} (R : σ → σ → Prop) (x : StateM σ β) : Prop := Parallel R x x

namespace Parallel

variable {σ τ β γ : Type} {R : σ → τ → Prop}

theorem pure (b : β) : Parallel R (pure b) (pure b) := fun _ _ h => ⟨rfl, h⟩

theorem bind {x y} {f : β → StateM σ γ} {g : β → StateM τ γ} (hx : Parallel R x y)
    (hf : ∀ b, Parallel R (f b) (g b)) : Parallel R (x >>= f) (y >>= g) := by
  intro s t h
  obtain ⟨hvalue, hstate⟩ := hx s t h
  have hrest := hf (x.run s).1 _ _ hstate
  rw [hvalue] at hrest
  have hfirst : (x >>= f).run s = (f (x.run s).1).run (x.run s).2 := rfl
  have hsecond : (y >>= g).run t = (g (y.run t).1).run (y.run t).2 := rfl
  rw [hfirst, hsecond, hvalue]
  exact hrest

theorem map {x y} (hx : Parallel R x y) (f : β → γ) :
    Parallel R (x >>= fun b => Pure.pure (f b)) (y >>= fun b => Pure.pure (f b)) :=
  hx.bind fun b => .pure (f b)

/-- A step that is taken only under a condition, which need not be the same for both. -/
theorem guarded {c d : Bool} {x : StateM σ Unit} {y : StateM τ Unit} {f : StateM σ β}
    {g : StateM τ β}
    (hx : Parallel R (if c then x else Pure.pure ()) (if d then y else Pure.pure ()))
    (hf : Parallel R f g) :
    Parallel R (if c then x >>= fun _ => f else f) (if d then y >>= fun _ => g else g) := by
  have hboth := hx.bind fun _ => hf
  cases c <;> cases d <;> exact hboth

end Parallel

/-- The kind is that of ambiguous variants. -/
def FaultKind.isAmbiguity : FaultKind → Bool
  | .ambiguousVariantPath _ => true
  | _ => false

/-- The finding is about ambiguous variants. -/
def Finding.isAmbiguity (f : Finding) : Bool := f.fault.kind.isAmbiguity

/-- The fault is none of those that one check alone reports: ambiguous variants, constants that do
not satisfy their types, and loops of parents. -/
def Fault.isOrdinary : Fault → Bool
  | .outOfBounds _ _ | .constraintViolated _ | .inheritanceCycle _ _ => false
  | f => !f.kind.isAmbiguity

theorem Fault.isAmbiguity_of_isOrdinary {f : Fault} (h : f.isOrdinary) :
    f.kind.isAmbiguity = false := by
  unfold isOrdinary at h
  split at h
  · cases h
  · cases h
  · cases h
  · simpa using h

/-- All of the findings are ordinary ones. -/
def Ordinary (fs : List Finding) : Prop := ∀ f ∈ fs, f.fault.isOrdinary = true

/-- Related reports stay related when the same ordinary errors or the same cycle of aliases are
reported in both. -/
structure Neutral (R : Report → Report → Prop) : Prop where
  faults : ∀ fs, Ordinary fs → Respects R (faults fs)
  cycle : ∀ opened name, Respects R (reportAliasCycle opened name)

/-- The check reads nothing of the report but which cycles of aliases have been reported, and reports
nothing but ordinary errors. -/
def Tame {β : Type} (x : Checking β) : Prop := ∀ ⦃R⦄, Neutral R → Respects R x

/-- Related reports also stay related when the same value is found to be out of bounds in both, and
when each gets what its options ask for. -/
structure Tolerant (R : Report → Report → Prop) (o o' : CheckOptions) : Prop extends Neutral R where
  bounds : ∀ t value, Respects R (Checking.faults (constantFaults t value))
  warn : ∀ f span, Parallel R (if o.shadowing then warn f span else pure ())
    (if o'.shadowing then warn f span else pure ())
  verdicts : ∀ body info, Parallel R
    (if o.exclusivity then Checking.faults (exclusivityFault? body info).toList else pure ())
    (if o'.exclusivity then Checking.faults (exclusivityFault? body info).toList else pure ())

/-- Related reports also stay related when the same loop of parents is reported in both. -/
abbrev ToleratesLoops (R : Report → Report → Prop) : Prop :=
  ∀ name path span, Respects R (fault (.inheritanceCycle name path) span)

/-!
## Errors found elsewhere

The lists of errors that checks put into the report are ordinary, apart from those about constants
and about exclusive enums.
-/

namespace Ordinary

theorem nil : Ordinary [] := fun _ hf => absurd hf List.not_mem_nil

theorem cons {fs} (hf : f.fault.isOrdinary) (hfs : Ordinary fs) : Ordinary (f :: fs) :=
  List.forall_mem_cons.mpr ⟨hf, hfs⟩

theorem append {fs gs} (hfs : Ordinary fs) (hgs : Ordinary gs) : Ordinary (fs ++ gs) :=
  List.forall_mem_append.mpr ⟨hfs, hgs⟩

/-- A finding that is made only under a condition. -/
theorem ite {c : Prop} [Decidable c] (hf : f.fault.isOrdinary) :
    Ordinary (if c then [f] else []) := by
  split
  · exact .cons hf .nil
  · exact .nil

end Ordinary

theorem fault_of_mem_wrapperFaults {t : Ty} {value : Expr} (h : f ∈ wrapperFaults t value) :
    ∃ u, f.fault = .constraintViolated u := by
  have hone {c : Prop} [Decidable c] {u : Ty} {span : Span}
      (hf : f ∈ if c then [⟨.constraintViolated u, span⟩] else []) :
      ∃ u, f.fault = .constraintViolated u := by
    split at hf
    · exact ⟨u, congrArg Finding.fault (List.mem_singleton.mp hf)⟩
    · cases hf
  fun_induction wrapperFaults t value with
  | case1 value inner opens closes ih => exact ih h
  | case2 value inner ih | case3 value inner ih =>
    rcases List.mem_append.mp h with h | h
    · exact ih h
    split at h
    · exact hone h
    · cases h
  | case4 => exact ⟨_, congrArg Finding.fault (List.mem_singleton.mp h)⟩
  | case5 | case6 | case7 | case8 => cases h

/-- A constant violates a constraint or is out of bounds. -/
theorem fault_of_mem_constantFaults {t : Ty} {value : Expr} (h : f ∈ constantFaults t value) :
    (∃ u, f.fault = .constraintViolated u) ∨ ∃ v u, f.fault = .outOfBounds v u := by
  rcases List.mem_append.mp h with hf | hf
  · exact .inl (fault_of_mem_wrapperFaults hf)
  split at hf
  · split at hf
    · grind
    · cases hf
  · cases hf

theorem ordinary_fieldConditionFaults (f : Field) (value : Expr) :
    Ordinary (fieldConditionFaults f value) := by
  unfold fieldConditionFaults
  split
  · split
    · exact .cons rfl .nil
    · exact .nil
  · exact .nil

theorem ordinary_exhaustivenessFault? (place : Span) (arms : List ArmHead) :
    Ordinary (exhaustivenessFault? place arms).toList := by
  unfold exhaustivenessFault?
  split
  · exact .cons rfl .nil
  · exact .nil
  · exact .cons rfl .nil

theorem ordinary_unreachableFrom (seen : List FixedPattern) (afterWildcard : Bool)
    (arms : List ArmHead) : Ordinary (unreachableFrom seen afterWildcard arms) := by
  fun_induction unreachableFrom seen afterWildcard arms with
  | case1 => exact .nil
  | case2 => assumption
  | case3 => exact .cons rfl (by assumption)
  | case4 | case5 => assumption
  | case6 => exact .cons rfl (by assumption)
  | case7 => assumption

theorem ordinary_requirementFaults (test : String) (seen : List String)
    (reqs : List Requirement) : Ordinary (requirementFaults test seen reqs) := by
  induction reqs generalizing seen with
  | nil => exact .nil
  | cons r rest ih =>
    refine ((Ordinary.ite rfl).append ?_).append (ih _)
    split
    · exact .nil
    · exact .cons rfl .nil

section

variable {R : Report → Report → Prop} {o o' : CheckOptions}

theorem Neutral.fault (h : Neutral R) {f : Fault} (hf : f.isOrdinary) (span : Span) :
    Respects R (fault f span) :=
  h.faults [⟨f, span⟩] (.cons hf .nil)

theorem Neutral.faultIf (h : Neutral R) (c : Bool) {f : Fault} (hf : f.isOrdinary)
    (span : Span) : Respects R (faultIf c f span) := by
  unfold Checking.faultIf
  split
  · exact h.fault hf span
  · exact .pure ()

/-- The check for ambiguous verdicts of a function, which is made for exclusive enums only. -/
theorem Tolerant.verdict (h : Tolerant R o o') {x}
    (hx : x = pure () ∨ ∃ body info, x = Checking.faults (exclusivityFault? body info).toList) :
    Parallel R (if o.exclusivity then x else pure ()) (if o'.exclusivity then x else pure ()) := by
  obtain rfl | ⟨body, info, rfl⟩ := hx
  · rw [ite_self, ite_self]
    exact .pure ()
  · exact h.verdicts body info

/-!
## Types
-/

theorem tame_readDate (text : String) (span : Span) :
    Tame (readDate text span) := by
  intro R h
  unfold readDate
  split
  · exact .pure _
  · exact (h.fault rfl _).map _

theorem tame_readDate? (text : Option String) (span : Span) :
    Tame (readDate? text span) := by
  intro R h
  unfold readDate?
  split
  · exact .pure _
  · exact tame_readDate _ span h

theorem parallel_checkWindow (h : Neutral R) (lo hi : Option Date) {f : Date → Date → Fault}
    (hf : ∀ a b, (f a b).isOrdinary) (span : Span) :
    Respects R (checkWindow lo hi f span) := by
  unfold checkWindow
  split
  · exact h.faultIf _ (hf _ _) span
  · exact .pure ()

section Resolve

variable {env : Env} {ambient opened params : List String} {expand : Expansion}

theorem parallel_resolveDeclared (h : Neutral R)
    (hexpand : ∀ name ps target, Respects R (expand name ps target)) (span : Span) (name : Ident)
    (args : List Ty) : Respects R (resolveDeclared env expand opened span name args) := by
  unfold resolveDeclared
  split
  · refine (h.fault ?_ _).map _
    split <;> rfl
  split
  · exact (h.fault rfl _).map _
  split
  · exact .pure _
  · exact .pure _
  split
  · exact (h.cycle opened name).map _
  · exact (hexpand _ _ _).map _

theorem tame_review (t : TypeExpr) (tys : List Ty) :
    Tame (t.review tys) := by
  intro R h
  unfold TypeExpr.review
  split
  · refine (h.faultIf _ rfl _).bind fun _ => ?_
    split
    · exact h.faultIf _ rfl _
    · exact .pure _
  · split
    · exact h.fault rfl _
    · exact .pure _
  · refine (tame_readDate? _ _ h).bind fun lo => (tame_readDate? _ _ h).bind fun hi => ?_
    exact parallel_checkWindow h lo hi (fun _ _ => rfl) _
  · exact h.faultIf _ rfl _
  · exact h.faultIf _ rfl _
  · refine (tame_readDate? _ _ h).bind fun lo => (tame_readDate? _ _ h).bind fun hi => ?_
    exact parallel_checkWindow h lo hi (fun _ _ => rfl) _
  · exact h.faultIf _ rfl _
  · exact .pure _

theorem Parallel.resolveAllWith {ts : List TypeExpr}
    (h : ∀ t ∈ ts, Respects R (resolveWith env ambient expand opened params t)) :
    Respects R (resolveAllWith env ambient expand opened params ts) := by
  induction ts with
  | nil => exact .pure _
  | cons t ts ih =>
    obtain ⟨ht, hts⟩ := List.forall_mem_cons.mp h
    rw [Statute.resolveAllWith]
    exact ht.bind fun u => (ih hts).map _

theorem parallel_resolveWith (h : Neutral R)
    (hexpand : ∀ name ps target, Respects R (expand name ps target))
    (t : TypeExpr) : Respects R (resolveWith env ambient expand opened params t) := by
  induction t using TypeExpr.induction with
  | h t ih =>
    cases t with
    | var span v =>
      rw [resolveWith]
      split
      · exact .pure _
      · exact (h.fault rfl _).map _
    | named span name args =>
      rw [resolveWith]
      split
      · exact .pure _
      split
      · exact .pure _
      · exact (Parallel.resolveAllWith ih).bind fun tys =>
          parallel_resolveDeclared h hexpand span name tys
    | _ =>
      rw [resolveWith_compound rfl]
      exact (Parallel.resolveAllWith ih).bind fun tys => (tame_review _ tys h).map _

theorem parallel_resolveAllWith (h : Neutral R)
    (hexpand : ∀ name ps target, Respects R (expand name ps target))
    (ts : List TypeExpr) : Respects R (resolveAllWith env ambient expand opened params ts) :=
  .resolveAllWith fun t _ => parallel_resolveWith h hexpand t

end Resolve

theorem tame_resolveIn {env ambient} (depth : Nat) (opened params : List String) (t : TypeExpr) :
    Tame (resolveIn env ambient depth opened params t) := by
  intro R h
  induction depth generalizing opened params t with
  | zero => exact parallel_resolveWith h (fun _ _ _ => .pure _) t
  | succ depth ih => exact parallel_resolveWith h (fun name ps target => ih _ ps target) t

/-!
## Expressions
-/

section Expressions

variable {env : Env} {ps : List String}

theorem tame_literalType (v : Literal) (span : Span) : Tame (literalType v span) := by
  intro R h
  unfold literalType
  split
  · exact (tame_readDate _ span h).map _
  · exact .pure _

theorem tame_variantType (type variant : Ident) (span : Span) :
    Tame (variantType env type variant span) := by
  intro R h
  unfold variantType
  split
  · exact (h.fault rfl _).map _
  · exact (h.faultIf _ rfl _).map _

theorem tame_checkTest (test : Ident) : Tame (checkTest env test) :=
  fun _ h => h.faultIf _ rfl _

theorem tame_binaryType (op : BinaryOp) (l r : Ty) (lspan rspan : Span) :
    Tame (binaryType op l r lspan rspan) := by
  intro R h
  unfold binaryType
  split
  · exact (h.faultIf _ rfl _).bind fun _ => (h.faultIf _ rfl _).map _
  split
  · exact (h.faultIf _ rfl _).map _
  split
  · exact .pure _
  split
  · exact (h.fault rfl _).map _
  split
  · exact (h.fault rfl _).map _
  · exact .pure _

theorem tame_unaryType (op : UnaryOp) (t : Ty) (span : Span) :
    Tame (unaryType op t span) := by
  intro R h
  unfold unaryType
  split
  · exact (h.faultIf _ rfl _).map _
  split
  · exact .pure _
  · exact (h.fault rfl _).map _

theorem tame_memberType (t : Ty) (span : Span) (field : Ident) :
    Tame (memberType env t span field) := by
  intro R h
  unfold memberType
  split
  · exact .pure _
  · split
    · exact .pure _
    · exact (h.fault rfl _).map _
  · exact (h.fault rfl _).map _

variable (h : Tolerant R o o')

include h

theorem parallel_bindName (scope : Scope) (name : Ident) (type : Ty) (kind : BindingKind) :
    Parallel R (bindName ⟨env, o, ps⟩ scope name type kind)
      (bindName ⟨env, o', ps⟩ scope name type kind) := by
  unfold bindName
  split
  · exact .pure _
  · exact (h.warn _ _).guarded (.pure _)
  · exact (h.fault rfl _).map _

theorem parallel_expectFits (expected got : Ty) (span : Span) :
    Parallel R (expectFits ⟨env, o, ps⟩ expected got span)
      (expectFits ⟨env, o', ps⟩ expected got span) :=
  h.faultIf _ rfl span

theorem parallel_checkArgs (typeParams : List String) (b : Binding)
    (params : List Ty) (args : List (Ty × Span)) :
    Parallel R (checkArgs ⟨env, o, ps⟩ typeParams b params args)
      (checkArgs ⟨env, o', ps⟩ typeParams b params args) := by
  induction params generalizing b args with
  | nil => exact .pure _
  | cons p params ih =>
    cases args with
    | nil => exact .pure _
    | cons a args =>
      simp only [checkArgs]
      -- which type parameters are bound depends on the arguments alone
      split
      · exact ih _ _
      · exact (parallel_expectFits h _ _ _).bind fun _ => ih _ _

theorem parallel_callType (callee : Ident) (args : List (Ty × Span)) :
    Parallel R (callType ⟨env, o, ps⟩ callee args) (callType ⟨env, o', ps⟩ callee args) := by
  unfold callType
  dsimp only
  split
  · exact (h.fault rfl _).map _
  split
  · exact (h.fault rfl _).map _
  · exact (parallel_checkArgs h _ _ _ _).map _

theorem parallel_checkPattern (scope : Scope) (scrutinee : Ty) (p : Pattern) :
    Parallel R (checkPattern ⟨env, o, ps⟩ scope scrutinee p)
      (checkPattern ⟨env, o', ps⟩ scope scrutinee p) := by
  cases p with
  | wildcard span => exact .pure _
  | literal span v =>
    exact (tame_literalType v span h.toNeutral).bind fun t => (h.faultIf _ rfl _).map _
  | variant span type variant =>
    exact (tame_variantType _ _ _ h.toNeutral).bind fun t => (parallel_expectFits h _ _ _).map _
  | binding name => exact parallel_bindName h scope name scrutinee _
  | satisfies span test => exact (tame_checkTest _ h.toNeutral).map _

theorem parallel_joinArms (result : Ty) (tys : List (Ty × Span)) :
    Parallel R (joinArms ⟨env, o, ps⟩ result tys) (joinArms ⟨env, o', ps⟩ result tys) := by
  induction tys generalizing result with
  | nil => exact .pure _
  | cons a rest ih =>
    rw [joinArms, joinArms]
    split
    · exact ih _
    · exact (parallel_expectFits h _ _ _).bind fun _ => ih _

theorem parallel_fieldBinding (s : RecordShape) (b : Binding) (want got : Ty) (span : Span) :
    Parallel R (fieldBinding ⟨env, o, ps⟩ s b want got span)
      (fieldBinding ⟨env, o', ps⟩ s b want got span) := by
  unfold fieldBinding
  dsimp only
  split
  · exact .pure _
  · exact (parallel_expectFits h _ _ _).map _

mutual

theorem parallel_infer (scope : Scope) (want : Option Ty) (e : Expr) :
    Parallel R (infer ⟨env, o, ps⟩ scope want e) (infer ⟨env, o', ps⟩ scope want e) := by
  cases e with
  | literal span v => exact tame_literalType v span h.toNeutral
  | name span id =>
    rw [infer, infer]
    split
    · exact .pure _
    · exact (h.fault rfl _).map _
  | variant span type variant => exact tame_variantType type variant span h.toNeutral
  | unary span op e =>
    rw [infer, infer]
    exact (parallel_infer scope none e).bind fun t => tame_unaryType op t _ h.toNeutral
  | binary span op l r =>
    rw [infer, infer]
    refine (parallel_infer scope none l).bind fun a => ?_
    refine (parallel_infer scope none r).bind fun b => ?_
    exact tame_binaryType op a b _ _ h.toNeutral
  | member span base field =>
    rw [infer, infer]
    exact (parallel_infer scope none base).bind fun t => tame_memberType t _ field h.toNeutral
  | call span callee args =>
    rw [infer, infer]
    exact (parallel_inferArgs scope args).bind fun tys => parallel_callType h callee tys
  | record span type fields =>
    rw [infer, infer]
    dsimp only
    split
    · exact (h.fault rfl _).bind fun _ => (parallel_inferValues scope fields).map _
    refine (parallel_inferFields scope _ _ [] fields).bind fun r => ?_
    refine (h.faults _ ?_).map _
    exact List.forall_mem_map.mpr fun _ _ => rfl
  | select span place e arms =>
    rw [infer, infer]
    refine (parallel_infer scope none e).bind fun t => ?_
    refine (h.faults _ (ordinary_exhaustivenessFault? _ _)).bind fun _ => ?_
    refine (h.faults _ (ordinary_unreachableFrom _ _ _)).bind fun _ => ?_
    exact (parallel_inferArms scope want t arms).bind fun tys => parallel_joinArms h _ tys
  | satisfies span e test =>
    rw [infer, infer]
    exact (parallel_infer scope none e).bind fun _ => (tame_checkTest test h.toNeutral).map _
  | quantified span q var type body =>
    rw [infer, infer]
    refine (tame_resolveIn _ [] ps type h.toNeutral).bind fun bound => ?_
    refine (parallel_bindName h scope.push var bound _).bind fun inside => ?_
    exact (parallel_infer inside none body).bind fun t => (h.faultIf _ rfl _).map _

theorem parallel_inferArgs (scope : Scope) (es : List Expr) :
    Parallel R (inferArgs ⟨env, o, ps⟩ scope es) (inferArgs ⟨env, o', ps⟩ scope es) := by
  cases es with
  | nil => exact .pure _
  | cons e es =>
    rw [inferArgs, inferArgs]
    exact (parallel_infer scope none e).bind fun t => (parallel_inferArgs scope es).map _

theorem parallel_inferValues (scope : Scope) (fields : List (Ident × Expr)) :
    Parallel R (inferValues ⟨env, o, ps⟩ scope fields)
      (inferValues ⟨env, o', ps⟩ scope fields) := by
  cases fields with
  | nil => exact .pure _
  | cons f fs =>
    obtain ⟨name, e⟩ := f
    rw [inferValues, inferValues]
    exact (parallel_infer scope none e).bind fun _ => parallel_inferValues scope fs

theorem parallel_inferFields (scope : Scope) (s : RecordShape) (b : Binding)
    (given : List String) (fields : List (Ident × Expr)) :
    Parallel R (inferFields ⟨env, o, ps⟩ scope s b given fields)
      (inferFields ⟨env, o', ps⟩ scope s b given fields) := by
  cases fields with
  | nil => exact .pure _
  | cons f fs =>
    obtain ⟨name, e⟩ := f
    rw [inferFields, inferFields]
    split
    · exact (h.fault rfl _).bind fun _ => parallel_inferFields scope s b given fs
    split
    · refine (h.fault rfl _).bind fun _ => (parallel_infer scope none e).bind fun _ => ?_
      exact parallel_inferFields scope s b _ fs
    refine (parallel_infer scope _ e).bind fun got => ?_
    refine (parallel_fieldBinding h s b _ got _).bind fun b' => ?_
    refine (h.bounds _ e).bind fun _ => ?_
    refine (h.faults _ (ordinary_fieldConditionFaults _ e)).bind fun _ => ?_
    exact parallel_inferFields scope s b' _ fs

theorem parallel_inferArms (scope : Scope) (want : Option Ty) (scrutinee : Ty)
    (arms : List (Arm Expr Expr)) :
    Parallel R (inferArms ⟨env, o, ps⟩ scope want scrutinee arms)
      (inferArms ⟨env, o', ps⟩ scope want scrutinee arms) := by
  match arms with
  | [] => exact .pure _
  | ⟨_, p, none, body⟩ :: arms =>
    rw [inferArms, inferArms]
    refine (parallel_checkPattern h _ scrutinee p).bind fun inside => ?_
    exact (parallel_infer inside want body).bind fun t =>
      (parallel_inferArms scope want scrutinee arms).map _
  | ⟨_, p, some g, body⟩ :: arms =>
    rw [inferArms, inferArms]
    refine (parallel_checkPattern h _ scrutinee p).bind fun inside => ?_
    refine (parallel_infer inside none g).bind fun c => (h.faultIf _ rfl _).bind fun _ => ?_
    exact (parallel_infer inside want body).bind fun t =>
      (parallel_inferArms scope want scrutinee arms).map _

end

theorem parallel_expectBool (scope : Scope) (site : ConditionSite) (e : Expr) :
    Parallel R (expectBool ⟨env, o, ps⟩ scope site e) (expectBool ⟨env, o', ps⟩ scope site e) :=
  (parallel_infer h scope none e).bind fun _ => h.faultIf _ rfl _

theorem parallel_expectValue (scope : Scope) (declared : Ty) (e : Expr) :
    Parallel R (expectValue ⟨env, o, ps⟩ scope declared e)
      (expectValue ⟨env, o', ps⟩ scope declared e) := by
  refine (parallel_infer h scope _ e).bind fun got => ?_
  refine (parallel_expectFits h _ got _).bind fun _ => ?_
  exact h.bounds declared e

end Expressions

/-!
## Statements and items
-/

section Bodies

variable {env : Env} {ps : List String} (h : Tolerant R o o')

include h

theorem parallel_checkDeclaration (scope : Scope) (d : Declaration) :
    Parallel R (checkDeclaration ⟨env, o, ps⟩ scope d)
      (checkDeclaration ⟨env, o', ps⟩ scope d) := by
  refine (tame_resolveIn _ [] ps d.type h.toNeutral).bind fun declared => ?_
  exact (parallel_expectValue h scope declared d.value).bind fun _ =>
    parallel_bindName h scope d.name declared _

theorem parallel_checkAssign (scope : Scope) (target : Ident) (value : Expr) :
    Parallel R (checkAssign ⟨env, o, ps⟩ scope target value)
      (checkAssign ⟨env, o', ps⟩ scope target value) := by
  unfold checkAssign
  split
  · exact (h.fault rfl _).bind fun _ => (parallel_infer h scope none value).map _
  · exact parallel_expectValue h scope _ value

mutual

theorem parallel_checkStmt (result : Ty) (scope : Scope) (s : Stmt) :
    Parallel R (checkStmt ⟨env, o, ps⟩ result scope s)
      (checkStmt ⟨env, o', ps⟩ result scope s) := by
  cases s with
  | declare d => exact parallel_checkDeclaration h scope d
  | assign span target value => exact (parallel_checkAssign h scope target value).map _
  | ret span value => exact (parallel_expectValue h scope result value).map _
  | branch span cond yes no =>
    rw [checkStmt, checkStmt]
    refine (parallel_expectBool h scope _ cond).bind fun _ => ?_
    refine (parallel_checkStmts result scope.push yes).bind fun _ => ?_
    cases no with
    | none => exact .pure _
    | some b => exact (parallel_checkStmts result scope.push b).map _
  | select span e arms =>
    rw [checkStmt, checkStmt]
    refine (parallel_infer h scope none e).bind fun t => ?_
    refine (h.faults _ (ordinary_exhaustivenessFault? _ _)).bind fun _ => ?_
    refine (h.faults _ (ordinary_unreachableFrom _ _ _)).bind fun _ => ?_
    exact (parallel_checkArms result scope t arms).map _
  | eval e => exact (parallel_infer h scope none e).map _
  | pass span => exact .pure _

theorem parallel_checkStmts (result : Ty) (scope : Scope) (stmts : List Stmt) :
    Parallel R (checkStmts ⟨env, o, ps⟩ result scope stmts)
      (checkStmts ⟨env, o', ps⟩ result scope stmts) := by
  cases stmts with
  | nil => exact .pure _
  | cons s rest =>
    rw [checkStmts, checkStmts]
    exact (parallel_checkStmt result scope s).bind fun inside =>
      parallel_checkStmts result inside rest

theorem parallel_checkArms (result : Ty) (scope : Scope) (scrutinee : Ty)
    (arms : List (Arm Expr (List Stmt))) :
    Parallel R (checkArms ⟨env, o, ps⟩ result scope scrutinee arms)
      (checkArms ⟨env, o', ps⟩ result scope scrutinee arms) := by
  match arms with
  | [] => exact .pure _
  | ⟨_, p, g, body⟩ :: arms =>
    rw [checkArms, checkArms]
    refine (parallel_checkPattern h _ scrutinee p).bind fun inside => ?_
    have hrest := (parallel_checkStmts result inside.push body).bind fun _ =>
      parallel_checkArms result scope scrutinee arms
    cases g with
    | none => exact hrest
    | some g => exact (parallel_expectBool h inside _ g).bind fun _ => hrest

end

theorem parallel_bindParams (scope : Scope) (params : List (Ident × Ty)) :
    Parallel R (bindParams ⟨env, o, ps⟩ scope params) (bindParams ⟨env, o', ps⟩ scope params) := by
  induction params generalizing scope with
  | nil => exact .pure _
  | cons p rest ih => exact (parallel_bindName h scope _ _ _).bind fun inside => ih inside

theorem parallel_checkFunction (scope : Scope) (f : FunctionDecl) :
    Parallel R (checkFunction ⟨env, o, ps⟩ scope f) (checkFunction ⟨env, o', ps⟩ scope f) := by
  unfold checkFunction
  dsimp only
  split
  · exact .pure _
  split
  · exact .pure _
  refine (parallel_bindParams h scope.push _).bind fun inside => ?_
  refine (parallel_checkStmts h _ inside.push f.body).bind fun _ => ?_
  -- the verdicts of an exclusive enum are looked at last
  refine h.verdict ?_
  split
  · split
    · split
      · exact .inr ⟨_, _, rfl⟩
      · exact .inl rfl
    · exact .inl rfl
  · exact .inl rfl

theorem parallel_checkPrinciple (scope : Scope) (p : Principle) :
    Parallel R (checkPrinciple ⟨env, o, ps⟩ scope p) (checkPrinciple ⟨env, o', ps⟩ scope p) :=
  (parallel_infer h scope.push none p.body).bind fun _ => h.faultIf _ rfl _

mutual

theorem parallel_checkItem (scope : Scope) (i : Item) :
    Parallel R (checkItem ⟨env, o, ps⟩ scope i) (checkItem ⟨env, o', ps⟩ scope i) := by
  cases i with
  | value d => exact parallel_checkDeclaration h scope d
  | function f => exact (parallel_checkFunction h scope f).map _
  | principle p => exact (parallel_checkPrinciple h scope p).map _
  | scope span name items => exact (parallel_checkItems scope.push items).map _
  | struct | enum | synonym | test => exact .pure _

theorem parallel_checkItems (scope : Scope) (items : List Item) :
    Parallel R (checkItems ⟨env, o, ps⟩ scope items) (checkItems ⟨env, o', ps⟩ scope items) := by
  cases items with
  | nil => exact .pure _
  | cons i rest =>
    rw [checkItems, checkItems]
    exact (parallel_checkItem scope i).bind fun inside => parallel_checkItems inside rest

end

end Bodies

/-!
## Rounds
-/

section Rounds

variable {env : Env} {ps : List String}

theorem tame_declareType (d : TypeDef) (span : Span) : Tame (declareType env d span) := by
  intro R h
  unfold declareType
  split
  · exact (h.fault rfl _).map _
  split
  · exact .pure _
  · exact (h.fault rfl _).map _

theorem tame_checkVariants (enum : String) (seen : List String) (variants : List Ident) :
    Tame (checkVariants enum seen variants) := by
  intro R h
  induction variants generalizing seen with
  | nil => exact .pure _
  | cons v rest ih => exact (h.faultIf _ rfl _).bind fun _ => ih _

theorem tame_collectTypes (env : Env) (items : List Item) :
    Tame (collectTypes env items) := by
  intro R h
  induction items generalizing env with
  | nil => exact .pure _
  | cons i items ih =>
    cases i with
    | struct s => exact (tame_declareType _ _ h).bind fun r => (ih r.1).map _
    | enum e =>
      refine (tame_checkVariants _ _ _ h).bind fun _ => ?_
      exact (tame_declareType _ _ h).bind fun r => ih r.1
    | synonym a => exact (tame_declareType _ _ h).bind fun r => ih r.1
    | test | principle | function | value | scope => exact ih env

theorem tame_resolveEach {α β : Type} {params : List String} {type : α → TypeExpr}
    {make : α → Ty → β} (as : List α) : Tame (resolveEach env params type make as) := by
  intro R h
  induction as with
  | nil => exact .pure _
  | cons a as ih => exact (tame_resolveIn _ _ _ _ h).bind fun t => ih.map _

theorem tame_linkParent (s : DeclaredStruct) : Tame (linkParent env s) := by
  intro R h
  unfold linkParent
  split
  · exact .pure _
  split
  · exact (h.fault rfl _).map _
  · exact (h.faultIf _ rfl _).map _

theorem tame_resolveStructs (env : Env) (structs : List DeclaredStruct) :
    Tame (resolveStructs env structs) := by
  intro R h
  induction structs generalizing env with
  | nil => exact .pure _
  | cons s rest ih =>
    rw [resolveStructs, resolveFields_eq]
    refine (tame_resolveEach _ h).bind fun fields => ?_
    exact (tame_linkParent s h).bind fun env' => ih env'

theorem parallel_checkCycles (hloop : ToleratesLoops R) (known : List Nat)
    (structs : List DeclaredStruct) : Respects R (checkCycles env known structs) := by
  fun_induction checkCycles env known structs with
  | case1 => exact .pure _
  | case2 known s rest hloop ih | case3 known s rest id members hloop hknown ih => exact ih
  | case4 known s rest id members _ hknown span ih =>
    exact (hloop _ _ _).bind fun _ => ih

theorem tame_checkOwnFields (struct : String) (owners : List (String × String))
    (fields : List FieldDecl) : Tame (checkOwnFields struct owners fields) := by
  intro R h
  fun_induction checkOwnFields struct owners fields with
  | case1 => exact .pure _
  | case2 owners f rest owner howner ih =>
    refine (h.fault ?_ _).bind fun _ => ih
    split <;> rfl
  | case3 owners f rest howner ih => exact ih

theorem tame_checkParent (s : DeclaredStruct) : Tame (checkParent env s) := by
  intro R h
  unfold checkParent
  split
  · exact .pure _
  · exact (h.faultIf _ rfl _).bind fun _ => tame_checkOwnFields _ _ _ h

theorem parallel_forEachSound {act act' : DeclaredStruct → Checking Unit}
    (hact : ∀ s, Parallel R (act s) (act' s)) (structs : List DeclaredStruct) :
    Parallel R (forEachSound env act structs) (forEachSound env act' structs) := by
  induction structs with
  | nil => exact .pure _
  | cons s rest ih =>
    rw [forEachSound, forEachSound]
    split
    · exact ih
    · exact (hact s).bind fun _ => ih

theorem tame_collectTest (d : TestDecl) : Tame (collectTest env d) := by
  intro R h
  rw [collectTest, resolveRequirements_eq]
  refine (tame_resolveEach _ h).bind fun reqs => ?_
  refine (h.faults _ (ordinary_requirementFaults _ _ _)).bind fun _ => ?_
  split
  · exact .pure _
  · exact (h.fault rfl _).map _

theorem tame_collectFunction (d : FunctionDecl) : Tame (collectFunction env d) := by
  intro R h
  simp only [collectFunction, resolveParams_eq]
  refine (tame_resolveEach _ h).bind fun params => ?_
  refine (tame_resolveIn _ _ _ _ h).bind fun result => ?_
  split
  · exact .pure _
  · exact (h.fault rfl _).map _

theorem tame_collectSignatures (env : Env) (items : List Item) :
    Tame (collectSignatures env items) := by
  intro R h
  induction items generalizing env with
  | nil => exact .pure _
  | cons i items ih =>
    cases i with
    | test d => exact (tame_collectTest d h).bind fun env' => ih env'
    | function d => exact (tame_collectFunction d h).bind fun env' => ih env'
    | synonym d => exact ((tame_resolveIn _ _ _ _ h).map _).bind fun _ => ih env
    | struct | enum | principle | value | scope => exact ih env

variable (h : Tolerant R o o')

include h

theorem parallel_checkCondition (f : FieldDecl) (t : Ty) :
    Parallel R (checkCondition ⟨env, o, ps⟩ f t) (checkCondition ⟨env, o', ps⟩ f t) := by
  unfold checkCondition
  split
  · exact .pure _
  split
  · exact h.fault rfl _
  · refine (parallel_bindName h _ _ _ _).bind fun inside => ?_
    exact (parallel_infer h inside none _).bind fun got => h.faultIf _ rfl _

theorem parallel_checkConditions (fields : List FieldDecl) (types : List Ty) :
    Parallel R (checkConditions ⟨env, o, ps⟩ fields types)
      (checkConditions ⟨env, o', ps⟩ fields types) := by
  induction fields generalizing types with
  | nil => exact .pure _
  | cons f fs ih =>
    cases types with
    | nil => exact .pure _
    | cons t ts => exact (parallel_checkCondition h f t).bind fun _ => ih ts

theorem parallel_checkInheritance (hloop : ToleratesLoops R) (structs : List DeclaredStruct) :
    Parallel R (checkInheritance ⟨env, o, ps⟩ structs)
      (checkInheritance ⟨env, o', ps⟩ structs) := by
  refine (parallel_checkCycles hloop _ _).bind fun _ => ?_
  refine (parallel_forEachSound (fun s => tame_checkParent s h.toNeutral) structs).bind fun _ => ?_
  exact parallel_forEachSound (fun s => parallel_checkConditions h _ _) structs

/-- Checking a whole program under both options keeps reports related. -/
theorem parallel_checkAll (hloop : ToleratesLoops R) (p : Program) :
    Parallel R (checkAll o p) (checkAll o' p) := by
  refine (tame_collectTypes {} p.leaves h.toNeutral).bind fun r => ?_
  refine (tame_resolveStructs r.1 r.2 h.toNeutral).bind fun typed => ?_
  refine (parallel_checkInheritance h hloop r.2).bind fun _ => ?_
  refine (tame_collectSignatures typed p.leaves h.toNeutral).bind fun env => ?_
  exact (parallel_checkItems h {} p.items).map _

end Rounds

end

end Statute
