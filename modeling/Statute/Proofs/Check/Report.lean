import Statute.Proofs.Check.Parallel

/-!
# Reports only grow

No check takes back what has been reported: findings are added at the end, and so are the aliases on
cycles. So where nothing is reported in the end, nothing was reported on the way, and each step of a
check can be taken to have gone well. `Gives x b` says that the check `x` can come out as `b` with
nothing reported, and `Passes x Q` that whenever it does, `b` satisfies `Q`.

Nor has what is reported any influence on what a check gives, so that it has a `Checking.value`. An
alias is noted as cyclic only together with an error: where a check `GoesThrough`, having started
with no alias noted, none is noted in the end. `Settles x P Q` says that the value of `x` satisfies
`P`, and `Q` if `x` goes through.
-/

namespace Statute

open Checking List

variable {β : Type}

/-- The second report begins with what the first one holds, and notes further aliases on cycles only
if it has further errors. -/
structure Report.Le (r r' : Report) : Prop where
  errors : r.errors <+: r'.errors
  warnings : r.warnings <+: r'.warnings
  cyclic : r.cyclic <+: r'.cyclic
  noted : r'.errors = r.errors → r'.cyclic = r.cyclic

namespace Report.Le

theorem refl (r : Report) : r.Le r :=
  ⟨prefix_refl _, prefix_refl _, prefix_refl _, fun _ => rfl⟩

theorem trans {r r' r'' : Report} (h : r.Le r') (h' : r'.Le r'') : r.Le r'' := by
  refine ⟨h.errors.trans h'.errors, h.warnings.trans h'.warnings, h.cyclic.trans h'.cyclic, ?_⟩
  intro hsame
  -- the errors in between can be neither fewer nor more
  have hmiddle : r'.errors = r.errors := by
    refine (h.errors.eq_of_length_le ?_).symm
    rw [← hsame]
    exact h'.errors.length_le
  rw [h'.noted (hsame.trans hmiddle.symm), h.noted hmiddle]

end Report.Le

/-- What the check gives. -/
def Checking.value {β : Type} (x : Checking β) : β := (x.run {}).1

/-- The check only adds to the report: whatever has been reported before is still reported after it,
and has no influence on what it gives. -/
structure OnlyAdds {β : Type} (x : Checking β) : Prop where
  grows : ∀ r : Report, r.Le (x.run r).2
  steady : ∀ r r' : Report, (x.run r).1 = (x.run r').1

variable {x : Checking β} {r : Report}

namespace OnlyAdds

variable {β γ : Type}

theorem pure (b : β) : OnlyAdds (pure b) := ⟨fun r => .refl r, fun _ _ => rfl⟩

section

variable {x : Checking β} (hx : OnlyAdds x)

include hx

theorem run_eq_value (r : Report) : (x.run r).1 = x.value :=
  hx.steady r {}

theorem run_bind (f : β → Checking γ) (r : Report) :
    (x >>= f).run r = (f x.value).run (x.run r).2 := by
  rw [← hx.run_eq_value r]
  rfl

/-- Only what the first step gives matters to the second. -/
theorem bind_value {f : β → Checking γ} (hf : OnlyAdds (f x.value)) : OnlyAdds (x >>= f) := by
  refine ⟨fun r => ?_, fun r r' => ?_⟩
  · rw [hx.run_bind f r]
    exact (hx.grows r).trans (hf.grows _)
  · rw [hx.run_bind f r, hx.run_bind f r']
    exact hf.steady _ _

theorem bind {f : β → Checking γ} (hf : ∀ b, OnlyAdds (f b)) : OnlyAdds (x >>= f) :=
  hx.bind_value (hf _)

/-- A last step that reports nothing. -/
theorem map (f : β → γ) : OnlyAdds (x >>= fun b => Pure.pure (f b)) :=
  hx.bind fun b => .pure (f b)

end

/-- A check without result. -/
theorem unit {x : Checking Unit} (hx : ∀ r : Report, r.Le (x.run r).2) : OnlyAdds x :=
  ⟨hx, fun _ _ => rfl⟩

theorem fault (f : Fault) (span : Span) : OnlyAdds (fault f span) :=
  .unit fun _ => ⟨prefix_append _ _, prefix_refl _, prefix_refl _, fun _ => rfl⟩

theorem faults (fs : List Finding) : OnlyAdds (faults fs) :=
  .unit fun _ => ⟨prefix_append _ _, prefix_refl _, prefix_refl _, fun _ => rfl⟩

theorem warn (f : Fault) (span : Span) : OnlyAdds (warn f span) :=
  .unit fun _ => ⟨prefix_refl _, prefix_append _ _, prefix_refl _, fun _ => rfl⟩

theorem faultIf (c : Bool) (f : Fault) (span : Span) : OnlyAdds (faultIf c f span) := by
  unfold Checking.faultIf
  split
  · exact .fault f span
  · exact .pure ()

/-- Where nothing is reported in the end, nothing was reported before. -/
theorem quiet (hx : OnlyAdds x) (hr : (x.run r).2.errors = []) : r.errors = [] := by
  have hprefix := (hx.grows r).errors
  rw [hr] at hprefix
  exact prefix_nil.mp hprefix

/-- Where nothing is reported in the end, no alias was noted either. -/
theorem unnoted (hx : OnlyAdds x) (hr : (x.run r).2.errors = []) : (x.run r).2.cyclic = r.cyclic :=
  (hx.grows r).noted (hr.trans (hx.quiet hr).symm)

end OnlyAdds

/-- The check can come out as `b` with nothing reported in the end. -/
def Gives {β : Type} (x : Checking β) (b : β) : Prop :=
  ∃ r : Report, (x.run r).1 = b ∧ (x.run r).2.errors = []

theorem Gives.unique {a b : β} (hx : OnlyAdds x) (ha : Gives x a) (hb : Gives x b) : a = b := by
  obtain ⟨r, rfl, -⟩ := ha
  obtain ⟨r', rfl, -⟩ := hb
  exact hx.steady r r'

/-- Where nothing is reported in the end, nothing was reported by the first step. -/
theorem Gives.of_bind {γ : Type} {f : β → Checking γ} {c : γ} (h : Gives (x >>= f) c)
    (hf : ∀ b, OnlyAdds (f b)) : ∃ b, Gives x b ∧ Gives (f b) c := by
  obtain ⟨r, rfl, hr⟩ := h
  exact ⟨(x.run r).1, ⟨r, rfl, (hf _).quiet hr⟩, ⟨(x.run r).2, rfl, hr⟩⟩

/-- The check only adds to the report, and whatever it gives satisfies `Q`. -/
structure Passes {β : Type} (x : Checking β) (Q : β → Prop) : Prop where
  onlyAdds : OnlyAdds x
  result : ∀ b, Gives x b → Q b

namespace Passes

variable {β γ : Type} {x : Checking β} {P Q : β → Prop}

theorem pure {b : β} (h : Q b) : Passes (pure b) Q :=
  ⟨.pure b, fun _ ⟨_, hb, _⟩ => hb ▸ h⟩

theorem bind {f : β → Checking γ} {Q : γ → Prop} (hx : Passes x P)
    (hf : ∀ b, Passes (f b) fun c => P b → Q c) : Passes (x >>= f) Q := by
  refine ⟨hx.onlyAdds.bind fun b => (hf b).onlyAdds, fun c hc => ?_⟩
  obtain ⟨b, hb, hc⟩ := hc.of_bind fun b => (hf b).onlyAdds
  exact (hf b).result c hc (hx.result b hb)

theorem mono (h : Passes x P) (hPQ : ∀ b, P b → Q b) : Passes x Q :=
  ⟨h.onlyAdds, fun b hb => hPQ b (h.result b hb)⟩

theorem gives (h : Passes x Q) : Passes x fun b => Gives x b ∧ Q b :=
  ⟨h.onlyAdds, fun b hb => ⟨hb, h.result b hb⟩⟩

/-- An error is there in the end, whatever comes after it. -/
theorem fault {f span} {g : Unit → Checking β} (hg : OnlyAdds (g ())) :
    Passes (fault f span >>= g) Q := by
  refine ⟨(OnlyAdds.fault f span).bind fun _ => hg, fun b ⟨r, _, hr⟩ => ?_⟩
  have hquiet : ((Checking.fault f span).run r).2.errors = [] := hg.quiet hr
  exact absurd (append_eq_nil_iff.mp hquiet).2 (by simp)

theorem faults (fs : List Finding) : Passes (faults fs) fun _ => fs = [] :=
  ⟨.faults fs, fun _ ⟨_, _, hr⟩ => (append_eq_nil_iff.mp hr).2⟩

theorem faultIf (c : Bool) (f : Fault) (span : Span) :
    Passes (faultIf c f span) fun _ => c = false := by
  unfold Checking.faultIf
  split
  · exact .fault (g := Pure.pure) (.pure ())
  next hc => exact .pure (by simpa using hc)

end Passes

/-- A check about which no more is known than what it gives. -/
theorem OnlyAdds.passes {Q : β → Prop} (h : OnlyAdds x) (hQ : ∀ b, Gives x b → Q b) : Passes x Q :=
  ⟨h, hQ⟩

theorem OnlyAdds.gives (h : OnlyAdds x) : Passes x (Gives x) :=
  h.passes fun _ hb => hb

theorem OnlyAdds.value_bind {γ : Type} {f : β → Checking γ} (hf : OnlyAdds (f x.value)) :
    (x >>= f).value = (f x.value).value :=
  hf.run_eq_value _

/-- The check, begun with no alias noted as cyclic, can end with nothing reported. -/
def GoesThrough {β : Type} (x : Checking β) : Prop :=
  ∃ r : Report, r.cyclic = [] ∧ (x.run r).2.errors = []

namespace GoesThrough

variable {β γ : Type} {x : Checking β}

/-- The second step starts with no alias noted, as nothing was reported by the first. -/
theorem bind {f : β → Checking γ} (h : GoesThrough (x >>= f)) (hx : OnlyAdds x)
    (hf : OnlyAdds (f x.value)) : GoesThrough x ∧ GoesThrough (f x.value) := by
  obtain ⟨r, hcyclic, hr⟩ := h
  rw [hx.run_bind f r] at hr
  have hfirst : (x.run r).2.errors = [] := hf.quiet hr
  have hunnoted : (x.run r).2.cyclic = [] := (hx.unnoted hfirst).trans hcyclic
  exact ⟨⟨r, hcyclic, hfirst⟩, ⟨_, hunnoted, hr⟩⟩

theorem result {Q : β → Prop} (h : GoesThrough x) (hx : Passes x Q) : Q x.value := by
  obtain ⟨r, -, hr⟩ := h
  exact hx.result _ ⟨r, hx.onlyAdds.run_eq_value r, hr⟩

end GoesThrough

/-- The check only adds to the report, and what it gives satisfies `P`, and `Q` if it goes
through. -/
structure Settles {β : Type} (x : Checking β) (P Q : β → Prop) : Prop where
  onlyAdds : OnlyAdds x
  always : P x.value
  through : GoesThrough x → Q x.value

namespace Settles

variable {β γ : Type} {x : Checking β} {P Q : β → Prop}

theorem pure {b : β} (hP : P b) (hQ : Q b) : Settles (pure b) P Q :=
  ⟨.pure b, hP, fun _ => hQ⟩

theorem bind {f : β → Checking γ} {P' Q' : γ → Prop} (hx : Settles x P Q)
    (hf : ∀ b, P b → Settles (f b) P' fun c => Q b → Q' c) : Settles (x >>= f) P' Q' := by
  have hlast := hf x.value hx.always
  refine ⟨hx.onlyAdds.bind_value hlast.onlyAdds, ?_, fun h => ?_⟩
  · rw [hlast.onlyAdds.value_bind]
    exact hlast.always
  obtain ⟨hfirst, hrest⟩ := h.bind hx.onlyAdds hlast.onlyAdds
  rw [hlast.onlyAdds.value_bind]
  exact hlast.through hrest (hx.through hfirst)

theorem mono {P' Q' : β → Prop} (h : Settles x P Q) (hP : ∀ b, P b → P' b)
    (hQ : ∀ b, Q b → Q' b) : Settles x P' Q' :=
  ⟨h.onlyAdds, hP _ h.always, fun hx => hQ _ (h.through hx)⟩

/-- What holds always holds if the check goes through. -/
theorem both (h : Settles x P Q) : Settles x P fun b => P b ∧ Q b :=
  ⟨h.onlyAdds, h.always, fun hx => ⟨h.always, h.through hx⟩⟩

/-- A check with an error does not go through. -/
theorem fault {f span b} (hP : P b) : Settles (fault f span >>= fun _ => Pure.pure b) P Q := by
  have hadds : OnlyAdds (Pure.pure b : Checking β) := .pure b
  exact ⟨(OnlyAdds.fault f span).map _, hP, fun h => h.result (.fault hadds)⟩

end Settles

theorem Passes.settles {Q : β → Prop} (h : Passes x Q) : Settles x (fun _ => True) Q :=
  ⟨h.onlyAdds, trivial, fun hx => hx.result h⟩

theorem OnlyAdds.settles (h : OnlyAdds x) : Settles x (fun _ => True) fun _ => True :=
  ⟨h, trivial, fun _ => trivial⟩

/-- A check about which no more is known than its value and whether it goes through. -/
theorem OnlyAdds.through (h : OnlyAdds x) :
    Settles x (fun b => b = x.value) fun _ => GoesThrough x :=
  ⟨h, rfl, id⟩

/-!
## Checks run side by side

To say that a check only adds is to say that two runs of it give the same and that each has grown
over the report it began with.
-/

/-- The reports have grown over `r₀` and `r₀'`. -/
def Grown (r₀ r₀' r r' : Report) : Prop := r₀.Le r ∧ r₀'.Le r'

theorem onlyAdds_iff : OnlyAdds x ↔ ∀ r₀ r₀', Parallel (Grown r₀ r₀') x x := by
  constructor
  · intro hx r₀ r₀' r r' h
    exact ⟨hx.steady r r', h.1.trans (hx.grows r), h.2.trans (hx.grows r')⟩
  intro hx
  refine ⟨fun r => ?_, fun r r' => ?_⟩
  · exact (hx r r r r ⟨.refl r, .refl r⟩).2.1
  · exact (hx r r' r r' ⟨.refl r, .refl r'⟩).1

theorem onlyAdds_reportAliasCycle (opened : List String) (name : Ident) :
    OnlyAdds (reportAliasCycle opened name) := by
  refine .unit fun r => ?_
  show r.Le ((if r.cyclic.contains name.name then Pure.pure () else _ : Checking Unit).run r).2
  split
  · exact .refl r
  · refine ⟨prefix_append _ _, prefix_refl _, prefix_append _ _, ?_⟩
    exact fun h => absurd (append_right_eq_self.mp h) (by simp)

theorem tolerant_grown (o : CheckOptions) (r₀ r₀' : Report) : Tolerant (Grown r₀ r₀') o o where
  faults fs _ := onlyAdds_iff.mp (.faults fs) r₀ r₀'
  cycle opened name := onlyAdds_iff.mp (onlyAdds_reportAliasCycle opened name) r₀ r₀'
  bounds t value := onlyAdds_iff.mp (.faults _) r₀ r₀'
  warn f span := by
    split
    · exact onlyAdds_iff.mp (.warn f span) r₀ r₀'
    · exact .pure ()
  verdicts body info := by
    split
    · exact onlyAdds_iff.mp (.faults _) r₀ r₀'
    · exact .pure ()

variable {q : Finding → Bool}

theorem parallel_filter {gs} (hgs : ∀ f ∈ gs, q f = false) (fs : List Finding) :
    Parallel (fun r _ : Report => r.errors.filter q = fs) (faults gs) (faults gs) := by
  have hnone : gs.filter q = [] := filter_eq_nil_iff.mpr fun f hf => by simp [hgs f hf]
  rintro r _ rfl
  refine ⟨rfl, (filter_append ..).trans ?_⟩
  rw [hnone, append_nil]

/-- Ordinary errors leave errors of other kinds as they are. -/
theorem neutral_filter (hq : ∀ f : Finding, f.fault.isOrdinary → q f = false)
    (fs : List Finding) : Neutral fun r _ : Report => r.errors.filter q = fs := by
  refine ⟨fun gs hgs => parallel_filter (fun f hf => hq f (hgs f hf)) fs,
    fun opened name r r' h => ⟨rfl, ?_⟩⟩
  show ((if r.cyclic.contains name.name then Pure.pure () else _ : Checking Unit).run
    r).2.errors.filter q = fs
  split
  · exact h
  · refine (@parallel_filter q [⟨_, name.span⟩] ?_ fs { r with cyclic := _ } r' h).2
    exact forall_mem_singleton.mpr (hq _ rfl)

/-- To the errors with the property, the check adds exactly these. -/
def Finds (q : Finding → Bool) {β : Type} (x : Checking β) (fs : List Finding) : Prop :=
  ∀ r : Report, (x.run r).2.errors.filter q = r.errors.filter q ++ fs

namespace Finds

variable {q : Finding → Bool} {β γ : Type} {x : Checking β} {f : β → Checking γ}
  {fs : List Finding}

theorem of_parallel (hx : ∀ fs, Parallel (fun r _ : Report => r.errors.filter q = fs) x x) :
    Finds q x [] :=
  fun r => (hx _ r r rfl).2.trans (append_nil _).symm

theorem pure (b : β) : Finds q (pure b) [] := fun _ => (append_nil _).symm

/-- The second step finds nothing, whatever the first gives. -/
theorem bind (hx : Finds q x fs) (hf : ∀ b, Finds q (f b) []) : Finds q (x >>= f) fs := by
  intro r
  show ((f (x.run r).1).run (x.run r).2).2.errors.filter q = _
  rw [hf, hx, append_nil]

/-- The first step finds nothing, and only what it gives matters to the second. -/
theorem bind_value (hx : Finds q x []) (hadds : OnlyAdds x) (hf : Finds q (f x.value) fs) :
    Finds q (x >>= f) fs := by
  intro r
  rw [hadds.run_bind f r, hf, hx, append_nil]

theorem map (hx : Finds q x fs) (g : β → γ) : Finds q (x >>= fun b => Pure.pure (g b)) fs :=
  hx.bind fun b => .pure (g b)

theorem faults (fs : List Finding) : Finds q (faults fs) (fs.filter q) :=
  fun _ => filter_append ..

theorem faults_of_forall (h : ∀ f ∈ fs, q f) : Finds q (Checking.faults fs) fs := by
  have hfaults := Finds.faults (q := q) fs
  rwa [filter_eq_self.mpr h] at hfaults

end Finds

/-- A check that takes the same steps whatever the report only adds to it. -/
theorem OnlyAdds.of_parallel {o} (hx : ∀ R, Tolerant R o o → Parallel R x x) : OnlyAdds x :=
  onlyAdds_iff.mpr fun r₀ r₀' => hx _ (tolerant_grown o r₀ r₀')

/-!
## Types
-/

theorem Tame.onlyAdds (h : Tame x) : OnlyAdds x :=
  .of_parallel (o := {}) fun _ hR => h hR.toNeutral

section Resolve

variable {env : Env} {ambient opened params : List String} {expand : Expansion}

theorem onlyAdds_resolveDeclared (hexpand : ∀ name ps target, OnlyAdds (expand name ps target))
    (span : Span) (name : Ident) (args : List Ty) :
    OnlyAdds (resolveDeclared env expand opened span name args) :=
  onlyAdds_iff.mpr fun r₀ r₀' => parallel_resolveDeclared (tolerant_grown {} r₀ r₀').toNeutral
    (fun name ps target => onlyAdds_iff.mp (hexpand name ps target) r₀ r₀') span name args

theorem onlyAdds_resolveWith (hexpand : ∀ name ps target, OnlyAdds (expand name ps target))
    (t : TypeExpr) : OnlyAdds (resolveWith env ambient expand opened params t) :=
  onlyAdds_iff.mpr fun r₀ r₀' => parallel_resolveWith (tolerant_grown {} r₀ r₀').toNeutral
    (fun name ps target => onlyAdds_iff.mp (hexpand name ps target) r₀ r₀') t

theorem onlyAdds_resolveAllWith (hexpand : ∀ name ps target, OnlyAdds (expand name ps target))
    (ts : List TypeExpr) : OnlyAdds (resolveAllWith env ambient expand opened params ts) :=
  onlyAdds_iff.mpr fun r₀ r₀' => parallel_resolveAllWith (tolerant_grown {} r₀ r₀').toNeutral
    (fun name ps target => onlyAdds_iff.mp (hexpand name ps target) r₀ r₀') ts

end Resolve

theorem onlyAdds_resolve (cx : Context) (t : TypeExpr) : OnlyAdds (cx.resolve t) :=
  (tame_resolveIn _ [] _ t).onlyAdds

/-!
## Expressions
-/

section Expressions

variable (cx : Context)

theorem onlyAdds_bindName (scope : Scope) (name : Ident) (type : Ty) (kind : BindingKind) :
    OnlyAdds (bindName cx scope name type kind) :=
  .of_parallel fun _ h => parallel_bindName h scope name type kind

theorem onlyAdds_expectFits (expected got : Ty) (span : Span) :
    OnlyAdds (expectFits cx expected got span) :=
  .faultIf _ _ span

theorem onlyAdds_checkArgs (typeParams : List String) (b : Binding) (params : List Ty)
    (args : List (Ty × Span)) : OnlyAdds (checkArgs cx typeParams b params args) :=
  .of_parallel fun _ h => parallel_checkArgs h typeParams b params args

theorem onlyAdds_callType (callee : Ident) (args : List (Ty × Span)) :
    OnlyAdds (callType cx callee args) :=
  .of_parallel fun _ h => parallel_callType h callee args

theorem onlyAdds_checkPattern (scope : Scope) (scrutinee : Ty) (p : Pattern) :
    OnlyAdds (checkPattern cx scope scrutinee p) :=
  .of_parallel fun _ h => parallel_checkPattern h scope scrutinee p

theorem onlyAdds_joinArms (result : Ty) (tys : List (Ty × Span)) :
    OnlyAdds (joinArms cx result tys) :=
  .of_parallel fun _ h => parallel_joinArms h result tys

theorem onlyAdds_fieldBinding (s : RecordShape) (b : Binding) (want got : Ty) (span : Span) :
    OnlyAdds (fieldBinding cx s b want got span) :=
  .of_parallel fun _ h => parallel_fieldBinding h s b want got span

theorem onlyAdds_inferValues (scope : Scope) (fields : List (Ident × Expr)) :
    OnlyAdds (inferValues cx scope fields) :=
  .of_parallel fun _ h => parallel_inferValues h scope fields

end Expressions

end Statute
