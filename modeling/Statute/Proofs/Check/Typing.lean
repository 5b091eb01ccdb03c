import Statute.Proofs.Check.Report
import Statute.Proofs.Program.Meaning

/-!
# The rules of type inference

`Typed cx scope want e t` says by rules that the expression `e` has the type `t` in a scope. The
rules are those that inference follows as long as nothing is reported, `passes_infer`: no report
appears in them, and what follows from a check that went well is an induction over the rules. For
instance, every name that an expression reads is in scope, `Typed.found`.
-/

namespace Statute

open Checking List

mutual

/-- The type of an expression in a scope, where `want` is the type asked for. -/
inductive Typed (cx : Context) : Scope → Option Ty → Expr → Ty → Prop where
  | literal {scope want span v t} (ht : Gives (literalType v span) t) :
      Typed cx scope want (.literal span v) t
  | name {scope want span id b} (hb : scope.lookup id.name = some b) :
      Typed cx scope want (.name span id) b.type
  | variant {scope want span type variant t} (ht : Gives (variantType cx.env type variant span) t) :
      Typed cx scope want (.variant span type variant) t
  | unary {scope want span op e t u} (he : Typed cx scope none e t)
      (hu : Gives (unaryType op t e.span) u) : Typed cx scope want (.unary span op e) u
  | binary {scope want span op l r a b t} (hl : Typed cx scope none l a)
      (hr : Typed cx scope none r b) (ht : Gives (binaryType op a b l.span r.span) t) :
      Typed cx scope want (.binary span op l r) t
  | member {scope want span base field t u} (hbase : Typed cx scope none base t)
      (hu : Gives (memberType cx.env t base.span field) u) :
      Typed cx scope want (.member span base field) u
  | call {scope want span callee args tys t} (hargs : TypedEach cx scope args tys)
      (ht : Gives (callType cx callee tys) t) : Typed cx scope want (.call span callee args) t
  | record {scope want span type shape fields b given}
      (hshape : recordShape? cx.env type.name = some shape)
      (hfields : TypedFields cx scope shape (shape.expectedBinding want) [] fields b given)
      (hmissing : shape.missing given = []) :
      Typed cx scope want (.record span type fields) (shape.type b)
  | select {scope want span place e t arms tys u} (he : Typed cx scope none e t)
      (hexhaustive : exhaustivenessFault? place (arms.map Arm.head) = none)
      (hreachable : unreachableArms (arms.map Arm.head) = [])
      (harms : TypedArms cx scope want t arms tys) (hu : Gives (joinArms cx .unknown tys) u) :
      Typed cx scope want (.select span place e arms) u
  | satisfies {scope want span e t test} (he : Typed cx scope none e t)
      (htest : Gives (checkTest cx.env test) ()) :
      Typed cx scope want (.satisfies span e test) .bool
  | quantified {scope want span q var type bound inside body t}
      (hbound : Gives (cx.resolve type) bound)
      (hinside : Gives (bindName cx scope.push var bound .quantified) inside)
      (hbody : Typed cx inside none body t) (hbool : t.isBool = true) :
      Typed cx scope want (.quantified span q var type body) .bool

/-- The types and places of arguments. -/
inductive TypedEach (cx : Context) : Scope → List Expr → List (Ty × Span) → Prop where
  | nil {scope} : TypedEach cx scope [] []
  | cons {scope e t es tys} (he : Typed cx scope none e t) (hes : TypedEach cx scope es tys) :
      TypedEach cx scope (e :: es) ((t, e.span) :: tys)

/-- The fields of a struct literal. The bindings are the types of parameters found before and after,
the lists of names those of the fields given before and after. -/
inductive TypedFields (cx : Context) : Scope → RecordShape → Binding → List String →
    List (Ident × Expr) → Binding → List String → Prop where
  | nil {scope s b given} : TypedFields cx scope s b given [] b given
  | cons {scope s b b₁ b₂ given given' name e f got fs} (hnew : name.name ∉ given)
      (hf : s.field? name.name = some f) (he : Typed cx scope (some (b.apply f.type)) e got)
      (hb : Gives (fieldBinding cx s b (b.apply f.type) got e.span) b₁)
      (hconstant : constantFaults (b.apply f.type) e = [])
      (hcondition : fieldConditionFaults f e = [])
      (hfs : TypedFields cx scope s b₁ (given ++ [name.name]) fs b₂ given') :
      TypedFields cx scope s b given ((name, e) :: fs) b₂ given'

/-- The types and places of the bodies of arms. -/
inductive TypedArms (cx : Context) : Scope → Option Ty → Ty → List (Arm Expr Expr) →
    List (Ty × Span) → Prop where
  | nil {scope want s} : TypedArms cx scope want s [] []
  | plain {scope want s span p body inside t arms tys}
      (hp : Gives (checkPattern cx scope.push s p) inside) (hbody : Typed cx inside want body t)
      (harms : TypedArms cx scope want s arms tys) :
      TypedArms cx scope want s (⟨span, p, none, body⟩ :: arms) ((t, body.span) :: tys)
  | guarded {scope want s span p g body inside c t arms tys}
      (hp : Gives (checkPattern cx scope.push s p) inside) (hg : Typed cx inside none g c)
      (hbool : c.isBool = true) (hbody : Typed cx inside want body t)
      (harms : TypedArms cx scope want s arms tys) :
      TypedArms cx scope want s (⟨span, p, some g, body⟩ :: arms) ((t, body.span) :: tys)

end

/-!
## Inference follows the rules
-/

section Inference

variable (cx : Context)

mutual

/-- What inference gives is the type by the rules. -/
theorem passes_infer (scope : Scope) (want : Option Ty) (e : Expr) :
    Passes (infer cx scope want e) (Typed cx scope want e) := by
  cases e with
  | literal span v => exact (tame_literalType v span).onlyAdds.passes fun t ht => .literal ht
  | name span id =>
    rw [infer]
    split
    next b hb => exact .pure (.name hb)
    · exact .fault (.pure _)
  | variant span type variant =>
    exact (tame_variantType _ _ _).onlyAdds.passes fun t ht => .variant ht
  | unary span op e =>
    rw [infer]
    refine (passes_infer scope none e).bind fun t => ?_
    exact (tame_unaryType op t _).onlyAdds.passes fun u hu he => .unary he hu
  | binary span op l r =>
    rw [infer]
    refine (passes_infer scope none l).bind fun a => (passes_infer scope none r).bind fun b => ?_
    exact (tame_binaryType op a b _ _).onlyAdds.passes fun t ht hr hl => .binary hl hr ht
  | member span base field =>
    rw [infer]
    refine (passes_infer scope none base).bind fun t => ?_
    exact (tame_memberType t _ field).onlyAdds.passes fun u hu hbase => .member hbase hu
  | call span callee args =>
    rw [infer]
    refine (passes_inferArgs scope args).bind fun tys => ?_
    exact (onlyAdds_callType cx callee tys).passes fun t ht hargs => .call hargs ht
  | record span type fields =>
    rw [infer]
    split
    -- the values for an unknown struct are gone through, but the error is there already
    · exact .fault ((onlyAdds_inferValues cx scope fields).map _)
    next shape hshape =>
      refine (passes_inferFields scope shape _ [] fields).bind fun found => ?_
      refine (Passes.faults _).bind fun _ => .pure fun hmissing hfields => ?_
      exact .record hshape hfields (map_eq_nil_iff.mp hmissing)
  | select span place e arms =>
    rw [infer]
    refine (passes_infer scope none e).bind fun t => (Passes.faults _).bind fun _ => ?_
    refine (Passes.faults _).bind fun _ => (passes_inferArms scope want t arms).bind fun tys => ?_
    refine (onlyAdds_joinArms cx _ tys).passes fun u hu harms hreachable hexhaustive he => ?_
    exact .select he (Option.toList_eq_nil_iff.mp hexhaustive) hreachable harms hu
  | satisfies span e test =>
    rw [infer]
    refine (passes_infer scope none e).bind fun t => ?_
    refine (tame_checkTest test).onlyAdds.gives.bind fun _ => ?_
    exact .pure fun htest he => .satisfies he htest
  | quantified span q var type body =>
    rw [infer]
    refine (onlyAdds_resolve cx type).gives.bind fun bound => ?_
    refine (onlyAdds_bindName cx _ var bound _).gives.bind fun inside => ?_
    refine (passes_infer inside none body).bind fun t => (Passes.faultIf _ _ _).bind fun _ => ?_
    exact .pure fun hbool hbody hinside hbound =>
      .quantified hbound hinside hbody (by simpa using hbool)

theorem passes_inferArgs (scope : Scope) (args : List Expr) :
    Passes (inferArgs cx scope args) (TypedEach cx scope args) := by
  cases args with
  | nil => exact .pure .nil
  | cons e es =>
    rw [inferArgs]
    refine (passes_infer scope none e).bind fun t => (passes_inferArgs scope es).bind fun tys => ?_
    exact .pure fun hes he => .cons he hes

theorem passes_inferFields (scope : Scope) (s : RecordShape) (b : Binding) (given : List String)
    (fields : List (Ident × Expr)) :
    Passes (inferFields cx scope s b given fields) fun r =>
      TypedFields cx scope s b given fields r.1 r.2 := by
  cases fields with
  | nil => exact .pure .nil
  | cons f fs =>
    obtain ⟨name, e⟩ := f
    rw [inferFields]
    split
    · exact .fault (passes_inferFields scope s b given fs).onlyAdds
    next hnew =>
      split
      · exact .fault ((passes_infer scope none e).onlyAdds.bind fun _ =>
          (passes_inferFields scope s b _ fs).onlyAdds)
      next f hf =>
        refine (passes_infer scope _ e).bind fun got => ?_
        refine (onlyAdds_fieldBinding cx s b _ got _).gives.bind fun b' => ?_
        refine (Passes.faults _).bind fun _ => (Passes.faults _).bind fun _ => ?_
        refine (passes_inferFields scope s b' _ fs).mono fun r hfs hcondition hconstant hb he => ?_
        exact .cons (by simpa using hnew) hf he hb hconstant hcondition hfs

theorem passes_inferArms (scope : Scope) (want : Option Ty) (scrutinee : Ty)
    (arms : List (Arm Expr Expr)) :
    Passes (inferArms cx scope want scrutinee arms) (TypedArms cx scope want scrutinee arms) := by
  match arms with
  | [] => exact .pure .nil
  | ⟨span, p, none, body⟩ :: arms =>
    rw [inferArms]
    refine (onlyAdds_checkPattern cx _ scrutinee p).gives.bind fun inside => ?_
    refine (passes_infer inside want body).bind fun t => ?_
    refine (passes_inferArms scope want scrutinee arms).bind fun tys => ?_
    exact .pure fun harms hbody hp => .plain hp hbody harms
  | ⟨span, p, some g, body⟩ :: arms =>
    rw [inferArms]
    refine (onlyAdds_checkPattern cx _ scrutinee p).gives.bind fun inside => ?_
    refine (passes_infer inside none g).bind fun c => (Passes.faultIf _ _ _).bind fun _ => ?_
    refine (passes_infer inside want body).bind fun t => ?_
    refine (passes_inferArms scope want scrutinee arms).bind fun tys => ?_
    exact .pure fun harms hbody hbool hg hp =>
      .guarded hp hg (by simpa using hbool) hbody harms

end

end Inference

/-!
## Names in scope
-/

namespace Scope

/-- All names in scope, the innermost first. -/
def bounds (s : Scope) : List Bound := s.frames.flatten

/-- The scope with one more name in the innermost frame. -/
def add (s : Scope) (b : Bound) : Scope := { s with inner := b :: s.inner }

theorem lookup_eq_find? (s : Scope) (x : String) :
    s.lookup x = s.bounds.find? fun b => b.name == x := by
  rw [bounds, find?_flatten]
  rfl

@[simp] theorem bounds_push (s : Scope) : s.push.bounds = s.bounds := rfl

@[simp] theorem bounds_add (s : Scope) (b : Bound) : (s.add b).bounds = b :: s.bounds := rfl

@[simp] theorem lookup_push (s : Scope) (x : String) : s.push.lookup x = s.lookup x := by
  rw [lookup_eq_find?, lookup_eq_find?, bounds_push]

theorem lookup_add (s : Scope) (b : Bound) (x : String) :
    (s.add b).lookup x = if b.name = x then some b else s.lookup x := by
  rw [lookup_eq_find?, lookup_eq_find?, bounds_add, find?_cons]
  by_cases hx : b.name = x
  · rw [if_pos hx, beq_iff_eq.mpr hx]
  · rw [if_neg hx, beq_eq_false_iff_ne.mpr hx]

end Scope

section Names

variable {cx : Context} {scope : Scope}

/-- A name that is bound without an error is new in its frame. -/
theorem passes_bindName (name : Ident) (type : Ty) (kind : BindingKind) :
    Passes (bindName cx scope name type kind) fun inside =>
      inside = scope.add ⟨name.name, type, name.span, kind⟩ := by
  unfold bindName Scope.define
  split
  next inside heq =>
    refine .pure ?_
    split at heq
    · cases heq
    · exact (congrArg Prod.fst heq).symm
  next inside place heq =>
    have hinside : inside = scope.add ⟨name.name, type, name.span, kind⟩ := by
      split at heq
      · cases heq
      · exact (congrArg Prod.fst heq).symm
    split
    · exact (OnlyAdds.warn _ _).gives.bind fun _ => .pure fun _ => hinside
    · exact .pure hinside
  · exact .fault (.pure _)

/-- The scope inside an arm. -/
def Pattern.enter (scope : Scope) (scrutinee : Ty) : Pattern → Scope
  | .binding id => scope.add ⟨id.name, scrutinee, id.span, .variable⟩
  | _ => scope

theorem passes_checkPattern (scrutinee : Ty) (p : Pattern) :
    Passes (checkPattern cx scope scrutinee p) fun inside => inside = p.enter scope scrutinee := by
  have hkept {β : Type} {x : Checking β} (hx : OnlyAdds x) :
      Passes (x >>= fun _ => pure scope) fun inside => inside = scope :=
    hx.gives.bind fun _ => .pure fun _ => rfl
  cases p with
  | wildcard span => exact .pure rfl
  | literal span v =>
    refine (tame_literalType v span).onlyAdds.gives.bind fun t => ?_
    exact (hkept (.faultIf _ _ _)).mono fun _ h _ => h
  | variant span type variant =>
    refine (tame_variantType _ _ _).onlyAdds.gives.bind fun t => ?_
    exact (hkept (onlyAdds_expectFits cx _ _ _)).mono fun _ h _ => h
  | binding name => exact passes_bindName name scrutinee _
  | satisfies span test => exact hkept (tame_checkTest _).onlyAdds

/-- What a pattern does not bind is looked up outside the arm. -/
theorem Pattern.found_outside {inside : Scope} {p : Pattern} {scrutinee names}
    (hinside : inside = p.enter scope.push scrutinee) (h : ∀ x ∈ names, (inside.lookup x).isSome) :
    ∀ x ∈ p.unbound names, (scope.lookup x).isSome := by
  intro x hx
  cases p with
  | binding id =>
    obtain ⟨hx, hne⟩ := mem_filter.mp hx
    have hne : x ≠ id.name := by simpa using hne
    have hfound := h x hx
    rw [hinside, Pattern.enter, Scope.lookup_add, if_neg hne.symm, Scope.lookup_push] at hfound
    exact hfound
  | _ => simpa [hinside, Pattern.enter] using h x hx

end Names

mutual

/-- Every name that a typed expression reads is in scope. -/
theorem Typed.found {cx} {scope : Scope} {want} {e : Expr} {t} (h : Typed cx scope want e t) :
    ∀ x ∈ e.reads, (scope.lookup x).isSome := by
  match h with
  | .literal _ | .variant _ => exact fun x hx => nomatch hx
  | .name hb =>
    intro x hx
    obtain rfl := mem_singleton.mp hx
    rw [hb]
    rfl
  | .unary he _ | .member he _ | .satisfies he _ => exact he.found
  | .binary hl hr _ => exact forall_mem_append.mpr ⟨hl.found, hr.found⟩
  | .call hargs _ => exact hargs.found
  | .record _ hfields _ => exact hfields.found
  | .select he _ _ harms _ => exact forall_mem_append.mpr ⟨he.found, harms.found⟩
  | @Typed.quantified _ _ _ _ _ var _ _ _ _ _ _ hinside hbody _ =>
    intro x hx
    -- what the body reads, but for the variable itself, is found outside too
    obtain ⟨hx, hne⟩ := mem_filter.mp hx
    have hne : x ≠ var.name := by simpa using hne
    have hfound := hbody.found x hx
    rw [(passes_bindName _ _ _).result _ hinside, Scope.lookup_add, if_neg hne.symm,
      Scope.lookup_push] at hfound
    exact hfound

theorem TypedEach.found {cx} {scope : Scope} {args tys} (h : TypedEach cx scope args tys) :
    ∀ x ∈ Expr.readsOfArgs args, (scope.lookup x).isSome := by
  match h with
  | .nil => exact fun x hx => nomatch hx
  | .cons he hes => exact forall_mem_append.mpr ⟨he.found, hes.found⟩

theorem TypedFields.found {cx} {scope : Scope} {s b b' given given' fields}
    (h : TypedFields cx scope s b given fields b' given') :
    ∀ x ∈ Expr.readsOfFields fields, (scope.lookup x).isSome := by
  match h with
  | .nil => exact fun x hx => nomatch hx
  | .cons _ _ he _ _ _ hfs => exact forall_mem_append.mpr ⟨he.found, hfs.found⟩

theorem TypedArms.found {cx} {scope : Scope} {want s arms tys}
    (h : TypedArms cx scope want s arms tys) :
    ∀ x ∈ Expr.readsOfArms arms, (scope.lookup x).isSome := by
  match h with
  | .nil => exact fun x hx => nomatch hx
  | .plain hp hbody harms =>
    have hinside := (passes_checkPattern _ _).result _ hp
    exact forall_mem_append.mpr ⟨Pattern.found_outside hinside hbody.found, harms.found⟩
  | .guarded hp hg _ hbody harms =>
    have hinside := (passes_checkPattern _ _).result _ hp
    have hboth := forall_mem_append.mpr ⟨hg.found, hbody.found⟩
    exact forall_mem_append.mpr ⟨Pattern.found_outside hinside hboth, harms.found⟩

end

end Statute
