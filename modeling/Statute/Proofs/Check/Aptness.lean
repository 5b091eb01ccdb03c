import Statute.Proofs.Check.Comparisons

/-!
# Checking compares apt types

Inference and the checks of bodies make the comparisons that are listed, and none is lost on the
way: a value that does not fit is reported. In all types that come up, structs have as many
arguments as parameters, since the types of declarations and of names in scope do: `compares_infer`
for expressions, `compares_checkItems` for items and `compares_checkInheritance` for the conditions
of fields.
-/

namespace Statute

open Checking List

variable {t : Ty} {name : String} {scope : Scope}

variable {id : Nat} {f : Field}

/-!
## Expressions
-/

section Expressions

variable {env : Env}

theorem compares_literalType (v : Literal) (span : Span) :
    Compares env (literalType v span) [] [] (Ty.Apt env) := by
  refine .quiet (tame_literalType v span).onlyAdds (Returns.value ?_)
  unfold literalType
  split
  · exact (Returns.any _).bind fun _ _ => .pure (apt_prim _)
  · exact .pure (apt_prim _)

theorem compares_variantType (type variant : Ident) (span : Span) :
    Compares env (variantType env type variant span) [] [] (Ty.Apt env) := by
  refine .quiet (tame_variantType _ _ _).onlyAdds (Returns.value ?_)
  unfold variantType
  split
  · exact (Returns.any _).bind fun _ _ => .pure apt_unknown
  · exact (Returns.any _).bind fun _ _ => .pure (apt_enum _)

theorem compares_unaryType (op : UnaryOp) (ht : t.Apt env) (span : Span) :
    Compares env (unaryType op t span) [] [] (Ty.Apt env) := by
  refine .quiet (tame_unaryType _ _ _).onlyAdds (Returns.value ?_)
  unfold unaryType
  split
  · exact (Returns.any _).bind fun _ _ => .pure (apt_prim _)
  split
  · exact .pure ht.core
  · exact (Returns.any _).bind fun _ _ => .pure apt_unknown

theorem apt_arithmeticType {l r : Ty} (hl : l.Apt env) (hr : r.Apt env) :
    (arithmeticType l r).Apt env := by
  unfold arithmeticType
  split
  · exact apt_prim _
  · exact apt_prim _
  · exact hr.core
  · exact hl.core

theorem apt_durationType? {op l r} (h : durationType? op l r = some t) : t.Apt env := by
  unfold durationType? at h
  split at h <;> cases h
  all_goals exact apt_prim _

theorem compares_binaryType (op : BinaryOp) {l r : Ty} (hl : l.Apt env) (hr : r.Apt env)
    (lspan rspan : Span) : Compares env (binaryType op l r lspan rspan) [] [] (Ty.Apt env) := by
  refine .quiet (tame_binaryType _ _ _ _ _).onlyAdds (Returns.value ?_)
  unfold binaryType
  split
  · exact (Returns.any _).bind fun _ _ => (Returns.any _).bind fun _ _ => .pure (apt_prim _)
  split
  · exact (Returns.any _).bind fun _ _ => .pure (apt_prim _)
  split
  next t ht => exact .pure (apt_durationType? ht)
  · split
    · exact (Returns.any _).bind fun _ _ => .pure apt_unknown
    split
    · exact (Returns.any _).bind fun _ _ => .pure apt_unknown
    · exact .pure (apt_arithmeticType hl hr)

theorem Env.type_mem_types_of_ownFields (hf : f ∈ env.ownFields id) : f.type ∈ env.types := by
  unfold ownFields at hf
  cases hstruct : env.struct? id with
  | none =>
    rw [hstruct] at hf
    cases hf
  | some s =>
    obtain ⟨parent, fields⟩ := s
    rw [hstruct] at hf
    obtain ⟨d, hd, hbody⟩ := struct?_eq_some_iff.mp hstruct
    refine mem_append_left _ (mem_flatMap.mpr ⟨d, mem_of_getElem? hd, ?_⟩)
    unfold TypeDef.types
    rw [hbody]
    exact mem_map.mpr ⟨f, hf, rfl⟩

theorem Env.type_mem_types_of_effectiveFields (hf : f ∈ env.effectiveFields id) :
    f.type ∈ env.types := by
  obtain ⟨a, -, hfa⟩ := mem_flatMap.mp hf
  exact type_mem_types_of_ownFields hfa

theorem Env.mem_types_of_function? {f : Signature} (hf : env.function? name = some f)
    (ht : t ∈ f.types) : t ∈ env.types := by
  refine mem_append_right _ (mem_signatureTypes.mpr (.inr ⟨f, ?_, ht⟩))
  exact mem_of_find?_eq_some hf

theorem compares_memberType (henv : env.Apt) (ht : t.Apt env) (span : Span) (field : Ident) :
    Compares env (memberType env t span field) [] [] (Ty.Apt env) := by
  refine .quiet (tame_memberType _ _ _).onlyAdds (Returns.value ?_)
  unfold memberType
  split
  · exact .pure apt_unknown
  next name args hcore =>
    split
    next u hu =>
      refine .pure ?_
      obtain ⟨id, -, hu⟩ := Option.bind_eq_some_iff.mp hu
      obtain ⟨d, -, hu⟩ := Option.bind_eq_some_iff.mp hu
      obtain ⟨f, hf, hu⟩ := Option.bind_eq_some_iff.mp hu
      cases hu
      have hmem := mem_reverse.mp (mem_of_find?_eq_some hf)
      exact (henv _ (Env.type_mem_types_of_effectiveFields hmem)).apply
        (Binding.every_ofLists (ht.args hcore))
    · exact (Returns.any _).bind fun _ _ => .pure apt_unknown
  · exact (Returns.any _).bind fun _ _ => .pure apt_unknown

end Expressions

/-- All types of names in scope are apt. -/
def Scope.Apt (env : Env) (s : Scope) : Prop := ∀ b ∈ s.bounds, b.type.Apt env

section Names

variable {env : Env}

theorem Scope.apt_empty : Scope.Apt env {} := fun _ hb => nomatch hb

theorem Scope.Apt.lookup (h : scope.Apt env) {x : String} {b : Bound}
    (hb : scope.lookup x = some b) : b.type.Apt env := by
  rw [lookup_eq_find?] at hb
  exact h b (mem_of_find?_eq_some hb)

theorem Scope.Apt.define (h : scope.Apt env) {b : Bound} (hb : b.type.Apt env) :
    (scope.define b).1.Apt env := by
  unfold Scope.define
  split
  · exact h
  · exact forall_mem_cons.mpr ⟨hb, h⟩

/-- All types of declarations and of names in scope are apt. -/
structure Context.Apt (cx : Context) (scope : Scope) : Prop where
  env : cx.env.Apt
  scope : scope.Apt cx.env

theorem Context.Apt.push {cx : Context} (h : cx.Apt scope) : cx.Apt scope.push :=
  ⟨h.env, h.scope⟩

end Names

variable {b : Binding} {args tys : List (Ty × Span)}

section Inference

variable {cx : Context} {s : RecordShape}

theorem compares_bindName (h : cx.Apt scope) (name : Ident) {type : Ty} (htype : type.Apt cx.env)
    (kind : BindingKind) : Compares cx.env (bindName cx scope name type kind) [] [] cx.Apt := by
  have hdefined := h.scope.define (b := ⟨name.name, type, name.span, kind⟩) htype
  refine .quiet (onlyAdds_bindName cx scope name type kind) (Returns.value ?_)
  unfold bindName
  split
  next inside heq =>
    rw [heq] at hdefined
    exact .pure ⟨h.env, hdefined⟩
  next inside place heq =>
    rw [heq] at hdefined
    split
    · exact (Returns.any _).bind fun _ _ => .pure ⟨h.env, hdefined⟩
    · exact .pure ⟨h.env, hdefined⟩
  next inside place heq =>
    rw [heq] at hdefined
    exact (Returns.any _).bind fun _ _ => .pure ⟨h.env, hdefined⟩

theorem compares_resolve (t : TypeExpr) : Compares cx.env (cx.resolve t) [] [] (Ty.Apt cx.env) :=
  .quiet (onlyAdds_resolve cx t) (settles_resolve cx.env _ _ t).always

/-- The one place where types are compared. -/
theorem compares_expectFits {expected got : Ty} (hexpected : expected.Apt cx.env)
    (hgot : got.Apt cx.env) (span : Span) :
    Compares cx.env (expectFits cx expected got span) [⟨expected, got, span⟩] [] fun _ => True := by
  refine ⟨onlyAdds_expectFits cx _ _ _, trivial, by simp [hexpected, hgot], ?_, by simp⟩
  intro c hc hfits r
  obtain rfl := mem_singleton.mp hc
  unfold expectFits faultIf
  rw [hfits]
  exact mem_append_right _ (mem_singleton_self _)

theorem checkArgs_cons (typeParams : List String) (b : Binding) (p a : Ty) (params : List Ty)
    (span : Span) (args : List (Ty × Span)) :
    checkArgs cx typeParams b (p :: params) ((a, span) :: args) =
      match argTaker? typeParams b p with
      | some v => checkArgs cx typeParams (b.bind v a) params args
      | none => (do
        expectFits cx (b.apply p) a span
        checkArgs cx typeParams b params args) := by
  cases p <;> rfl

theorem compares_checkArgs (typeParams : List String) {params : List Ty}
    (hb : b.Every (Ty.AptHere cx.env)) (hparams : ∀ p ∈ params, p.Apt cx.env)
    (hargs : ∀ a ∈ args, a.1.Apt cx.env) :
    Compares cx.env (checkArgs cx typeParams b params args)
      (argComparisons typeParams b params args) [] (Binding.Every (Ty.AptHere cx.env)) := by
  induction params generalizing b args with
  | nil => exact .pure hb
  | cons p params ih =>
    cases args with
    | nil => exact .pure hb
    | cons a args =>
      obtain ⟨a, span⟩ := a
      obtain ⟨hp, hparams⟩ := forall_mem_cons.mp hparams
      obtain ⟨ha, hargs⟩ := forall_mem_cons.mp hargs
      rw [checkArgs_cons, argComparisons]
      cases argTaker? typeParams b p with
      | some v => exact ih (hb.bind ha v) hparams hargs
      | none =>
        refine (compares_expectFits (hp.apply hb) ha span).bind fun _ => ?_
        exact ih hb hparams hargs

theorem compares_joinArms {result : Ty} (hresult : result.Apt cx.env)
    (htys : ∀ t ∈ tys, t.1.Apt cx.env) :
    Compares cx.env (joinArms cx result tys) (joinComparisons result tys) [] (Ty.Apt cx.env) := by
  induction tys generalizing result with
  | nil => exact .pure hresult
  | cons t tys ih =>
    obtain ⟨t, span⟩ := t
    obtain ⟨ht, htys⟩ := forall_mem_cons.mp htys
    rw [joinArms, joinComparisons]
    split
    · exact ih ht htys
    · exact (compares_expectFits hresult ht span).bind fun _ => ih hresult htys

theorem fieldBinding_eq (s : RecordShape) (b : Binding) (want got : Ty) (span : Span) :
    fieldBinding cx s b want got span = match s.taker? want with
      | some v => pure (if got.isUnknown then b else b.bind v got)
      | none => (do
        expectFits cx want got span
        return b) := by
  cases want <;> rfl

theorem compares_fieldBinding (s : RecordShape) {want got : Ty} (span : Span)
    (hb : b.Every (Ty.AptHere cx.env)) (hwant : want.Apt cx.env) (hgot : got.Apt cx.env) :
    Compares cx.env (fieldBinding cx s b want got span) (fieldComparisons s want got span) []
      (Binding.Every (Ty.AptHere cx.env)) := by
  rw [fieldBinding_eq]
  unfold fieldComparisons
  cases s.taker? want with
  | some v =>
    refine .pure ?_
    split
    · exact hb
    · exact hb.bind hgot v
  | none => exact (compares_expectFits hwant hgot span).bind_quiet fun _ => .pure hb

theorem compares_checkPattern (h : cx.Apt scope) {scrutinee : Ty}
    (hscrutinee : scrutinee.Apt cx.env) (p : Pattern) :
    Compares cx.env (checkPattern cx scope scrutinee p) (patternComparisons cx.env scrutinee p)
      [] cx.Apt := by
  cases p with
  | wildcard span => exact .pure h
  | literal span v =>
    refine (compares_literalType v span).quiet_bind fun _ => ?_
    exact (OnlyAdds.faultIf _ _ _).compares.quiet_bind fun _ => .pure h
  | variant span type variant =>
    refine (compares_variantType type variant span).quiet_bind fun ht => ?_
    exact (compares_expectFits hscrutinee ht span).bind_quiet fun _ => .pure h
  | binding name => exact compares_bindName h name hscrutinee _
  | satisfies span test => exact (tame_checkTest _).onlyAdds.compares.quiet_bind fun _ => .pure h

theorem RecordShape.every_expectedBinding (s : RecordShape) {want : Option Ty}
    (hwant : ∀ w ∈ want, w.Apt cx.env) : (s.expectedBinding want).Every (Ty.AptHere cx.env) := by
  unfold expectedBinding
  split
  next n args heq =>
    obtain ⟨w, hw, hcore⟩ := Option.map_eq_some_iff.mp heq
    split
    · exact Binding.every_ofLists ((hwant w hw).args hcore)
    · exact Binding.every_empty
  · exact Binding.every_empty

/-- The shape of a struct has the type of the struct, and apt fields. -/
structure RecordShape.Apt (env : Env) (s : RecordShape) : Prop where
  struct : env.HasStruct s.name s.params.length
  fields : ∀ f ∈ s.fields, f.type.Apt env

theorem RecordShape.apt_of_recordShape? (hcx : cx.env.Apt) (h : recordShape? cx.env name = some s) :
    s.Apt cx.env := by
  obtain ⟨id, hid, h⟩ := Option.bind_eq_some_iff.mp h
  obtain ⟨d, hd, h⟩ := Option.bind_eq_some_iff.mp h
  cases h
  refine ⟨⟨id, hid, ?_⟩, fun f hf => hcx _ (Env.type_mem_types_of_effectiveFields hf)⟩
  rw [hd]
  rfl

theorem RecordShape.Apt.type (h : s.Apt cx.env) (hb : b.Every (Ty.AptHere cx.env)) :
    (s.type b).Apt cx.env := by
  refine Ty.Every.struct_iff.mpr ⟨?_, fun a ha => ?_⟩
  · show cx.env.HasStruct s.name (s.params.map _).length
    rw [length_map]
    exact h.struct
  obtain ⟨p, -, rfl⟩ := mem_map.mp ha
  cases hp : b.get? p with
  | none => exact apt_unknown
  | some t => exact hb p t hp

theorem RecordShape.Apt.field? (h : s.Apt cx.env) (hf : s.field? name = some f) :
    f.type.Apt cx.env :=
  h.fields f (mem_reverse.mp (mem_of_find?_eq_some hf))

theorem compares_callType (hcx : cx.env.Apt) (callee : Ident) (hargs : ∀ a ∈ args, a.1.Apt cx.env) :
    Compares cx.env (callType cx callee args) (callComparisons cx.env callee args) []
      (Ty.Apt cx.env) := by
  unfold callType callComparisons
  cases hf : cx.env.function? callee.name with
  | none => exact (OnlyAdds.fault _ _).compares.quiet_bind fun _ => .pure apt_unknown
  | some f =>
    have htypes (t : Ty) (ht : t ∈ f.types) : t.Apt cx.env :=
      hcx t (Env.mem_types_of_function? hf ht)
    dsimp only
    by_cases harity : (f.params.length != args.length) = true
    · rw [if_pos harity, if_pos harity]
      exact (OnlyAdds.fault _ _).compares.quiet_bind fun _ => .pure apt_unknown
    rw [if_neg harity, if_neg harity]
    have hparams : ∀ p ∈ f.params.map (·.2), p.Apt cx.env :=
      fun p hp => htypes p (mem_cons_of_mem _ hp)
    refine (compares_checkArgs f.typeParams Binding.every_empty hparams hargs).bind_quiet ?_
    refine fun hb => .pure ?_
    split
    · exact apt_unknown
    · exact (htypes f.result mem_cons_self).apply hb

mutual

/-- Inference makes the comparisons that are listed, and finds apt types. -/
theorem compares_infer {scope} (h : cx.Apt scope) {want} (hwant : ∀ w ∈ want, w.Apt cx.env)
    (e : Expr) :
    Compares cx.env (infer cx scope want e) (comparisons cx scope want e)
      (placements cx scope want e) (Ty.Apt cx.env) := by
  have hnone : ∀ w ∈ (none : Option Ty), w.Apt cx.env := by simp
  cases e <;> rw [infer, comparisons, placements]
  case literal span v => exact compares_literalType v span
  case name span id =>
    split
    next b hb => exact .pure (h.scope.lookup hb)
    · exact (OnlyAdds.fault _ _).compares.quiet_bind fun _ => .pure apt_unknown
  case variant span type variant => exact compares_variantType type variant span
  case unary span op e =>
    exact (compares_infer h hnone e).bind_quiet fun ht => compares_unaryType op ht _
  case binary span op l r =>
    refine (compares_infer h hnone l).bind fun ha => ?_
    refine (compares_infer h hnone r).bind_quiet fun hb => ?_
    exact compares_binaryType op ha hb _ _
  case member span base field =>
    exact (compares_infer h hnone base).bind_quiet fun ht =>
      compares_memberType h.env ht _ field
  case call span callee args =>
    exact (compares_inferArgs h args).bind_types fun htys =>
      compares_callType h.env callee htys
  case record span type fields =>
    cases hshape : recordShape? cx.env type.name with
    | none =>
      refine (OnlyAdds.fault _ _).compares.quiet_bind fun _ => ?_
      exact (compares_inferValues h fields).bind_quiet fun _ => .pure apt_unknown
    | some shape =>
      -- type parameters are known from what is wanted before any field is looked at
      have hapt := RecordShape.apt_of_recordShape? h.env hshape
      refine (compares_inferFields h hapt (shape.every_expectedBinding hwant) []
        fields).bind_quiet fun hfound => ?_
      exact (OnlyAdds.faults _).compares.quiet_bind fun _ => .pure (hapt.type hfound)
  case select span place e arms =>
    refine (compares_infer h hnone e).bind fun ht => ?_
    -- arms that are missing or out of reach are reported before any arm is inferred
    refine (OnlyAdds.faults _).compares.quiet_bind fun _ => ?_
    refine (OnlyAdds.faults _).compares.quiet_bind fun _ => ?_
    refine (compares_inferArms h hwant ht arms).bind_types fun htys => ?_
    exact compares_joinArms apt_unknown htys
  case satisfies span e test =>
    refine (compares_infer h hnone e).bind_quiet fun _ => ?_
    exact (tame_checkTest _).onlyAdds.compares.quiet_bind fun _ => .pure (apt_prim _)
  case quantified span q var type body =>
    refine (compares_resolve type).quiet_bind fun hbound => ?_
    refine (compares_bindName h.push var hbound _).quiet_bind fun hinside => ?_
    refine (compares_infer hinside hnone body).bind_quiet fun _ => ?_
    exact (OnlyAdds.faultIf _ _ _).compares.quiet_bind fun _ => .pure (apt_prim _)

theorem compares_inferArgs {scope : Scope} (h : cx.Apt scope) (args : List Expr) :
    Compares cx.env (inferArgs cx scope args) (argsComparisons cx scope args)
      (argsPlacements cx scope args) fun tys => ∀ t ∈ tys, t.1.Apt cx.env := by
  cases args with
  | nil =>
    rw [inferArgs, argsComparisons, argsPlacements]
    exact .pure fun t ht => nomatch ht
  | cons e es =>
    rw [inferArgs, argsComparisons, argsPlacements]
    refine (compares_infer h (by simp) e).bind fun ht => ?_
    refine (compares_inferArgs h es).bind_quiet fun hts => ?_
    exact .pure (forall_mem_cons.mpr ⟨ht, hts⟩)

theorem compares_inferValues {scope : Scope} (h : cx.Apt scope) (fields : List (Ident × Expr)) :
    Compares cx.env (inferValues cx scope fields) (valuesComparisons cx scope fields)
      (valuesPlacements cx scope fields) fun _ => True := by
  match fields with
  | [] =>
    rw [inferValues, valuesComparisons, valuesPlacements]
    exact .pure trivial
  | (name, e) :: fs =>
    rw [inferValues, valuesComparisons, valuesPlacements]
    refine (compares_infer h (by simp) e).bind fun _ => ?_
    exact compares_inferValues h fs

theorem compares_inferFields {scope : Scope} (h : cx.Apt scope)
    {s : RecordShape} (hs : s.Apt cx.env) {b : Binding} (hb : b.Every (Ty.AptHere cx.env))
    (given : List String) (fields : List (Ident × Expr)) :
    Compares cx.env (inferFields cx scope s b given fields)
      (fieldsComparisons cx scope s b given fields) (fieldsPlacements cx scope s b given fields)
      fun found => found.1.Every (Ty.AptHere cx.env) := by
  match fields with
  | [] =>
    rw [inferFields, fieldsComparisons, fieldsPlacements]
    exact .pure hb
  | (name, e) :: fs =>
    rw [inferFields, fieldsComparisons, fieldsPlacements]
    by_cases hgiven : given.contains name.name = true
    · rw [if_pos hgiven, if_pos hgiven, if_pos hgiven]
      refine (OnlyAdds.fault _ _).compares.quiet_bind fun _ => ?_
      exact compares_inferFields h hs hb given fs
    rw [if_neg hgiven, if_neg hgiven, if_neg hgiven]
    cases hfield : s.field? name.name with
    | none =>
      refine (OnlyAdds.fault _ _).compares.quiet_bind fun _ => ?_
      refine (compares_infer h (by simp) e).bind fun _ => ?_
      exact compares_inferFields h hs hb _ fs
    | some f =>
      -- what earlier fields have told about the type parameters is used for this one
      have hfieldType : (b.apply f.type).Apt cx.env := (hs.field? hfield).apply hb
      have hwanted : ∀ w ∈ some (b.apply f.type), w.Apt cx.env := by simpa using hfieldType
      refine (compares_infer h hwanted e).bind fun hgot => ?_
      refine (compares_fieldBinding s e.span hb hfieldType hgot).types_bind fun hb' => ?_
      refine (compares_faults cx.env ⟨b.apply f.type, e⟩).bind fun _ => ?_
      refine (OnlyAdds.faults _).compares.quiet_bind fun _ => ?_
      exact compares_inferFields h hs hb' _ fs

theorem compares_inferArms {scope} (h : cx.Apt scope) {want} (hwant : ∀ w ∈ want, w.Apt cx.env)
    {scrutinee : Ty} (hscrutinee : scrutinee.Apt cx.env) (arms : List (Arm Expr Expr)) :
    Compares cx.env (inferArms cx scope want scrutinee arms)
      (armsComparisons cx scope want scrutinee arms) (armsPlacements cx scope want scrutinee arms)
      fun tys => ∀ t ∈ tys, t.1.Apt cx.env := by
  match arms with
  | [] =>
    rw [inferArms, armsComparisons, armsPlacements]
    exact .pure fun t ht => nomatch ht
  | ⟨span, p, none, body⟩ :: arms =>
    rw [inferArms, armsComparisons, armsPlacements]
    refine (compares_checkPattern h.push hscrutinee p).types_bind fun hinside => ?_
    refine (compares_infer hinside hwant body).bind fun ht => ?_
    refine (compares_inferArms h hwant hscrutinee arms).bind_quiet fun hts => ?_
    exact .pure (forall_mem_cons.mpr ⟨ht, hts⟩)
  | ⟨span, p, some g, body⟩ :: arms =>
    rw [inferArms, armsComparisons, armsPlacements]
    refine (compares_checkPattern h.push hscrutinee p).types_bind fun hinside => ?_
    refine (compares_infer hinside (by simp) g).bind fun _ => ?_
    refine (OnlyAdds.faultIf _ _ _).compares.quiet_bind fun _ => ?_
    refine (compares_infer hinside hwant body).bind fun ht => ?_
    refine (compares_inferArms h hwant hscrutinee arms).bind_quiet fun hts => ?_
    exact .pure (forall_mem_cons.mpr ⟨ht, hts⟩)

end

end Inference

/-!
## Bodies
-/

section Bodies

variable {cx : Context}

theorem compares_expectBool (h : cx.Apt scope) (site : ConditionSite) (e : Expr) :
    Compares cx.env (expectBool cx scope site e) (comparisons cx scope none e)
      (placements cx scope none e) fun _ => True :=
  (compares_infer h (by simp) e).bind_quiet fun _ => (OnlyAdds.faultIf _ _ _).compares

theorem compares_expectValue (h : cx.Apt scope) {declared : Ty}
    (hdeclared : declared.Apt cx.env) (e : Expr) :
    Compares cx.env (expectValue cx scope declared e) (valueComparisons cx scope declared e)
      (valuePlacements cx scope declared e) fun _ => True := by
  refine (compares_infer h (by simpa using hdeclared) e).bind fun hgot => ?_
  exact (compares_expectFits hdeclared hgot e.span).types_bind fun _ =>
    compares_faults cx.env ⟨declared, e⟩

theorem compares_checkDeclaration (h : cx.Apt scope) (d : Declaration) :
    Compares cx.env (checkDeclaration cx scope d)
      (declarationComparisons cx scope d) (declarationPlacements cx scope d) cx.Apt := by
  refine (compares_resolve d.type).quiet_bind fun hdeclared => ?_
  refine (compares_expectValue h hdeclared d.value).bind_quiet fun _ => ?_
  exact compares_bindName h d.name hdeclared _

theorem compares_checkAssign (h : cx.Apt scope) (target : Ident) (value : Expr) :
    Compares cx.env (checkAssign cx scope target value)
      (assignComparisons cx scope target value) (assignPlacements cx scope target value)
      fun _ => True := by
  unfold checkAssign assignComparisons assignPlacements
  cases hbound : scope.lookup target.name with
  | none =>
    refine (OnlyAdds.fault _ _).compares.quiet_bind fun _ => ?_
    exact (compares_infer h (by simp) value).bind_quiet fun _ => .pure trivial
  | some b => exact compares_expectValue h (h.scope.lookup hbound) value

mutual

theorem compares_checkStmt {result : Ty} (hresult : result.Apt cx.env) {scope : Scope}
    (h : cx.Apt scope) (s : Stmt) :
    Compares cx.env (checkStmt cx result scope s) (stmtComparisons cx result scope s)
      (stmtPlacements cx result scope s) cx.Apt := by
  cases s with
  | declare d =>
    rw [checkStmt, stmtComparisons, stmtPlacements]
    exact compares_checkDeclaration h d
  | assign span target value =>
    rw [checkStmt, stmtComparisons, stmtPlacements]
    exact (compares_checkAssign h target value).bind_quiet fun _ => .pure h
  | ret span value =>
    rw [checkStmt, stmtComparisons, stmtPlacements]
    exact (compares_expectValue h hresult value).bind_quiet fun _ => .pure h
  | branch span cond yes no =>
    cases no with
    | none =>
      rw [checkStmt, stmtComparisons, stmtPlacements]
      refine (compares_expectBool h _ cond).bind fun _ => ?_
      exact (compares_checkStmts hresult h.push yes).bind fun _ => .pure h
    | some b =>
      rw [checkStmt, stmtComparisons, stmtPlacements]
      refine (compares_expectBool h _ cond).bind fun _ => ?_
      refine (compares_checkStmts hresult h.push yes).bind fun _ => ?_
      exact (compares_checkStmts hresult h.push b).bind_quiet fun _ => .pure h
  | select span e arms =>
    rw [checkStmt, stmtComparisons, stmtPlacements]
    refine (compares_infer h (by simp) e).bind fun ht => ?_
    refine (OnlyAdds.faults _).compares.quiet_bind fun _ => ?_
    refine (OnlyAdds.faults _).compares.quiet_bind fun _ => ?_
    exact (compares_checkArms hresult h ht arms).bind_quiet fun _ => .pure h
  | eval e =>
    rw [checkStmt, stmtComparisons, stmtPlacements]
    exact (compares_infer h (by simp) e).bind_quiet fun _ => .pure h
  | pass span =>
    rw [checkStmt, stmtComparisons, stmtPlacements]
    exact .pure h

theorem compares_checkStmts {result : Ty} (hresult : result.Apt cx.env) {scope : Scope}
    (h : cx.Apt scope) (stmts : List Stmt) :
    Compares cx.env (checkStmts cx result scope stmts) (stmtsComparisons cx result scope stmts)
      (stmtsPlacements cx result scope stmts) fun _ => True := by
  cases stmts with
  | nil =>
    rw [checkStmts, stmtsComparisons, stmtsPlacements]
    exact .pure trivial
  | cons s rest =>
    rw [checkStmts, stmtsComparisons, stmtsPlacements]
    refine (compares_checkStmt hresult h s).bind fun hnext => ?_
    exact compares_checkStmts hresult hnext rest

theorem compares_checkArms {result : Ty} (hresult : result.Apt cx.env) {scope : Scope}
    (h : cx.Apt scope) {scrutinee : Ty}
    (hscrutinee : scrutinee.Apt cx.env) (arms : List (Arm Expr (List Stmt))) :
    Compares cx.env (checkArms cx result scope scrutinee arms)
      (blocksComparisons cx result scope scrutinee arms)
      (blocksPlacements cx result scope scrutinee arms) fun _ => True := by
  match arms with
  | [] =>
    rw [checkArms, blocksComparisons, blocksPlacements]
    exact .pure trivial
  | ⟨span, p, none, body⟩ :: arms =>
    rw [checkArms, blocksComparisons, blocksPlacements]
    refine (compares_checkPattern h.push hscrutinee p).types_bind fun hinside => ?_
    refine (compares_checkStmts hresult hinside.push body).bind fun _ => ?_
    exact compares_checkArms hresult h hscrutinee arms
  | ⟨span, p, some g, body⟩ :: arms =>
    rw [checkArms, blocksComparisons, blocksPlacements]
    refine (compares_checkPattern h.push hscrutinee p).types_bind fun hinside => ?_
    refine (compares_expectBool hinside _ g).bind fun _ => ?_
    refine (compares_checkStmts hresult hinside.push body).bind fun _ => ?_
    exact compares_checkArms hresult h hscrutinee arms

end

theorem compares_bindParams (h : cx.Apt scope) {params} (hparams : ∀ p ∈ params, p.2.Apt cx.env) :
    Compares cx.env (bindParams cx scope params) [] [] cx.Apt := by
  induction params generalizing scope with
  | nil => exact .pure h
  | cons p params ih =>
    obtain ⟨hp, hparams⟩ := forall_mem_cons.mp hparams
    refine (compares_bindName h p.1 hp _).quiet_bind fun hinside => ?_
    exact ih hinside hparams

theorem compares_checkFunction (h : cx.Apt scope) (f : FunctionDecl) :
    Compares cx.env (checkFunction cx scope f)
      (functionComparisons cx scope f) (functionPlacements cx scope f) fun _ => True := by
  unfold checkFunction functionComparisons functionPlacements
  cases hsig : cx.env.function? f.name.name with
  | none => exact .pure trivial
  | some sig =>
    dsimp only
    by_cases hspan : (sig.span != f.span) = true
    · rw [if_pos hspan, if_pos hspan, if_pos hspan]
      exact .pure trivial
    rw [if_neg hspan, if_neg hspan, if_neg hspan]
    have htypes (t : Ty) (ht : t ∈ sig.types) : t.Apt cx.env :=
      h.env t (Env.mem_types_of_function? hsig ht)
    have hresult := htypes sig.result mem_cons_self
    have hparams : ∀ p ∈ (f.params.map (·.name)).zip (sig.params.map (·.2)),
        p.2.Apt cx.env := fun p hp =>
      htypes p.2 (mem_cons_of_mem _ (of_mem_zip hp).2)
    -- inside, the declarations are the same
    let inner : Context := { cx with typeParams := sig.typeParams }
    have hinner : inner.Apt scope := ⟨h.env, h.scope⟩
    refine (compares_bindParams hinner.push hparams).quiet_bind fun hinside => ?_
    refine (@compares_checkStmts inner _ hresult _ hinside.push f.body).bind_quiet fun _ => ?_
    -- the verdicts of an exclusive enum are looked at last
    refine OnlyAdds.compares ?_
    split
    · split
      · split
        · split
          · exact .faults _
          · exact .pure _
        · exact .pure _
      · exact .pure _
    · exact .pure _

theorem compares_checkPrinciple (h : cx.Apt scope) (p : Principle) :
    Compares cx.env (checkPrinciple cx scope p)
      (comparisons cx scope.push none p.body) (placements cx scope.push none p.body) fun _ => True :=
  (compares_infer h.push (by simp) p.body).bind_quiet fun _ =>
    (OnlyAdds.faultIf _ _ _).compares

mutual

theorem compares_checkItem {scope : Scope} (h : cx.Apt scope)
    (i : Item) : Compares cx.env (checkItem cx scope i) (itemComparisons cx scope i)
      (itemPlacements cx scope i) cx.Apt := by
  cases i <;> rw [checkItem, itemComparisons, itemPlacements]
  case value d => exact compares_checkDeclaration h d
  case function f => exact (compares_checkFunction h f).bind_quiet fun _ => .pure h
  case principle p => exact (compares_checkPrinciple h p).bind_quiet fun _ => .pure h
  case scope span name items => exact (compares_checkItems h.push items).bind_quiet fun _ => .pure h
  all_goals exact .pure h

theorem compares_checkItems {scope : Scope} (h : cx.Apt scope)
    (items : List Item) : Compares cx.env (checkItems cx scope items)
      (itemsComparisons cx scope items) (itemsPlacements cx scope items) fun _ => True := by
  cases items with
  | nil =>
    rw [checkItems, itemsComparisons, itemsPlacements]
    exact .pure trivial
  | cons i rest =>
    rw [checkItems, itemsComparisons, itemsPlacements]
    refine (compares_checkItem h i).bind fun hnext => ?_
    exact compares_checkItems hnext rest

end

/-!
## Field conditions
-/

theorem compares_checkCondition (hcx : cx.env.Apt) (f : FieldDecl) (ht : t.Apt cx.env) :
    Compares cx.env (checkCondition cx f t) (conditionComparisons cx f t)
      (conditionPlacements cx f t) fun _ => True := by
  unfold checkCondition conditionComparisons conditionPlacements
  cases f.condition with
  | none => exact .pure trivial
  | some condition =>
    dsimp only
    cases condition.freeNames.find? fun id => id.name != f.name.name with
    | some other => exact (OnlyAdds.fault _ _).compares
    | none =>
      refine (compares_bindName (Context.Apt.push ⟨hcx, Scope.apt_empty⟩) f.name ht _).quiet_bind fun hinside => ?_
      refine (compares_infer hinside (by simp) condition).bind_quiet fun _ => ?_
      exact (OnlyAdds.faultIf _ _ _).compares

theorem compares_checkConditions (hcx : cx.env.Apt) (fields : List FieldDecl) {types : List Ty}
    (htypes : ∀ t ∈ types, t.Apt cx.env) : Compares cx.env (checkConditions cx fields types)
      (conditionsComparisons cx fields types) (conditionsPlacements cx fields types) fun _ => True := by
  induction fields generalizing types with
  | nil => exact .pure trivial
  | cons f fields ih =>
    cases types with
    | nil => exact .pure trivial
    | cons t types =>
      obtain ⟨ht, htypes⟩ := forall_mem_cons.mp htypes
      exact (compares_checkCondition hcx f ht).bind fun _ => ih htypes

theorem compares_forEachSound (hcx : cx.env.Apt) (structs : List DeclaredStruct) :
    Compares cx.env (forEachSound cx.env (fun s =>
        checkConditions cx s.decl.fields ((cx.env.ownFields s.id).map (·.type))) structs)
      (structsComparisons cx structs) (structsPlacements cx structs) fun _ => True := by
  induction structs with
  | nil => exact .pure trivial
  | cons s structs ih =>
    rw [forEachSound, structsComparisons, structsPlacements]
    by_cases hloops : cx.env.loops s.id = true
    · grind
    rw [if_neg hloops, if_neg hloops, if_neg hloops]
    refine (compares_checkConditions hcx _ fun t ht => ?_).bind fun _ => ih
    obtain ⟨f, hf, rfl⟩ := mem_map.mp ht
    exact hcx f.type (Env.type_mem_types_of_ownFields hf)

theorem compares_checkInheritance (hcx : cx.env.Apt) (structs : List DeclaredStruct) :
    Compares cx.env (checkInheritance cx structs) (structsComparisons cx structs)
      (structsPlacements cx structs) fun _ => True := by
  refine (onlyAdds_checkCycles _ _).compares.quiet_bind fun _ => ?_
  refine (onlyAdds_forEachSound (fun s => (tame_checkParent s).onlyAdds) structs).compares.quiet_bind fun _ => ?_
  exact compares_forEachSound hcx structs

end Bodies

end Statute
