import Statute.Proofs.Check.Inheritance
import Statute.Proofs.Check.Transparency

/-!
# Type parameters of fields

Whatever is written in a declaration, no other type parameters occur in what it resolves to than
those of the declaration and of the function around it: an alias is expanded with its own
parameters, which are then all replaced by the arguments, `over_resolveWith`. A struct extends
nothing but structs without type parameters, so what it inherits has none, and the types of all its
fields are closed once its own parameters are given, `field_types_closed`.
-/

namespace Statute

open Checking List

/-!
## Closed types
-/

namespace Ty.Over

variable {params : List String} {t : Ty}

theorem mono {ps : List String} (h : t.Over params) (hsub : params ⊆ ps) : t.Over ps :=
  Every.mono h fun _ hu v hv => hsub (hu v hv)

theorem var {v : String} (hv : v ∈ params) : (Ty.var v).Over params :=
  Every.leaf rfl fun _ hw => Ty.var.inj hw ▸ hv

end Ty.Over

mutual

theorem Ty.hasVar_iff (t : Ty) : t.hasVar ↔ ∃ v, .var v ∈ t.parts := by
  match t with
  | .var v => simp [hasVar, parts]
  | .struct n args => simp [hasVar, parts, anyHasVar_iff args]
  | .refine base lo hi => simp [hasVar, parts, hasVar_iff base]
  | .temporal inner opens closes => simp [hasVar, parts, hasVar_iff inner]
  | .array inner => simp [hasVar, parts, hasVar_iff inner]
  | .positive inner => simp [hasVar, parts, hasVar_iff inner]
  | .nonEmpty inner => simp [hasVar, parts, hasVar_iff inner]
  | .union l r => simp [hasVar, parts, hasVar_iff l, hasVar_iff r, exists_or]
  | .unknown | .prim _ | .enum _ | .citation _ | .validDate _ _ | .moneyIn _ =>
    simp [hasVar, parts]

theorem Ty.anyHasVar_iff (ts : List Ty) : anyHasVar ts ↔ ∃ v, .var v ∈ partsAll ts := by
  match ts with
  | [] => simp [anyHasVar, partsAll]
  | t :: ts => simp [anyHasVar, partsAll, hasVar_iff t, anyHasVar_iff ts, exists_or]

end

theorem Ty.hasVar_eq_false_iff {t : Ty} : t.hasVar = false ↔ t.Over [] := by
  rw [← Bool.not_eq_true, hasVar_iff]
  constructor
  · rintro h _ hu v rfl
    exact absurd ⟨v, hu⟩ h
  · rintro h ⟨v, hv⟩
    exact not_mem_nil (h _ hv v rfl)

/-!
## Resolution
-/

section Resolve

variable {env : Env} {ambient opened params : List String} {expand : Expansion}

theorem over_unknown : Ty.Over params .unknown := .leaf rfl fun _ h => by cases h

theorem over_resolveDeclared
    (hexpand : ∀ name ps target, Returns (expand name ps target) (Ty.Over (ps ++ ambient)))
    (span : Span) (name : Ident) {args : List Ty} (hargs : ∀ a ∈ args, a.Over (params ++ ambient)) :
    Returns (resolveDeclared env expand opened span name args) (Ty.Over (params ++ ambient)) := by
  unfold resolveDeclared
  split
  · exact (Returns.any _).bind fun _ _ => .pure over_unknown
  next d hd =>
    unfold Env.instantiate
    rw [hd]
    split
    · exact (Returns.any _).bind fun _ _ => .pure over_unknown
    next binding hbinding =>
      dsimp only at hbinding
      split at hbinding
      next harity =>
        cases hbinding
        split
        · exact .pure (Ty.Every.struct_iff.mpr ⟨fun _ h => (by cases h), hargs⟩)
        · exact .pure (.leaf rfl fun _ h => by cases h)
        next target hbody =>
          split
          · exact (Returns.any _).bind fun _ _ => .pure over_unknown
          · refine (hexpand _ _ _).bind fun t ht => .pure ?_
            exact ht.apply_ofLists_append (beq_iff_eq.mp harity) hargs
      · cases hbinding

theorem Returns.resolveAllWith {P : Ty → Prop} {ts : List TypeExpr}
    (h : ∀ t ∈ ts, Returns (resolveWith env ambient expand opened params t) P) :
    Returns (resolveAllWith env ambient expand opened params ts) fun us => ∀ u ∈ us, P u := by
  induction ts with
  | nil => exact .pure (by simp)
  | cons t ts ih =>
    obtain ⟨ht, hts⟩ := forall_mem_cons.mp h
    rw [Statute.resolveAllWith]
    refine ht.bind fun u hu => (ih hts).bind fun us hus => .pure ?_
    exact forall_mem_cons.mpr ⟨hu, hus⟩

/-- Whatever is written, no other type parameters occur in what it resolves to than those of the
declaration and of the function around it. -/
theorem over_resolveWith
    (hexpand : ∀ name ps target, Returns (expand name ps target) (Ty.Over (ps ++ ambient)))
    (t : TypeExpr) :
    Returns (resolveWith env ambient expand opened params t) (Ty.Over (params ++ ambient)) := by
  induction t using TypeExpr.induction with
  | h t ih =>
    have hall := Returns.resolveAllWith ih
    cases t with
    | var span v =>
      rw [resolveWith]
      split
      next hv => exact .pure (.var (by simpa using hv))
      · exact (Returns.any _).bind fun _ _ => .pure over_unknown
    | named span name args =>
      rw [resolveWith]
      split
      next hv =>
        simp only [Bool.and_eq_true, Bool.or_eq_true] at hv
        exact .pure (.var (by simpa using hv.2))
      · split
        · exact .pure (.leaf rfl fun _ h => by cases h)
        · exact hall.bind fun tys htys => over_resolveDeclared hexpand span name htys
    | _ =>
      rw [resolveWith_compound rfl]
      refine hall.bind fun tys htys => (Returns.any _).bind fun _ _ => .pure ?_
      exact TypeExpr.every_build (fun v hv => absurd hv (TypeExpr.build_ne_var _ _ v)) htys

theorem over_resolveIn (depth : Nat) (opened params : List String) (t : TypeExpr) :
    Returns (resolveIn env ambient depth opened params t) (Ty.Over (params ++ ambient)) := by
  induction depth generalizing opened params t with
  | zero => exact over_resolveWith (fun _ _ _ => .pure over_unknown) t
  | succ depth ih => exact over_resolveWith (fun name ps target => ih _ ps target) t

end Resolve

/-- In the type of a field no other type parameters occur than those of the struct. -/
theorem StructDecl.over_fieldsIn (s : StructDecl) (env : Env) :
    ∀ f ∈ s.fieldsIn env, f.type.Over (s.params.map (·.name)) := by
  intro f hf
  obtain ⟨decl, -, rfl⟩ := mem_map.mp hf
  have hover : (resolve env [] (s.params.map (·.name)) decl.type).value.Over
      (s.params.map (·.name) ++ []) := (over_resolveIn _ _ _ decl.type).value
  rwa [append_nil] at hover

/-!
## Fields
-/

section Accepted

variable {p : Program} {options : CheckOptions} {id pid : Nat} {s : StructDecl}

theorem Rounds.over_effectiveFields (h : Rounds p options) {s : StructDecl}
    (hs : s.Stored p.declared id) :
    ∀ f ∈ p.declared.effectiveFields id, f.type.Over (s.params.map (·.name)) := by
  induction id using Nat.strong_induction_on generalizing s with
  | _ id ih =>
    have hown : ∀ f ∈ p.declared.ownFields id, f.type.Over (s.params.map (·.name)) := by
      rw [Env.ownFields_of_struct? hs.struct]
      exact s.over_fieldsIn p.declared
    cases hparent : p.declared.parent? id with
    | none =>
      rw [Env.effectiveFields_of_root hparent]
      exact hown
    | some pid =>
      -- a parent has no type parameters, so none occur in what is inherited
      obtain ⟨parent, -, hparams, hstored⟩ := h.exists_parent hparent
      have hinherited := ih pid (h.descending id pid hparent) hstored
      rw [hparams] at hinherited
      rw [h.descending.effectiveFields_of_parent hparent, forall_mem_append]
      exact ⟨fun f hf => (hinherited f hf).mono (nil_subset _), hown⟩

/-- The type of a field is looked up among the effective fields, the nearest first, and the
arguments are put in for the parameters. -/
theorem StructDecl.Stored.fieldType?_eq {env : Env} (hs : s.Stored env id) (args : List Ty)
    (field : String) :
    env.fieldType? s.name.name args field =
      ((env.effectiveFields id).reverse.find? fun f => f.name == field).map fun f =>
        (Binding.ofLists (s.params.map (·.name)) args).apply f.type := by
  obtain ⟨d, hd, hparams⟩ := Option.map_eq_some_iff.mp hs.params
  unfold Env.fieldType?
  rw [hs.place]
  simp only [Option.bind_eq_bind, Option.bind_some, hd, hparams]
  cases (env.effectiveFields id).reverse.find? fun f => f.name == field <;> rfl

/-- With arguments in which no type parameters occur, every effective field has such a type. -/
theorem Rounds.fieldType?_closed (h : Rounds p options) (hs : s.Stored p.declared id)
    {args : List Ty} (hlength : args.length = s.params.length)
    (hargs : ∀ a ∈ args, a.hasVar = false) {f : Field} (hf : f ∈ p.declared.effectiveFields id) :
    ∃ t, p.declared.fieldType? s.name.name args f.name = some t ∧ t.hasVar = false := by
  rw [hs.fieldType?_eq]
  cases hfind : (p.declared.effectiveFields id).reverse.find? fun g => g.name == f.name with
  | none =>
    have hne := find?_eq_none.mp hfind f (mem_reverse.mpr hf)
    exact absurd (beq_self_eq_true f.name) hne
  | some g =>
    have hg := mem_reverse.mp (mem_of_find?_eq_some hfind)
    refine ⟨_, rfl, Ty.hasVar_eq_false_iff.mpr ?_⟩
    refine (h.over_effectiveFields hs g hg).apply_ofLists ?_ fun a ha =>
      Ty.hasVar_eq_false_iff.mp (hargs a ha)
    rw [length_map, hlength]

/-- A field that the struct does not declare itself has the type that it has in the parent. -/
theorem Rounds.fieldType?_of_parent (h : Rounds p options) {parent : StructDecl}
    (hs : s.Stored p.declared id) (hstored : parent.Stored p.declared pid)
    (hparent : p.declared.Parent id pid) (hparams : parent.params = []) {field : String}
    (hfield : field ∉ s.fields.map (·.name.name)) (args args' : List Ty) :
    p.declared.fieldType? s.name.name args field =
      p.declared.fieldType? parent.name.name args' field := by
  have hown : ((p.declared.ownFields id).reverse.find? fun f => f.name == field) = none := by
    grind [StructDecl.Stored.map_ownFields]
  rw [hs.fieldType?_eq, hstored.fieldType?_eq, h.descending.effectiveFields_of_parent hparent,
    reverse_append, find?_append, hown, Option.none_or]
  refine Option.map_congr fun f hf => ?_
  -- nothing is put in on either side
  have hclosed := h.over_effectiveFields hstored f
    (mem_reverse.mp (mem_of_find?_eq_some hf))
  rw [hparams] at hclosed
  have hunbound (b : Binding) : b.apply f.type = f.type :=
    b.apply_of_unbound (Ty.Every.mono hclosed fun u hu v hv => absurd (hu v hv) not_mem_nil)
  rw [hunbound, hunbound]

/-- In the types of the fields of a struct no other type parameters occur than those that it
declares. So a field, own or inherited, has a type without type parameters if the arguments have
none, and it is the type of the parent's field if the struct does not declare one of the name. -/
theorem field_types_closed {cp : CheckedProgram} (h : p.check options = .ok cp) {s : StructDecl}
    (hs : s ∈ p.structs) :
    (∃ id, s.Stored cp.env id ∧ ∀ f ∈ cp.env.ownFields id, ∀ v, Ty.var v ∈ f.type.parts →
      v ∈ s.params.map (·.name)) ∧
    (∀ args : List Ty, args.length = s.params.length → (∀ a ∈ args, a.hasVar = false) →
      ∀ a ∈ p.structs, Relation.ReflTransGen p.Extends s.name.name a.name.name →
        ∀ f ∈ a.fields, ∃ t,
          cp.env.fieldType? s.name.name args f.name.name = some t ∧ t.hasVar = false) ∧
    ∀ parent, s.parent = some parent → ∀ field, field ∉ s.fields.map (·.name.name) →
      ∀ args args', cp.env.fieldType? s.name.name args field =
        cp.env.fieldType? parent.name args' field := by
  obtain ⟨henv, h⟩ := Rounds.of_check h
  rw [henv]
  obtain ⟨id, hstored⟩ := h.exists_stored hs
  refine ⟨⟨id, hstored, fun f hf v hv => ?_⟩, fun args hlength hargs a ha hextends f hf => ?_,
    fun parent hparent field hfield args args' => ?_⟩
  · rw [Env.ownFields_of_struct? hstored.struct] at hf
    exact s.over_fieldsIn p.declared f hf _ hv v rfl
  · obtain ⟨aid, haid, hreaches⟩ := h.reaches_of_extends hextends hstored.place
    obtain ⟨aid', hastored⟩ := h.exists_stored ha
    cases haid.symm.trans hastored.place
    have hname : f.name.name ∈ (p.declared.ownFields aid).map (·.name) := by
      rw [hastored.map_ownFields]
      exact mem_map.mpr ⟨f, hf, rfl⟩
    obtain ⟨g, hg, hname⟩ := mem_map.mp hname
    have hmem : g ∈ p.declared.effectiveFields id :=
      mem_flatMap.mpr ⟨aid, mem_reverse.mpr (h.descending.mem_chain_iff.mpr hreaches), hg⟩
    rw [← hname]
    exact h.fieldType?_closed hstored hlength hargs hmem
  · obtain ⟨pid, hpid, -⟩ := h.hasParentIn hs parent hparent
    have hparent : p.declared.Parent id pid := by
      rw [Env.Parent, Env.parent?_of_struct? hstored.struct, StructDecl.parentIn, hparent]
      exact hpid
    obtain ⟨decl, -, hparams, hdecl⟩ := h.exists_parent hparent
    have hname : decl.name.name = parent.name :=
      Env.idOf?_inj hdecl.place (Env.structId?_eq_some_iff.mp hpid).1
    rw [← hname]
    exact h.fieldType?_of_parent hstored hdecl hparent hparams hfield args args'

end Accepted

/-- Files on top of entries on top of records. A file holds something of any type, and a list of
it by way of an alias. -/
def registers : Program where
  name := "registers"
  items :=
    [.synonym ⟨{}, "Copies", ["U"], .array {} (.var {} "U")⟩,
      .struct ⟨{}, "Record", [], none, [⟨{}, "number", .prim {} .int, none⟩]⟩,
      .struct ⟨{}, "Entry", [], some "Record",
        [⟨{}, "day", .prim {} .date, none⟩]⟩,
      .struct ⟨{}, "File", ["T"], some "Entry",
        [⟨{}, "copies", .named {} "Copies" [.var {} "T"], none⟩]⟩]

def registersEnv : Env where
  defs := [⟨"Copies", {}, ["U"], .synonym (.array {} (.var {} "U"))⟩,
    ⟨"Record", {}, [], .struct none [⟨"number", .int, {}, none, "Record"⟩]⟩,
    ⟨"Entry", {}, [], .struct (some 1) [⟨"day", .prim .date, {}, none, "Entry"⟩]⟩,
    ⟨"File", {}, ["T"], .struct (some 2) [⟨"copies", .array (.var "T"), {}, none, "File"⟩]⟩]

theorem check_registers : registers.check = .ok ⟨registers, registersEnv, []⟩ := check_eq_ok rfl

/-- A file of truth values has a list of them, a number that it inherits from records, and its day
is that of entries. -/
theorem file_fields_closed :
    registers.check = .ok ⟨registers, registersEnv, []⟩ ∧
    ∃ s ∈ registers.structs, s.name.name = "File" ∧
      (∃ t, registersEnv.fieldType? "File" [.bool] "copies" = some t ∧ t.hasVar = false) ∧
      (∃ t, registersEnv.fieldType? "File" [.bool] "number" = some t ∧ t.hasVar = false) ∧
      registersEnv.fieldType? "File" [.bool] "day" = registersEnv.fieldType? "Entry" [] "day" := by
  have hfile : registers.structs[2] ∈ registers.structs := getElem_mem _
  have hentry : registers.structs[1] ∈ registers.structs := getElem_mem _
  have hrecord : registers.structs[0] ∈ registers.structs := getElem_mem _
  obtain ⟨-, hclosed, hparent⟩ := field_types_closed check_registers hfile
  have hfields := hclosed [.bool] rfl (by simp [Ty.hasVar])
  have hextends : Relation.ReflTransGen registers.Extends "File" "Record" :=
    .tail (.single ⟨_, hfile, rfl, rfl⟩) ⟨_, hentry, rfl, rfl⟩
  refine ⟨check_registers, _, hfile, rfl, ?_, ?_, ?_⟩
  · exact hfields _ hfile .refl _ mem_cons_self
  · exact hfields _ hrecord hextends _ mem_cons_self
  · exact hparent "Entry" rfl "day" (by decide) [.bool] []

end Statute
