import Mathlib.Data.List.Perm.Subperm
import Statute.Proofs.Check.Structs

/-!
# The types that declarations hold

Whatever is written, resolution gives a type in which every struct has as many arguments as
parameters: it is `Apt`. Where nothing is reported the type is moreover `Sound`: nothing in it is
unknown, limits and windows are not empty, only numbers are limited, and so on at every depth, also
for types that come out of aliases.

So all types that the declarations of an accepted program hold are sound, and the requirements of
its legal tests are truth values with different names, `declared_types_sound`.
-/

namespace Statute

open Checking List

variable {env : Env} {P : Ty → Prop}

/-!
## What is asked of types
-/

/-- The name is that of a struct with so many type parameters. -/
def Env.HasStruct (env : Env) (name : String) (arity : Nat) : Prop :=
  ∃ id, env.structId? name = some id ∧ (env.def? id).map (·.params.length) = some arity

namespace Ty

/-- A struct has as many arguments as it has parameters. -/
def AptHere (env : Env) : Ty → Prop
  | .struct name args => env.HasStruct name args.length
  | _ => True

/-- What is asked of a type apart from the types inside it. -/
def SoundHere (env : Env) : Ty → Prop
  | .unknown => False
  | .struct name args => env.HasStruct name args.length
  | .enum name => (env.enum? name).isSome = true
  | .refine base lo hi => base.isNumeric = true ∧ ∀ l ∈ lo, ∀ h ∈ hi, l ≤ h
  | .citation c => c.problem? = none
  | .temporal _ opens closes => ∀ a ∈ opens, ∀ b ∈ closes, a.lt b = true
  | .positive inner => inner.isNumeric = true
  | .validDate after before => ∀ a ∈ after, ∀ b ∈ before, a.lt b = true
  | .moneyIn code => code.toList.length = 3 ∧ ∀ c ∈ code.toList, 'A' ≤ c ∧ c ≤ 'Z'
  | .prim _ | .var _ | .array _ | .nonEmpty _ | .union _ _ => True

/-- Structs have as many arguments as parameters, at every depth. -/
abbrev Apt (env : Env) (t : Ty) : Prop := t.Every (AptHere env)

/-- The type is well formed at every depth. -/
abbrev Sound (env : Env) (t : Ty) : Prop := t.Every (SoundHere env)

end Ty

variable {t : Ty}

section Congr

variable {env env' : Env} (h : env.outline = env'.outline)

include h

theorem Env.hasStruct_congr (name : String) (arity : Nat) :
    env.HasStruct name arity ↔ env'.HasStruct name arity := by
  unfold HasStruct
  rw [structId?_congr h]
  refine exists_congr fun id => and_congr_right fun _ => ?_
  have hparams := congrArg (Option.map List.length) (params_def?_congr h id)
  rw [Option.map_map, Option.map_map] at hparams
  exact Eq.congr_left hparams

theorem Ty.aptHere_congr (t : Ty) : t.AptHere env ↔ t.AptHere env' := by
  cases t with
  | struct name args => exact Env.hasStruct_congr h name args.length
  | _ => exact Iff.rfl

theorem Ty.soundHere_congr (t : Ty) : t.SoundHere env ↔ t.SoundHere env' := by
  cases t with
  | struct name args => exact Env.hasStruct_congr h name args.length
  | enum name =>
    show (env.enum? name).isSome = true ↔ (env'.enum? name).isSome = true
    rw [Env.enum?_congr h]
  | _ => exact Iff.rfl

theorem Ty.Apt.congr (ht : t.Apt env) : t.Apt env' :=
  ht.mono fun u => (u.aptHere_congr h).mp

theorem Ty.Sound.congr (ht : t.Sound env) : t.Sound env' :=
  ht.mono fun u => (u.soundHere_congr h).mp

end Congr

namespace Ty

variable {env : Env} {b : Binding}

theorem aptHere_apply (u : Ty) (hu : u.AptHere env) (hvar : ∀ v, u ≠ .var v) :
    (b.apply u).AptHere env := by
  cases u with
  | var v => exact absurd rfl (hvar v)
  | struct name args =>
    show env.HasStruct name (b.applyAll args).length
    rw [Binding.length_applyAll]
    exact hu
  | _ => trivial

theorem soundHere_apply (u : Ty) (hu : u.SoundHere env) (hvar : ∀ v, u ≠ .var v) :
    (b.apply u).SoundHere env := by
  cases u with
  | var v => exact absurd rfl (hvar v)
  | struct name args =>
    show env.HasStruct name (b.applyAll args).length
    rw [Binding.length_applyAll]
    exact hu
  | refine base lo hi => exact ⟨isNumeric_apply b hu.1, hu.2⟩
  | positive inner => exact isNumeric_apply b hu
  | _ => exact hu

theorem Apt.apply {t : Ty} (ht : t.Apt env) (hb : b.Every (AptHere env)) : (b.apply t).Apt env :=
  Every.apply aptHere_apply hb ht

theorem Sound.apply {t : Ty} (ht : t.Sound env) (hb : b.Every (SoundHere env)) :
    (b.apply t).Sound env :=
  Every.apply soundHere_apply hb ht

end Ty

variable {name : String} {d : TypeDef}

/-!
## Resolution
-/

theorem Env.exists_place_of_lookup (h : env.lookup name = some d) :
    ∃ id, env.idOf? name = some id ∧ env.def? id = some d := by
  obtain ⟨hname, id, hlt, hd, hfirst⟩ := find?_eq_some_iff_getElem.mp h
  refine ⟨id, findIdx?_eq_some_iff_getElem.mpr ⟨hlt, by rwa [hd], fun j hj => ?_⟩, ?_⟩
  · simpa using hfirst j hj
  · exact List.getElem?_eq_some_iff.mpr ⟨hlt, hd⟩

theorem Env.isSome_enum?_of_lookup {info : EnumInfo} (h : env.lookup name = some d)
    (hbody : d.body = .enum info) : (env.enum? name).isSome := by
  obtain ⟨n, span, params, body⟩ := d
  cases hbody
  unfold enum?
  rw [h]
  rfl

/-- The first occurrence of an alias inside itself is always reported. -/
theorem not_goesThrough_reportAliasCycle (opened : List String) (name : Ident) :
    ¬ GoesThrough (reportAliasCycle opened name) := by
  rintro ⟨r, hcyclic, hr⟩
  have hrun : ((reportAliasCycle opened name).run r).2.errors =
      ((if r.cyclic.contains name.name then Pure.pure () else do
        set { r with cyclic := r.cyclic ++ opened.dropWhile (· != name.name) }
        fault (.aliasCycle name.name (opened.dropWhile (· != name.name) ++ [name.name]))
          name.span : Checking Unit).run r).2.errors := rfl
  rw [hrun, hcyclic, if_neg (by simp)] at hr
  exact absurd (append_eq_nil_iff.mp hr).2 (by simp)

theorem passes_checkWindow (lo hi : Option Date) (f : Date → Date → Fault) (span : Span) :
    Passes (checkWindow lo hi f span) fun _ => ∀ a ∈ lo, ∀ b ∈ hi, a.lt b := by
  unfold checkWindow
  split
  next a b =>
    refine (Passes.faultIf _ _ _).mono fun _ hle => ?_
    rintro _ ⟨⟩ _ ⟨⟩
    simpa [Date.le] using hle
  next hnone =>
    refine .pure fun a ha b hb => ?_
    exact absurd hb (hnone a b ha)

theorem passes_readDate? (text : Option String) (span : Span) :
    Passes (readDate? text span) (· = text.bind Date.parse?) := by
  refine (tame_readDate? text span).onlyAdds.passes fun d ⟨r, hd, _⟩ => ?_
  rw [← hd]
  exact run_readDate? text span r

theorem passes_readWindow (lo hi : Option String) (f : Date → Date → Fault) (span : Span) :
    Passes (do
        let a ← readDate? lo span
        let b ← readDate? hi span
        checkWindow a b f span) fun _ =>
      ∀ a ∈ lo.bind Date.parse?, ∀ b ∈ hi.bind Date.parse?, a.lt b := by
  refine (passes_readDate? lo span).bind fun a => (passes_readDate? hi span).bind fun b => ?_
  refine (passes_checkWindow a b f span).mono ?_
  rintro _ hwindow rfl rfl
  exact hwindow

theorem TypeExpr.aptHere_build (t : TypeExpr) (tys : List Ty) : (t.build tys).AptHere env := by
  fun_cases build t tys <;> trivial

section Resolve

variable {env : Env} {ambient opened params : List String} {expand : Expansion}

/-- Aliases that are not being expanded resolve well. -/
def Expands (env : Env) (opened : List String) (expand : Expansion) : Prop :=
  ∀ name ps target, name ∈ env.defs.map (·.name) → name ∉ opened →
    Settles (expand name ps target) (Ty.Apt env) (Ty.Sound env)

theorem settles_resolveDeclared (hexpand : Expands env opened expand) (span : Span) (name : Ident)
    {args : List Ty} (hargs : ∀ a ∈ args, a.Apt env) :
    Settles (resolveDeclared env expand opened span name args) (Ty.Apt env) fun t =>
      (∀ a ∈ args, a.Sound env) → t.Sound env := by
  have hunknown : Ty.Apt env .unknown := .leaf rfl trivial
  unfold resolveDeclared
  split
  · exact .fault hunknown
  next d hd =>
    obtain ⟨id, hid, hdef⟩ := Env.exists_place_of_lookup hd
    unfold Env.instantiate
    rw [hd]
    split
    · exact .fault hunknown
    next binding hbinding =>
      dsimp only at hbinding
      split at hbinding
      next harity =>
        cases hbinding
        split
        next parent fields hbody =>
          have hstruct : env.HasStruct name.name args.length := by
            refine ⟨id, Option.filter_eq_some_iff.mpr ⟨hid, ?_⟩, ?_⟩
            · rw [Env.struct?_eq_some_iff.mpr ⟨d, hdef, hbody⟩]
              rfl
            · grind
          exact .pure (Ty.Every.struct_iff.mpr ⟨hstruct, hargs⟩)
            fun hsound => Ty.Every.struct_iff.mpr ⟨hstruct, hsound⟩
        next info hbody =>
          exact .pure (.leaf rfl trivial) fun _ => .leaf rfl (Env.isSome_enum?_of_lookup hd hbody)
        next target hbody =>
          split
          next =>
            -- the alias is being expanded already
            refine ⟨(onlyAdds_reportAliasCycle _ _).map _, hunknown, fun h => ?_⟩
            have hcycle := (h.bind (onlyAdds_reportAliasCycle opened name) (.pure _)).1
            exact absurd hcycle (not_goesThrough_reportAliasCycle opened name)
          next hnew =>
            have hname := Env.mem_names_of_lookup hd
            -- the arguments take the place of the parameters in what the alias stands for
            refine (hexpand _ _ _ hname (by simpa using hnew)).bind fun t ht => ?_
            refine .pure (ht.apply (Binding.every_ofLists hargs)) fun hsound hargs' => ?_
            exact hsound.apply (Binding.every_ofLists hargs')
      · cases hbinding

/-- What nothing is reported about is sound, apart from what is inside it. -/
theorem passes_review {t : TypeExpr} {tys : List Ty} (ht : t.isName = false)
    (hlen : tys.length = t.components.length) :
    Passes (t.review tys) fun _ => (t.build tys).SoundHere env := by
  have hone (hlen : tys.length = 1) : ∃ u, tys = [u] := length_eq_one_iff.mp hlen
  cases t with
  | named | var => cases ht
  | prim => exact .pure trivial
  | citation span c =>
    rw [TypeExpr.review]
    split
    · exact .fault (g := Pure.pure) (.pure ())
    next hproblem => exact .pure hproblem
  | refine span base lo hi =>
    obtain ⟨u, rfl⟩ := hone hlen
    refine (Passes.faultIf _ _ _).bind fun _ => ?_
    split
    next l h =>
      refine (Passes.faultIf _ _ _).mono fun _ hle hnumeric => ⟨by simpa using hnumeric, ?_⟩
      rintro _ ⟨⟩ _ ⟨⟩
      simpa using hle
    next hnone =>
      refine .pure fun hnumeric => ⟨by simpa using hnumeric, fun l hl h hh => ?_⟩
      exact absurd hh (hnone l h hl)
  | temporal span inner opens closes =>
    obtain ⟨u, rfl⟩ := hone hlen
    exact passes_readWindow opens closes _ span
  | array =>
    obtain ⟨u, rfl⟩ := hone hlen
    exact .pure trivial
  | positive span inner =>
    obtain ⟨u, rfl⟩ := hone hlen
    refine (Passes.faultIf _ _ _).mono fun _ hnumeric => ?_
    show u.isNumeric = true
    simpa using hnumeric
  | nonEmpty =>
    obtain ⟨u, rfl⟩ := hone hlen
    exact (Passes.faultIf _ _ _).mono fun _ _ => trivial
  | validDate span after before => exact passes_readWindow after before _ span
  | union =>
    obtain ⟨l, r, rfl⟩ := length_eq_two.mp hlen
    exact .pure trivial
  | moneyIn span code =>
    refine (Passes.faultIf _ _ _).mono fun _ hcode => ?_
    show code.toList.length = 3 ∧ ∀ c ∈ code.toList, 'A' ≤ c ∧ c ≤ 'Z'
    simpa [isCurrencyCode, isCapital] using hcode

theorem Settles.resolveAllWith {P Q : Ty → Prop} {ts : List TypeExpr}
    (h : ∀ t ∈ ts, Settles (resolveWith env ambient expand opened params t) P Q) :
    Settles (resolveAllWith env ambient expand opened params ts)
      (fun us => us.length = ts.length ∧ ∀ u ∈ us, P u) fun us => ∀ u ∈ us, Q u := by
  induction ts with
  | nil => exact .pure (by simp) (by simp)
  | cons t ts ih =>
    obtain ⟨ht, hts⟩ := forall_mem_cons.mp h
    rw [Statute.resolveAllWith]
    refine ht.bind fun u hu => (ih hts).bind fun us hus => ?_
    refine .pure ⟨congrArg (· + 1) hus.1, forall_mem_cons.mpr ⟨hu, hus.2⟩⟩ fun hus hu => ?_
    exact forall_mem_cons.mpr ⟨hu, hus⟩

theorem settles_resolveWith (hexpand : Expands env opened expand) (t : TypeExpr) :
    Settles (resolveWith env ambient expand opened params t) (Ty.Apt env) (Ty.Sound env) := by
  induction t using TypeExpr.induction with
  | h t ih =>
    cases t with
    | var span v =>
      rw [resolveWith]
      split
      · exact .pure (.leaf rfl trivial) (.leaf rfl trivial)
      · exact .fault (.leaf rfl trivial)
    | named span name args =>
      rw [resolveWith]
      split
      · exact .pure (.leaf rfl trivial) (.leaf rfl trivial)
      split
      · exact .pure (.leaf rfl trivial) (.leaf rfl trivial)
      · refine (Settles.resolveAllWith ih).bind fun tys htys => ?_
        exact settles_resolveDeclared hexpand span name htys.2
    | _ =>
      rw [resolveWith_compound rfl]
      refine (Settles.resolveAllWith ih).bind fun tys htys => ?_
      refine (passes_review rfl htys.1).settles.bind fun _ _ => .pure ?_ TypeExpr.every_build
      exact TypeExpr.every_build (TypeExpr.aptHere_build _ tys) htys.2

end Resolve

theorem settles_resolveIn {ambient : List String} (opened params : List String) (t : TypeExpr) :
    Settles (resolveIn env ambient env.size opened params t) (Ty.Apt env) (Ty.Sound env) := by
  induction opened using env.opened_induction generalizing params t with
  | _ opened ih =>
    rw [resolveIn_unfold]
    exact settles_resolveWith (fun name ps target hname hnew => ih name hname hnew ps target) t

theorem settles_resolve (env : Env) (ambient params : List String) (t : TypeExpr) :
    Settles (resolve env ambient params t) (Ty.Apt env) (Ty.Sound env) :=
  settles_resolveIn [] params t

/-!
## Legal tests
-/

/-- Where nothing is wrong with requirements, their names are new and they are truth values. -/
theorem of_requirementFaults {test seen} {reqs : List Requirement}
    (h : requirementFaults test seen reqs = []) :
    (reqs.map (·.name)).Nodup ∧ ∀ r ∈ reqs, r.name ∉ seen ∧ r.type.isBool := by
  induction reqs generalizing seen with
  | nil => exact ⟨nodup_nil, fun r hr => nomatch hr⟩
  | cons r reqs ih =>
    rw [requirementFaults, append_eq_nil_iff, append_eq_nil_iff] at h
    obtain ⟨⟨hname, hbool⟩, hrest⟩ := h
    obtain ⟨hdistinct, hreqs⟩ := ih hrest
    have hnew : r.name ∉ seen := by grind
    have htype : r.type.isBool = true := by grind
    refine ⟨nodup_cons.mpr ⟨fun hmem => ?_, hdistinct⟩, ?_⟩
    · grind
    · grind

/-- A sound type that can be a condition is a truth value. -/
theorem Ty.Sound.core_eq_bool (h : t.Sound env) (hbool : t.isBool) : t.core = .bool := by
  have hcore : t.core.Sound env := h.core fun _ => trivial
  unfold isBool at hbool
  split at hbool
  next heq => exact heq
  next heq =>
    rw [heq] at hcore
    exact absurd (hcore .unknown (by simp [parts])) id
  · cases hbool

/-- Requirements have different names and are truth values. -/
def LegalTest.Proper (t : LegalTest) : Prop :=
  t.requirementNames.Nodup ∧ ∀ r ∈ t.requirements, r.type.core = .bool

/-!
## The types that declarations hold
-/

/-- The types of the fields of a struct. -/
def TypeDef.types (d : TypeDef) : List Ty :=
  match d.body with
  | .struct _ fields => fields.map (·.type)
  | _ => []

def LegalTest.types (t : LegalTest) : List Ty := t.requirements.map (·.type)

def Signature.types (f : Signature) : List Ty := f.result :: f.params.map (·.2)

namespace Env

/-- The types of legal tests and functions. -/
def signatureTypes (env : Env) : List Ty :=
  env.tests.flatMap LegalTest.types ++ env.functions.flatMap Signature.types

/-- All types that the declarations hold. -/
def types (env : Env) : List Ty := env.defs.flatMap TypeDef.types ++ env.signatureTypes

theorem mem_signatureTypes {u : Ty} :
    u ∈ env.signatureTypes ↔
    (∃ t ∈ env.tests, u ∈ t.types) ∨ ∃ f ∈ env.functions, u ∈ f.types := by
  unfold signatureTypes
  rw [mem_append, mem_flatMap, mem_flatMap]

end Env

namespace Program

variable {p : Program}

/-- The types of fields are those that the structs of the program declare. -/
theorem exists_field_of_mem_types (hd : d ∈ p.declared.defs) (ht : t ∈ d.types) :
    ∃ s ∈ p.placed, ∃ f ∈ s.decl.fieldsIn p.declared, f.type = t := by
  unfold TypeDef.types at ht
  split at ht
  next parent fields hbody =>
    obtain ⟨id, hlt, hget⟩ := getElem_of_mem hd
    have hstruct : p.declared.struct? id = some (parent, fields) :=
      Env.struct?_eq_some_iff.mpr ⟨d, List.getElem?_eq_some_iff.mpr ⟨hlt, hget⟩, hbody⟩
    obtain ⟨s, hs, rfl⟩ := p.exists_placed (by rw [hstruct]; rfl)
    have hstored := (p.stored hs).2.struct
    cases hstruct.symm.trans hstored
    obtain ⟨f, hf, rfl⟩ := mem_map.mp ht
    exact ⟨s, hs, f, hf, rfl⟩
  · cases ht

variable (p)

/-- The types of legal tests and functions are resolved, and go through if all of them do. -/
theorem exists_of_mem_signatureTypes {u : Ty} (hu : u ∈ p.declared.signatureTypes) :
    ∃ ps t, u = (resolve p.typed [] ps t).value ∧
      (GoesThrough (collectSignatures p.typed p.leaves) → GoesThrough (resolve p.typed [] ps t)) := by
  obtain ⟨htests, hfunctions⟩ := p.others_typed
  have hsigned := (settles_collectSignatures p.typed p.leaves).through
  rcases Env.mem_signatureTypes.mp hu with ⟨t, ht, hu⟩ | ⟨f, hf, hu⟩
  · rcases p.signs.tests ht with ht | ⟨d, hd, rfl⟩
    · rw [htests] at ht
      cases ht
    obtain ⟨_, hmem, rfl⟩ := mem_map.mp hu
    obtain ⟨r, hr, rfl⟩ := mem_map.mp hmem
    exact ⟨[], r.type, rfl, fun h => (hsigned h _ hd).2 r hr⟩
  · rcases p.signs.functions hf with hf | ⟨d, hd, rfl⟩
    · rw [hfunctions] at hf
      cases hf
    rcases mem_cons.mp hu with rfl | hu
    · exact ⟨_, d.result, rfl, fun h => (hsigned h _ hd).2.2⟩
    obtain ⟨_, hmem, rfl⟩ := mem_map.mp hu
    obtain ⟨r, hr, rfl⟩ := mem_map.mp hmem
    exact ⟨_, r.type, rfl, fun h => (hsigned h _ hd).2.1 r hr⟩

/-- What holds of all fields and all signatures holds of all types. -/
theorem forall_types (hfields : ∀ s ∈ p.placed, ∀ f ∈ s.decl.fieldsIn p.named, P f.type)
    (hsigned : ∀ t ∈ p.declared.signatureTypes, P t) : ∀ t ∈ p.declared.types, P t := by
  intro t ht
  rcases mem_append.mp ht with ht | ht
  · obtain ⟨d, hd, ht⟩ := mem_flatMap.mp ht
    obtain ⟨s, hs, f, hf, rfl⟩ := exists_field_of_mem_types hd ht
    rw [s.decl.fieldsIn_congr p.outline_declared] at hf
    exact hfields s hs f hf
  · exact hsigned t ht

/-- All types that the declarations of a program hold are apt. -/
theorem apt_types : ∀ t ∈ p.declared.types, t.Apt p.declared := by
  refine p.forall_types (fun s hs f hf => ?_) fun t ht => ?_
  · obtain ⟨decl, -, rfl⟩ := mem_map.mp hf
    exact (settles_resolve p.named _ _ decl.type).always.congr p.outline_declared.symm
  · obtain ⟨ps, t, rfl, -⟩ := p.exists_of_mem_signatureTypes ht
    exact (settles_resolve p.typed _ _ t).always.congr p.signs.outline.symm

end Program

variable {p : Program} {options : CheckOptions} {cp : CheckedProgram}

/-- All types that the declarations of an accepted program hold are sound. -/
theorem sound_types_of_check (h : p.check options = .ok cp) :
    ∀ t ∈ cp.env.types, t.Sound cp.env := by
  obtain ⟨henv, h⟩ := Rounds.of_check h
  rw [henv]
  refine p.forall_types (fun s hs f hf => ?_) fun t ht => ?_
  · obtain ⟨decl, hdecl, rfl⟩ := mem_map.mp hf
    have hgoes := ((settles_resolveStructs _ _).through h.structs s hs).2 decl hdecl
    exact ((settles_resolve p.named _ _ _).through hgoes).congr p.outline_declared.symm
  · obtain ⟨ps, t, rfl, hgoes⟩ := p.exists_of_mem_signatureTypes ht
    exact ((settles_resolve p.typed _ _ t).through (hgoes h.signatures)).congr p.signs.outline.symm

/-- The requirements of a legal test have different names and are truth values. -/
theorem proper_of_check (h : p.check options = .ok cp) {t : LegalTest} (ht : t ∈ cp.env.tests) :
    t.Proper := by
  have hsound (r : Requirement) (hr : r ∈ t.requirements) : r.type.Sound cp.env :=
    sound_types_of_check h _ (mem_append_right _
      (Env.mem_signatureTypes.mpr (.inl ⟨t, ht, mem_map_of_mem hr⟩)))
  obtain ⟨henv, h⟩ := Rounds.of_check h
  rw [henv] at ht
  rcases p.signs.tests ht with ht | ⟨d, hd, rfl⟩
  · rw [p.others_typed.1] at ht
    cases ht
  have hfaults := ((settles_collectSignatures _ _).through h.signatures _ hd).1
  obtain ⟨hdistinct, hbool⟩ := of_requirementFaults hfaults
  exact ⟨hdistinct, fun r hr => (hsound r hr).core_eq_bool (hbool r hr).2⟩

/-- All types that the declarations of an accepted program hold are well formed at every depth, and
its legal tests have requirements with different names that are truth values. -/
theorem declared_types_sound {p : Program} {options : CheckOptions} {cp : CheckedProgram}
    (h : p.check options = .ok cp) :
    (∀ t ∈ cp.env.types, ∀ u ∈ t.parts, u.SoundHere cp.env) ∧
    ∀ test ∈ cp.env.tests, test.requirementNames.Nodup ∧
      ∀ r ∈ test.requirements, r.type.core = .bool := by
  exact ⟨sound_types_of_check h, fun t ht => proper_of_check h ht⟩

/-- Estates with their heirs: aliases of aliases, a struct with a type parameter, a legal test and a
function. -/
def successions : Program where
  name := "successions"
  items :=
    [.synonym ⟨{}, "Share", [], .refine {} (.prim {} .int) (some 0) (some 100)⟩,
      .synonym ⟨{}, "Listed", ["T"], .nonEmpty {} (.array {} (.var {} "T"))⟩,
      .synonym ⟨{}, "Heirs", ["S"],
        .named {} "Listed" [.named {} "Heir" [.var {} "S"]]⟩,
      .struct ⟨{}, "Heir", ["T"], none, [⟨{}, "part", .var {} "T", none⟩]⟩,
      .struct ⟨{}, "Estate", [], none,
        [⟨{}, "heirs", .named {} "Heirs" [.named {} "Share" []], none⟩,
          ⟨{}, "value", .positive {} (.moneyIn {} "EUR"), none⟩]⟩,
      .test ⟨{}, "Capable",
        [⟨{}, "adult", .prim {} .bool⟩, ⟨{}, "sane", .prim {} .bool⟩]⟩]

/-- A list of heirs, each with a share. -/
def heirsType : Ty :=
  .nonEmpty (.array (.struct "Heir" [.refine .int (some 0) (some 100)]))

def successionsEnv : Env where
  defs := [⟨"Share", {}, [], .synonym (.refine {} (.prim {} .int) (some 0) (some 100))⟩,
    ⟨"Listed", {}, ["T"], .synonym (.nonEmpty {} (.array {} (.var {} "T")))⟩,
    ⟨"Heirs", {}, ["S"],
      .synonym (.named {} "Listed" [.named {} "Heir" [.var {} "S"]])⟩,
    ⟨"Heir", {}, ["T"], .struct none [⟨"part", .var "T", {}, none, "Heir"⟩]⟩,
    ⟨"Estate", {}, [], .struct none [⟨"heirs", heirsType, {}, none, "Estate"⟩,
      ⟨"value", .positive (.moneyIn "EUR"), {}, none, "Estate"⟩]⟩]
  tests := [⟨"Capable", {}, [⟨"adult", .bool, {}⟩, ⟨"sane", .bool, {}⟩]⟩]

theorem check_successions : successions.check = .ok ⟨successions, successionsEnv, []⟩ :=
  check_eq_ok rfl

/-- The type of heirs comes out of two aliases, and nothing is wrong with it at any depth. -/
theorem heirs_type_sound :
    successions.check = .ok ⟨successions, successionsEnv, []⟩ ∧
    heirsType ∈ successionsEnv.types ∧
    (∀ u ∈ heirsType.parts, u.SoundHere successionsEnv) ∧ successionsEnv.HasStruct "Heir" 1 ∧
    ∃ test ∈ successionsEnv.tests, test.requirementNames = ["adult", "sane"] ∧
      ∀ r ∈ test.requirements, r.type.core = .bool := by
  obtain ⟨hsound, htests⟩ := declared_types_sound check_successions
  have hmem : heirsType ∈ successionsEnv.types := by simp [Env.types, TypeDef.types, successionsEnv]
  have hheir : Ty.struct "Heir" [.refine .int (some 0) (some 100)] ∈ heirsType.parts := by
    simp [heirsType, Ty.parts]
  refine ⟨check_successions, hmem, hsound _ hmem, hsound _ hmem _ hheir, _, mem_cons_self,
    rfl, ?_⟩
  exact (htests _ mem_cons_self).2

end Statute
