import Statute.Proofs.Check.Variables
import Statute.Proofs.Check.Written

/-!
# What is said not to be empty

Only strings and arrays can be empty or not, and resolution asks that `NonEmpty` be put around such
a type. It lets a type parameter pass, though, and what is put in for the parameter later is not
looked at. So a type that is put around a parameter may come to be `NonEmpty<int>`,
`numbers_said_nonEmpty`.

Nothing else goes wrong. Substitution leaves every `NonEmpty` around a sequence exactly if it puts
sequences in for the parameters that stand under one, `Ty.Filled.apply_iff`. So if aliases are used
with arguments that fit in this sense, `Program.Fitting`, then every `NonEmpty` in a type that is
written in an accepted program is around a string, an array or a type parameter, and the types of
fields tell what arguments they need, `nonEmpty_of_sequences`.
-/

namespace Statute

open Checking List

variable {params : List String}

/-!
## Sequences
-/

namespace Ty

variable {t : Ty}

/-- A string or an array, whatever constraints there are around it. -/
def IsSequence (t : Ty) : Prop := t.core = .prim .string ∨ ∃ item, t.core = .array item

/-- A sequence, or a type parameter. -/
def MayBeSequence (t : Ty) : Prop := t.IsSequence ∨ ∃ v, t.core = .var v

/-- Every `NonEmpty` in the type is around a sequence. -/
def Sized (t : Ty) : Prop := ∀ inner, .nonEmpty inner ∈ t.parts → inner.IsSequence

/-- If the type is a `NonEmpty`, then it is around what may be a sequence. -/
def FilledHere (u : Ty) : Prop := ∀ inner, u = .nonEmpty inner → inner.MayBeSequence

/-- Every `NonEmpty` in the type is around what may be a sequence. -/
abbrev Filled (t : Ty) : Prop := t.Every FilledHere

/-- What resolution makes sure of. -/
def ProperHere (u : Ty) : Prop := u ≠ .unknown ∧ u.FilledHere

/-- Every `NonEmpty` in the type is around what may be a sequence, and nothing is unknown. -/
abbrev Proper (t : Ty) : Prop := t.Every ProperHere

theorem Proper.filled (h : t.Proper) : t.Filled := Every.mono h fun _ hu => hu.2

theorem MayBeSequence.congr {u : Ty} (h : t.MayBeSequence) (hcore : u.core = t.core) :
    u.MayBeSequence := by
  unfold MayBeSequence IsSequence at h ⊢
  rwa [hcore]

/-- The operands that resolution lets pass. -/
theorem Proper.mayBeSequence (h : t.Proper) (hsized : isSized t) : t.MayBeSequence := by
  unfold isSized at hsized
  split at hsized
  next hcore => exact .inl (.inl hcore)
  next item hcore => exact .inl (.inr ⟨item, hcore⟩)
  next hcore =>
    have hprim (p : Prim) : (Ty.prim p).ProperHere := ⟨by simp, fun _ hu => by cases hu⟩
    exact absurd hcore (Every.core h hprim).self.1
  next v hcore => exact .inr ⟨v, hcore⟩
  · cases hsized

theorem Sized.filled (h : t.Sized) : t.Filled := by
  intro u hu inner hinner
  subst hinner
  exact .inl (h inner hu)

/-- Where the type parameters are known, what may be a sequence is one or is among them. -/
theorem Filled.sequence_or_param {inner : Ty} (h : t.Filled) (hover : t.Over params)
    (hinner : .nonEmpty inner ∈ t.parts) :
    inner.IsSequence ∨ ∃ v ∈ params, inner.core = .var v := by
  rcases h _ hinner inner rfl with hsequence | ⟨v, hv⟩
  · exact .inl hsequence
  have hparams := (Every.nonEmpty_iff.mp (Every.part hover hinner)).2
  have hcore := (Every.core hparams (by simp)).self
  exact .inr ⟨v, hcore v hv, hv⟩

/-- Without type parameters there is nothing but sequences. -/
theorem Over.sized_iff (h : t.Over []) : t.Sized ↔ t.Filled := by
  refine ⟨Sized.filled, fun hfilled inner hinner => ?_⟩
  rcases hfilled.sequence_or_param h hinner with hsequence | ⟨v, hv, -⟩
  · exact hsequence
  · cases hv

end Ty

/-!
## Substitution
-/

/-- What is put in for parameters that stand under a `NonEmpty` of the type may be a sequence. -/
def Binding.Fits (b : Binding) (t : Ty) : Prop :=
  ∀ inner v, .nonEmpty inner ∈ t.parts → inner.core = .var v →
    (b.apply (.var v)).MayBeSequence

namespace Ty

variable {b : Binding} {t : Ty}

theorem MayBeSequence.apply (h : t.MayBeSequence)
    (hvar : ∀ v, t.core = .var v → (b.apply (.var v)).MayBeSequence) :
    (b.apply t).MayBeSequence := by
  have hcore := b.core_apply t
  rcases h with (hstring | ⟨item, harray⟩) | ⟨v, hv⟩
  · rw [hstring] at hcore
    exact .inl (.inl hcore)
  · rw [harray] at hcore
    exact .inl (.inr ⟨b.apply item, hcore⟩)
  · rw [hv] at hcore
    exact (hvar v hv).congr hcore

/-- Substitution leaves every `NonEmpty` around what may be a sequence exactly if it puts such types
in for the parameters under one. -/
theorem Filled.apply_iff (h : t.Filled) (hb : b.Every FilledHere) :
    (b.apply t).Filled ↔ b.Fits t := by
  constructor
  · intro happly inner v hinner hv
    have hmem : .nonEmpty (b.apply inner) ∈ (b.apply t).parts := b.apply_mem_parts hinner
    refine (happly _ hmem _ rfl).congr ?_
    rw [b.core_apply inner, hv]
  · intro hfits
    have hparts : t.Every fun u => ∀ inner, u = .nonEmpty inner → inner.MayBeSequence ∧
        ∀ v, inner.core = .var v → (b.apply (.var v)).MayBeSequence := by
      intro u hu inner hinner
      subst hinner
      exact ⟨h _ hu inner rfl, fun v hv => hfits inner v hu hv⟩
    refine hparts.replace (fun u hu hvar inner hinner => ?_) fun v _ => ?_
    · -- only a `NonEmpty` becomes one, as parameters are put aside
      cases u with
      | nonEmpty base =>
        obtain ⟨hbase, hbound⟩ := hu base rfl
        cases hinner
        exact hbase.apply hbound
      | var v => exact absurd rfl (hvar v)
      | _ => simp [Binding.apply] at hinner
    · rw [Binding.apply]
      cases hget : b.get? v with
      | none => exact .leaf rfl fun inner hinner => by cases hinner
      | some u => exact hb v u hget

theorem Proper.apply (h : t.Proper) (hb : b.Every ProperHere) (hfits : b.Fits t) :
    (b.apply t).Proper := by
  have hfilled : (b.apply t).Filled :=
    (h.filled.apply_iff fun v u hu => (hb v u hu).mono fun _ hw => hw.2).mpr hfits
  have hknown : (b.apply t).Every (· ≠ .unknown) := by
    refine Every.apply (fun u hu hvar => ?_) (fun v u hu => (hb v u hu).mono fun _ hw => hw.1)
      (h.mono fun _ hu => hu.1)
    cases u with
    | unknown => exact absurd rfl hu
    | var v => exact absurd rfl (hvar v)
    | _ => simp [Binding.apply]
  exact fun u hu => ⟨hknown u hu, hfilled u hu⟩

/-- What becomes of a type when all its parameters are given types without parameters. -/
theorem Filled.sized_apply_iff {args : List Ty} (h : t.Filled) (hover : t.Over params)
    (hlength : args.length = params.length) (hargs : ∀ a ∈ args, a.hasVar = false ∧ a.Sized) :
    ((Binding.ofLists params args).apply t).Sized ↔ (Binding.ofLists params args).Fits t := by
  have hclosed : ((Binding.ofLists params args).apply t).Over [] :=
    hover.apply_ofLists hlength.symm fun a ha => hasVar_eq_false_iff.mp (hargs a ha).1
  rw [hclosed.sized_iff]
  exact h.apply_iff (Binding.every_ofLists fun a ha => (hargs a ha).2.filled)

end Ty

/-!
## Uses of aliases
-/

mutual

/-- The names of declared types in an expression with the arguments that they are given, where the
names in `params` are type parameters. The arguments of a built-in name do not matter. -/
def TypeExpr.uses (params : List String) : TypeExpr → List (String × List TypeExpr)
  | .named _ name args =>
    if args.isEmpty && params.contains name.name then []
    else if (Prim.ofName? name.name).isSome then []
    else (name.name, args) :: usesAll params args
  | .refine _ base _ _ => base.uses params
  | .temporal _ inner _ _ => inner.uses params
  | .array _ inner => inner.uses params
  | .positive _ inner => inner.uses params
  | .nonEmpty _ inner => inner.uses params
  | .union _ a b => a.uses params ++ b.uses params
  | .prim _ _ | .var _ _ | .citation _ _ | .validDate _ _ _ | .moneyIn _ _ => []

/-- The uses in several expressions. -/
def usesAll (params : List String) : List TypeExpr → List (String × List TypeExpr)
  | [] => []
  | t :: ts => t.uses params ++ usesAll params ts

end

variable {span : Span} {name : Ident} {args : List TypeExpr}

theorem uses_named (hparam : ¬(args = [] ∧ name.name ∈ params))
    (hprim : Prim.ofName? name.name = none) :
    (TypeExpr.named span name args).uses params = (name.name, args) :: usesAll params args := by
  rw [TypeExpr.uses, if_neg (by simpa using hparam), hprim]
  rfl

variable {t : TypeExpr}

theorem uses_compound (ht : t.isName = false) : t.uses params = usesAll params t.components := by
  cases t with
  | named | var => cases ht
  | _ => simp [TypeExpr.uses, usesAll, TypeExpr.components]

/-- If the use is one of an alias, then the arguments fit what the alias stands for. -/
def Env.FitsAt (env : Env) (ambient params : List String) (use : String × List TypeExpr) : Prop :=
  ∀ ps target, env.IsAlias use.1 ps target →
    (Binding.ofLists ps (use.2.map fun a => (resolve env ambient params a).value)).Fits
      (resolve env ambient ps target).value

/-- All aliases in the expression are used with arguments that fit. -/
def Env.Fitting (env : Env) (ambient params : List String) (t : TypeExpr) : Prop :=
  ∀ use ∈ t.uses (params ++ ambient), env.FitsAt ambient params use

/-- All aliases that are used in the types of the program, or in the targets of aliases where these
types are written, are used with arguments that fit. -/
def Program.Fitting (p : Program) (env : Env) : Prop :=
  ∀ ambient params t, p.Writes ambient params t → env.Fitting ambient params t ∧
    ∀ name ps target, env.IsAlias name ps target → env.Fitting ambient ps target

variable {tys : List Ty}

/-!
## Resolution
-/

section Resolve

variable {env : Env} {ambient params : List String}

theorem Gives.eq_value {β : Type} {x : Checking β} {b : β} (h : Gives x b) (hx : OnlyAdds x) :
    b = x.value := by
  obtain ⟨r, rfl, -⟩ := h
  exact hx.run_eq_value r

theorem onlyAdds_target (_ : String) (ps : List String) (target : TypeExpr) :
    OnlyAdds (resolve env ambient ps target) :=
  (tame_resolveIn _ _ ps target).onlyAdds

theorem value_resolveAllWith (hacyclic : env.Acyclic) (ts : List TypeExpr) :
    (resolveAllWith env ambient (fun _ ps target => resolve env ambient ps target) [] params
      ts).value = ts.map fun t => (resolve env ambient params t).value := by
  induction ts with
  | nil => rfl
  | cons t ts ih =>
    rw [resolveAllWith, OnlyAdds.value_bind ((onlyAdds_resolveAllWith onlyAdds_target ts).map _),
      ← Env.resolve_unfold hacyclic]
    exact congrArg (_ :: ·) ih

/-- The aliases among `names` stand for proper types. -/
def Env.FillsAliases (env : Env) (ambient names : List String) : Prop :=
  ∀ name ∈ names, ∀ ps target, env.IsAlias name ps target →
    Passes (resolve env ambient ps target) Ty.Proper

theorem Env.FillsAliases.mono {names names' : List String} (h : env.FillsAliases ambient names)
    (hsub : names' ⊆ names) : env.FillsAliases ambient names' :=
  fun name hname => h name (hsub hname)

theorem Ty.properHere_of_ne {u : Ty} (hknown : u ≠ .unknown) (hu : ∀ inner, u ≠ .nonEmpty inner) :
    u.ProperHere :=
  ⟨hknown, fun inner hinner => absurd hinner (hu inner)⟩

theorem passes_resolveDeclared_proper (haliases : env.FillsAliases ambient [name.name])
    (hfits : env.FitsAt ambient params (name.name, args))
    (htys : tys = args.map fun a => (resolve env ambient params a).value) :
    Passes (resolveDeclared env (fun _ ps target => resolve env ambient ps target) [] span name tys)
      fun t => (∀ a ∈ tys, a.Proper) → t.Proper := by
  unfold resolveDeclared Env.instantiate
  cases hd : env.lookup name.name with
  | none => exact .fault (.pure _)
  | some d =>
    by_cases harity : (d.params.length == tys.length) = true
    · simp only [if_pos harity]
      cases hbody : d.body with
      | struct parent fields =>
        refine .pure fun hargs => Ty.Every.struct_iff.mpr ⟨?_, hargs⟩
        exact Ty.properHere_of_ne (by simp) (by simp)
      | enum info => exact .pure fun _ => .leaf rfl (Ty.properHere_of_ne (by simp) (by simp))
      | synonym target =>
        have ha : env.IsAlias name.name d.params target := ⟨d, hd, rfl, hbody⟩
        have htarget := haliases _ mem_cons_self _ _ ha
        refine htarget.gives.bind fun t => .pure fun ht hargs => ?_
        obtain ⟨hgives, hproper⟩ := ht
        refine hproper.apply (Binding.every_ofLists hargs) ?_
        rw [hgives.eq_value htarget.onlyAdds, htys]
        exact hfits _ _ ha
    · simp only [if_neg harity]
      exact .fault (.pure _)

/-- Of operands something is asked by `NonEmpty` only. -/
theorem passes_review_proper (ht : t.isName = false) (hlen : tys.length = t.components.length) :
    Passes (t.review tys) fun _ => (∀ u ∈ tys, u.Proper) → (t.build tys).ProperHere := by
  by_cases hnonEmpty : ∃ span inner, t = .nonEmpty span inner
  · obtain ⟨span, inner, rfl⟩ := hnonEmpty
    obtain ⟨u, rfl⟩ := length_eq_one_iff.mp hlen
    refine (Passes.faultIf _ _ _).mono fun _ hsized htys => ⟨by simp [TypeExpr.build], ?_⟩
    rintro _ ⟨⟩
    exact (htys u mem_cons_self).mayBeSequence (by simpa using hsized)
  · have hreview : Passes (t.review tys) fun _ => (t.build tys).SoundHere {} := passes_review ht hlen
    refine hreview.mono fun _ hsound _ => ⟨fun h => ?_, fun u hu => ?_⟩
    · rw [h] at hsound
      exact hsound
    · fun_cases TypeExpr.build t tys <;> simp_all [TypeExpr.build]

/-- One level of resolution, where aliases stand for proper types and are used with arguments that
fit. -/
theorem passes_resolveWith_proper (hacyclic : env.Acyclic)
    (haliases : env.FillsAliases ambient (t.mentions params)) (hfits : env.Fitting ambient params t)
    :
    Passes (resolveWith env ambient (fun _ ps target => resolve env ambient ps target) [] params t)
      Ty.Proper := by
  have leaf {u : Ty} (hu : u.components = []) (hknown : u ≠ .unknown) : u.Proper :=
    .leaf hu (Ty.properHere_of_ne hknown fun inner h => by cases h; cases hu)
  induction t using TypeExpr.induction with
  | h t ih =>
    have hall {ts : List TypeExpr} (hts : ts ⊆ t.components)
        (haliases : env.FillsAliases ambient (mentionsAll params ts))
        (hfits : ∀ use ∈ usesAll (params ++ ambient) ts, env.FitsAt ambient params use) :
        Passes (resolveAllWith env ambient (fun _ ps target => resolve env ambient ps target) []
          params ts) fun us => us.length = ts.length ∧ ∀ u ∈ us, u.Proper := by
      induction ts with
      | nil => exact .pure (by simp)
      | cons t ts ihs =>
        obtain ⟨ht, hts⟩ := cons_subset.mp hts
        rw [usesAll, forall_mem_append] at hfits
        refine (ih t ht (haliases.mono (subset_append_left _ _)) hfits.1).bind fun u => ?_
        refine (ihs hts (haliases.mono (subset_append_right _ _)) hfits.2).bind fun us => ?_
        exact .pure fun hus hu =>
          ⟨congrArg (· + 1) hus.1, forall_mem_cons.mpr ⟨hu, hus.2⟩⟩
    cases t with
    | var span v =>
      rw [resolveWith]
      split
      · exact .pure (leaf rfl (by simp))
      · exact .fault (.pure _)
    | named span name args =>
      rw [resolveWith]
      split
      · exact .pure (leaf rfl (by simp))
      next hparam =>
        have hparam' : ¬(args = [] ∧ name.name ∈ params ++ ambient) := by simpa using hparam
        cases hprim : Prim.ofName? name.name with
        | some p => exact .pure (leaf rfl (by simp))
        | none =>
          have hown : ¬(args = [] ∧ name.name ∈ params) :=
            fun h => hparam' ⟨h.1, mem_append_left _ h.2⟩
          rw [mentions_named hown hprim] at haliases
          rw [Env.Fitting, uses_named hparam' hprim, forall_mem_cons] at hfits
          have hargs := hall (List.Subset.refl _) (haliases.mono (subset_cons_self _ _)) hfits.2
          refine hargs.gives.bind fun tys => ?_
          refine (onlyAdds_resolveDeclared onlyAdds_target span name tys).passes fun t ht htys => ?_
          have hvalue := (htys.1.eq_value hargs.onlyAdds).trans (value_resolveAllWith hacyclic args)
          exact (passes_resolveDeclared_proper (haliases.mono (by simp)) hfits.1 hvalue).result t ht
            htys.2.2
    | _ =>
      rw [TypeExpr.mentions_compound rfl] at haliases
      rw [Env.Fitting, uses_compound rfl] at hfits
      rw [resolveWith_compound rfl]
      refine (hall (List.Subset.refl _) haliases hfits).bind fun tys => ?_
      refine (tame_review _ tys).onlyAdds.gives.bind fun u => .pure fun hu htys => ?_
      exact TypeExpr.every_build ((passes_review_proper rfl htys.1).result u hu htys.2) htys.2

/-- Where aliases are used with arguments that fit, a type that resolves with nothing reported is
proper. -/
theorem passes_resolve_proper (hacyclic : env.Acyclic)
    (htargets : ∀ name ps target, env.IsAlias name ps target → env.Fitting ambient ps target)
    {opened : List String} (habove : env.Above opened (t.mentions params))
    (hfits : env.Fitting ambient params t) : Passes (resolve env ambient params t) Ty.Proper := by
  induction opened using env.opened_induction generalizing params t with
  | _ opened ih =>
    rw [Env.resolve_unfold hacyclic]
    refine passes_resolveWith_proper hacyclic (fun name hname ps target ha => ?_) hfits
    have hdefined : name ∈ env.defs.map (·.name) := Env.mem_names_of_lookup ha.choose_spec.1
    exact ih name hdefined (habove.not_mem hacyclic hname ha) (habove.expand hname ha)
      (htargets name ps target ha)

end Resolve

/-!
## Accepted programs
-/

section Accepted

variable {p : Program} {options : CheckOptions} {cp : CheckedProgram}

/-- All types that are written in an accepted program are filled, if the aliases in them are used
with arguments that fit. -/
theorem filled_of_writes (h : p.check options = .ok cp) (hfits : p.Fitting cp.env)
    {ambient : List String} (ht : p.Writes ambient params t) :
    (resolve cp.env ambient params t).value.Filled := by
  obtain ⟨hfitting, htargets⟩ := hfits ambient params t ht
  have hproper := passes_resolve_proper (acyclic_of_check h) htargets (Env.Above.nil _) hfitting
  obtain ⟨u, hu⟩ := resolves_of_writes h ht
  rw [← hu.eq_value hproper.onlyAdds]
  exact (hproper.result u hu).filled

/-- The types of fields are written in the program. -/
theorem filled_effectiveFields (h : p.check options = .ok cp) (hfits : p.Fitting cp.env) {id : Nat}
    {f : Field} (hf : f ∈ cp.env.effectiveFields id) : f.type.Filled := by
  have henv := (Rounds.of_check h).1
  obtain ⟨s, hs, hf⟩ := p.exists_placed_of_field (henv ▸ hf)
  obtain ⟨d, hd, rfl⟩ := mem_map.mp hf
  exact henv ▸ filled_of_writes h hfits (.declared (p.collected.placed s hs).1 (.field hd))

/-- In an accepted program whose aliases are used with arguments that fit, every `NonEmpty` in a
type that is written is around a string, an array or one of the type parameters at hand. What an
alias stands for when it is given types without parameters, and the type of a field of a struct that
is, have `NonEmpty` around strings and arrays only exactly if the arguments fit. -/
theorem nonEmpty_of_sequences (h : p.check options = .ok cp) (hfits : p.Fitting cp.env) :
    (∀ ambient params t, p.Writes ambient params t →
      ∀ inner, .nonEmpty inner ∈ (resolve cp.env ambient params t).value.parts →
        inner.IsSequence ∨ ∃ v ∈ params ++ ambient, inner.core = .var v) ∧
    (∀ a, .synonym a ∈ p.leaves → ∀ args : List Ty, args.length = a.params.length →
      (∀ u ∈ args, u.hasVar = false ∧ u.Sized) →
      (((Binding.ofLists (a.params.map (·.name)) args).apply
          (resolve cp.env [] (a.params.map (·.name)) a.target).value).Sized ↔
        (Binding.ofLists (a.params.map (·.name)) args).Fits
          (resolve cp.env [] (a.params.map (·.name)) a.target).value)) ∧
    ∀ s ∈ p.structs, ∃ id, s.Stored cp.env id ∧ ∀ args : List Ty, args.length = s.params.length →
      (∀ u ∈ args, u.hasVar = false ∧ u.Sized) →
      ∀ field t, cp.env.fieldType? s.name.name args field = some t →
        ∃ f ∈ cp.env.effectiveFields id, f.name = field ∧
          t = (Binding.ofLists (s.params.map (·.name)) args).apply f.type ∧
          (t.Sized ↔ (Binding.ofLists (s.params.map (·.name)) args).Fits f.type) := by
  have hover (ambient params : List String) (t : TypeExpr) :
      (resolve cp.env ambient params t).value.Over (params ++ ambient) :=
    (over_resolveIn _ _ _ t).value
  refine ⟨fun ambient params t ht inner hinner => ?_, fun a ha args hlength hargs => ?_,
    fun s hs => ?_⟩
  · exact (filled_of_writes h hfits ht).sequence_or_param (hover ambient params t) hinner
  · have htarget := hover [] (a.params.map (·.name)) a.target
    rw [append_nil] at htarget
    refine (filled_of_writes h hfits (.declared ha .target)).sized_apply_iff htarget ?_ hargs
    rw [hlength, length_map]
  · obtain ⟨henv, hrounds⟩ := Rounds.of_check h
    obtain ⟨id, hstored⟩ := hrounds.exists_stored hs
    refine ⟨id, henv ▸ hstored, fun args hlength hargs field t ht => ?_⟩
    rw [henv, hstored.fieldType?_eq] at ht
    obtain ⟨f, hfind, rfl⟩ := Option.map_eq_some_iff.mp ht
    have hf : f ∈ p.declared.effectiveFields id :=
      mem_reverse.mp (mem_of_find?_eq_some hfind)
    have hname : f.name = field := by simpa using find?_some hfind
    refine ⟨f, henv ▸ hf, hname, rfl, ?_⟩
    refine (filled_effectiveFields h hfits (henv ▸ hf)).sized_apply_iff
      (hrounds.over_effectiveFields hstored f hf) ?_ hargs
    rw [hlength, length_map]

end Accepted

/-- What is not empty, whatever it is. -/
def filledAlias : AliasDecl where
  span := {}
  name := "Filled"
  params := ["T"]
  target := .nonEmpty {} (.var {} "T")

/-- The alias with an argument. -/
def filledWith (arg : TypeExpr) : TypeExpr := .named {} "Filled" [arg]

/-- A register with at least one entry, of any type. -/
def registerDecl : StructDecl where
  span := {}
  name := "Register"
  params := ["E"]
  parent := none
  fields := [⟨{}, "entries", filledWith (.array {} (.var {} "E")), none⟩]

def archiveDecl : StructDecl where
  span := {}
  name := "Archive"
  params := []
  parent := none
  fields := [⟨{}, "keeper", filledWith (.prim {} .string), none⟩,
    ⟨{}, "register", .named {} "Register" [.prim {} .int], none⟩]

/-- Registers and the archive that keeps them. -/
def archives : Program where
  name := "archives"
  items := [.synonym filledAlias, .struct registerDecl, .struct archiveDecl]

def archivesEnv : Env where
  defs := [filledAlias.typeDef,
    ⟨"Register", {}, ["E"],
      .struct none [⟨"entries", .nonEmpty (.array (.var "E")), {}, none, "Register"⟩]⟩,
    ⟨"Archive", {}, [], .struct none [⟨"keeper", .nonEmpty (.prim .string), {}, none, "Archive"⟩,
      ⟨"register", .struct "Register" [.int], {}, none, "Archive"⟩]⟩]

theorem check_archives : archives.check = .ok ⟨archives, archivesEnv, []⟩ := check_eq_ok rfl

theorem archives_leaves : archives.leaves =
    [.synonym filledAlias, .struct registerDecl, .struct archiveDecl] :=
  rfl

/-- There is one alias. -/
theorem eq_of_isAlias_archives {name ps} {target : TypeExpr}
    (h : archivesEnv.IsAlias name ps target) : ps = ["T"] ∧ target = filledAlias.target := by
  obtain ⟨d, hd, rfl, hbody⟩ := h
  have hmem := mem_of_find?_eq_some hd
  simp only [archivesEnv, mem_cons, not_mem_nil, or_false] at hmem
  rcases hmem with rfl | rfl | rfl
  · cases hbody
    exact ⟨rfl, rfl⟩
  · cases hbody
  · cases hbody

/-- Arrays and strings are given to the alias. -/
theorem archives_fitting : archives.Fitting archivesEnv := by
  have hfits {params : List String} {name : String} {arg : TypeExpr}
      (harg : (resolve archivesEnv [] params arg).value.MayBeSequence) :
      archivesEnv.FitsAt [] params (name, [arg]) := by
    intro ps target ha inner v hinner hv
    obtain ⟨rfl, rfl⟩ := eq_of_isAlias_archives ha
    have hvalue : (resolve archivesEnv [] ["T"] filledAlias.target).value = .nonEmpty (.var "T") :=
      rfl
    rw [hvalue] at hinner
    obtain rfl : inner = .var "T" := by simpa [Ty.parts] using hinner
    cases hv
    exact harg
  have htargets (name : String) (ps : List String) (target : TypeExpr)
      (ha : archivesEnv.IsAlias name ps target) : archivesEnv.Fitting [] ps target := by
    obtain ⟨rfl, rfl⟩ := eq_of_isAlias_archives ha
    exact fun use huse => nomatch huse
  intro ambient params t ht
  cases ht with
  | declared hi h =>
    refine ⟨fun use huse => ?_, htargets⟩
    simp only [archives_leaves, mem_cons, not_mem_nil, or_false] at hi
    rcases hi with rfl | rfl | rfl
    · cases h
      cases huse
    · cases h with
      | field hf =>
        cases mem_singleton.mp hf
        cases mem_singleton.mp huse
        exact hfits (.inl (.inr ⟨_, rfl⟩))
    · cases h with
      | field hf =>
        rcases mem_pair.mp hf with rfl | rfl
        · cases mem_singleton.mp huse
          exact hfits (.inl (.inl rfl))
        cases mem_singleton.mp huse
        intro ps target ha
        cases Env.isAlias_iff.mp ha
  | condition hs hf hc h =>
    rcases mem_pair.mp hs with rfl | rfl
    · cases mem_singleton.mp hf
      cases hc
    rcases mem_pair.mp hf with rfl | rfl
    · cases hc
    · cases hc
  | value hd h => simp [archives_leaves] at hd
  | principle hq h => simp [archives_leaves] at hq
  | body hf hb hs h => simp [archives_leaves] at hf

/-- The keeper of an archive has a name, and the entries of a register may be of any type, as there
is a list of them. Numbers do not fit the alias that both make use of. -/
theorem archives_nonEmpty :
    archives.check = .ok ⟨archives, archivesEnv, []⟩ ∧ archives.Fitting archivesEnv ∧
    (resolve archivesEnv [] [] (filledWith (.prim {} .string))).value = .nonEmpty (.prim .string) ∧
    Ty.IsSequence (.prim .string) ∧
    archivesEnv.fieldType? "Register" [.int] "entries" = some (.nonEmpty (.array .int)) ∧
    Ty.Sized (.nonEmpty (.array .int)) ∧
    ¬ ((Binding.ofLists ["T"] [.int]).apply
      (resolve archivesEnv [] ["T"] filledAlias.target).value).Sized := by
  obtain ⟨hwritten, haliases, hfields⟩ := nonEmpty_of_sequences check_archives archives_fitting
  have hint : ∀ u ∈ [Ty.int], u.hasVar = false ∧ u.Sized := by
    intro u hu
    cases mem_singleton.mp hu
    exact ⟨rfl, fun inner hinner => nomatch mem_singleton.mp hinner⟩
  refine ⟨check_archives, archives_fitting, rfl, ?_, rfl, ?_, ?_⟩
  · have hleaf : .struct archiveDecl ∈ archives.leaves := by simp [archives_leaves]
    have hkeeper := hwritten [] [] _ (.declared hleaf (.field mem_cons_self)) (.prim .string)
      mem_cons_self
    simpa using hkeeper
  · obtain ⟨id, hstored, hentries⟩ := hfields registerDecl mem_cons_self
    obtain rfl : 1 = id := Option.some.inj hstored.place
    obtain ⟨f, hf, -, -, hsized⟩ := hentries [.int] rfl hint "entries" _ rfl
    -- the type parameter stands under the array, not under `NonEmpty`
    obtain rfl := mem_singleton.mp hf
    refine hsized.mpr fun inner v hinner hv => ?_
    obtain rfl : inner = .array (.var "E") := by simpa [Ty.parts] using hinner
    cases hv
  · intro hsized
    have hfits := (haliases filledAlias mem_cons_self [.int] rfl hint).mp hsized
    rcases hfits (.var "T") "T" mem_cons_self rfl with (h | ⟨item, h⟩) | ⟨v, h⟩ <;> cases h

def formDecl : StructDecl where
  span := {}
  name := "Form"
  params := []
  parent := none
  fields := [⟨{}, "pages", filledWith (.prim {} .int), none⟩]

def boxDecl : StructDecl where
  span := {}
  name := "Box"
  params := ["T"]
  parent := none
  fields := [⟨{}, "content", .nonEmpty {} (.var {} "T"), none⟩]

/-- A number of pages that is said not to be empty, by way of an alias or of a type parameter. -/
def forms : Program where
  name := "forms"
  items := [.synonym filledAlias, .struct formDecl, .struct boxDecl]

def formsEnv : Env where
  defs := [filledAlias.typeDef,
    ⟨"Form", {}, [], .struct none [⟨"pages", .nonEmpty .int, {}, none, "Form"⟩]⟩,
    ⟨"Box", {}, ["T"], .struct none [⟨"content", .nonEmpty (.var "T"), {}, none, "Box"⟩]⟩]

/-- The program is accepted, although an alias makes a `NonEmpty` around a number, and so does
reading a field with a number for its type parameter. -/
theorem numbers_said_nonEmpty :
    forms.check = .ok ⟨forms, formsEnv, []⟩ ∧
    forms.Writes [] [] (filledWith (.prim {} .int)) ∧
    .nonEmpty .int ∈ (resolve formsEnv [] [] (filledWith (.prim {} .int))).value.parts ∧
    formsEnv.fieldType? "Box" [.int] "content" = some (.nonEmpty .int) ∧
    ¬ Ty.IsSequence .int := by
  have hleaf : .struct formDecl ∈ forms.leaves := mem_cons_of_mem _ mem_cons_self
  refine ⟨check_eq_ok rfl, ?_, mem_cons_self, rfl, ?_⟩
  · exact .declared hleaf (.field (f := formDecl.fields[0]) mem_cons_self)
  · rintro (h | ⟨item, h⟩) <;> cases h

end Statute
