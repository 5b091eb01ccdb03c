import Statute.Proofs.Check.Signatures

/-!
# How structs are stored

Every struct of a program whose name is not taken has a place among the definitions, and at that
place stand its parent and its fields as they are declared: `StructDecl.Stored`. In an accepted
program all structs have a place, `Rounds.placed`, and they extend only structs without type
parameters, `Rounds.hasParentIn`. An enum is declared under its own name, `enum_name_of_check`, and
no definition has the name of a built-in type, `lookup_of_check`.
-/

namespace Statute

open Checking List

variable {env : Env} {id : Nat} {d : TypeDef} {options : CheckOptions} {cp : CheckedProgram}

/-!
## Places
-/

theorem Env.lt_size_of_struct? (h : (env.struct? id).isSome) : id < env.size := by
  unfold Env.struct? at h
  split at h
  next hd => exact (List.getElem?_eq_some_iff.mp hd).1
  · cases h

theorem settles_declareType (env : Env) (d : TypeDef) (span : Span) :
    Settles (declareType env d span) (env.Declares d) fun r =>
      r = ({ env with defs := env.defs ++ [d] }, some env.size) := by
  unfold declareType
  split
  next hbuiltin =>
    refine .fault (.taken fun hfree => ?_)
    simp [hfree.2] at hbuiltin
  next hbuiltin =>
    unfold Env.declare
    cases hplace : env.idOf? d.name with
    | none => exact .pure (.added ⟨Env.idOf?_eq_none_iff.mp hplace, by simpa using hbuiltin⟩) rfl
    | some id =>
      refine .fault (.taken fun hfree => ?_)
      rw [Env.idOf?_eq_none_iff.mpr hfree.1] at hplace
      cases hplace

/-- What collecting names does. Where it goes through, every type is defined and every struct gets a
place. -/
theorem settles_collectTypes (env : Env) (items : List Item) :
    Settles (collectTypes env items) (Gathers env items) fun r =>
      r.1.defs = env.defs ++ items.filterMap Item.typeDef? ∧
        r.2.map (·.decl) = items.filterMap Item.struct? := by
  induction items generalizing env with
  | nil => exact .pure .nil ⟨by simp, rfl⟩
  | cons i items ih =>
    cases i with
    | struct s =>
      refine (settles_declareType env s.typeDef _).bind fun r hr => (ih r.1).bind fun r' hr' => ?_
      refine .pure ?_ fun hrest hplace => ?_
      · cases hr with
        | taken htaken => exact .taken (i := .struct s) rfl htaken hr'
        | added hfree => exact .added (i := .struct s) rfl hfree hr'
      · subst hplace
        exact ⟨by rw [hrest.1, append_assoc]; rfl, congrArg (s :: ·) hrest.2⟩
    | enum e =>
      refine (tame_checkVariants _ _ _).onlyAdds.settles.bind fun _ _ => ?_
      refine (settles_declareType env _ _).bind fun r hr => (ih r.1).mono (fun r' hr' => ?_) ?_
      · cases hr with
        | taken htaken => exact .taken (i := .enum e) rfl htaken hr'
        | added hfree => exact .added (i := .enum e) rfl hfree hr'
      intro r' hrest hplace _
      subst hplace
      exact ⟨by rw [hrest.1, append_assoc]; rfl, hrest.2⟩
    | synonym a =>
      refine (settles_declareType env _ _).bind fun r hr => (ih r.1).mono (fun r' hr' => ?_) ?_
      · cases hr with
        | taken htaken => exact .taken (i := .synonym a) rfl htaken hr'
        | added hfree => exact .added (i := .synonym a) rfl hfree hr'
      intro r' hrest hplace
      subst hplace
      exact ⟨by rw [hrest.1, append_assoc]; rfl, hrest.2⟩
    | test | principle | function | value | scope =>
      exact (ih env).mono (fun _ h => .skip rfl h) fun _ h => h

/-- What collecting the names of items adds to the declarations: `r` holds the declarations after it
and the structs that got a place. -/
structure Collected (env : Env) (items : List Item) (r : Env × List DeclaredStruct) : Prop where
  kept : env.defs <+: r.1.defs
  distinct : (env.defs.map (·.name)).Nodup → (r.1.defs.map (·.name)).Nodup
  placed : ∀ s ∈ r.2, Item.struct s.decl ∈ items ∧ env.size ≤ s.id ∧
    r.1.def? s.id = some s.decl.typeDef
  complete : ∀ id, env.size ≤ id → (r.1.struct? id).isSome = true → ∃ s ∈ r.2, s.id = id
  ordered : r.2.Pairwise fun s s' => s.id < s'.id
  others : r.1.tests = env.tests ∧ r.1.functions = env.functions

namespace Collected

variable {env : Env} {items : List Item} {r : Env × List DeclaredStruct}

theorem skip {i : Item} (h : Collected env items r) : Collected env (i :: items) r := by
  refine ⟨h.kept, h.distinct, fun s hs => ?_, h.complete, h.ordered, h.others⟩
  obtain ⟨hmem, hrest⟩ := h.placed s hs
  exact ⟨mem_cons_of_mem i hmem, hrest⟩

/-- The first definition that is added stands right behind those that were there. -/
theorem def?_first (h : Collected { env with defs := env.defs ++ [d] } items r) :
    r.1.def? env.size = some d := by
  have hlt : env.size < (env.defs ++ [d]).length := by
    rw [length_append]
    exact Nat.lt_succ_self _
  have hget := prefix_iff_getElem?.mp h.kept env.size hlt
  unfold Env.def?
  rw [hget]
  simp [Env.size]

/-- A definition is added before the others; if it is that of a struct, the struct is placed. -/
theorem declare (h : Collected { env with defs := env.defs ++ [d] } items r)
    (s? : Option StructDecl) (hnew : d.name ∉ env.defs.map (·.name))
    (hs : ∀ s ∈ s?, Item.struct s ∈ items ∧ s.typeDef = d)
    (hcomplete : (r.1.struct? env.size).isSome → s?.isSome) :
    Collected env items (r.1, (s?.map fun s => ⟨env.size, s⟩).toList ++ r.2) := by
  have hsize : Env.size { env with defs := env.defs ++ [d] } = env.size + 1 :=
    length_append
  have hfirst : ∀ s ∈ (s?.map (DeclaredStruct.mk env.size)).toList,
      Item.struct s.decl ∈ items ∧ s.id = env.size ∧ s.decl.typeDef = d := by
    intro s hmem
    obtain ⟨s', hs', rfl⟩ := Option.map_eq_some_iff.mp (Option.mem_toList.mp hmem)
    exact ⟨(hs s' hs').1, rfl, (hs s' hs').2⟩
  refine ⟨(prefix_append _ _).trans h.kept, fun henv => ?_, fun s hs => ?_,
    fun id hid hstruct => ?_, ?_, h.others⟩
  · refine h.distinct ?_
    rw [map_append, nodup_append]
    refine ⟨henv, by simp, fun n hn m hm heq => ?_⟩
    rw [map_singleton, mem_singleton] at hm
    exact hnew (hm ▸ heq ▸ hn)
  · rcases mem_append.mp hs with hs | hs
    · grind [Collected.def?_first]
    obtain ⟨hmem, hid, hd⟩ := h.placed s hs
    rw [hsize] at hid
    exact ⟨hmem, Nat.le_of_succ_le hid, hd⟩
  · -- either the new definition, or one of those that follow
    by_cases heq : id = env.size
    · obtain ⟨s, hs⟩ := Option.isSome_iff_exists.mp (hcomplete (heq ▸ hstruct))
      exact ⟨⟨env.size, s⟩, by simp [hs], heq.symm⟩
    · obtain ⟨s, hs, hsid⟩ := h.complete id (by rw [hsize]; omega) hstruct
      exact ⟨s, mem_append_right _ hs, hsid⟩
  · rw [pairwise_append]
    refine ⟨by cases s? <;> simp, h.ordered, fun s hs s' hs' => ?_⟩
    have hlater := (h.placed s' hs').2.1
    rw [(hfirst s hs).2.1]
    omega

end Collected

variable {items : List Item} {r : Env × List DeclaredStruct}

theorem Gathers.collected (h : Gathers env items r) : Collected env items r := by
  induction h with
  | nil =>
    refine ⟨prefix_refl _, id, by simp, fun id hid hstruct => ?_, .nil, rfl, rfl⟩
    exact absurd (Env.lt_size_of_struct? hstruct) (Nat.not_lt.mpr hid)
  | skip _ _ ih | taken _ _ _ ih => exact ih.skip
  | @added env i items d r hi hfree _ ih =>
    refine ih.skip.declare i.struct? hfree.1 (fun s hs => ?_) fun hstruct => ?_
    · cases i <;> cases hs
      exact ⟨mem_cons_self, Option.some.inj hi⟩
    unfold Env.struct? at hstruct
    rw [ih.def?_first] at hstruct
    cases i <;> cases hi <;> trivial

/-!
## Parents and fields
-/

namespace StructDecl

/-- The place of the parent. -/
def parentIn (s : StructDecl) (env : Env) : Option Nat :=
  s.parent.bind fun parent => env.structId? parent.name

/-- The own fields with their types. -/
def fieldsIn (s : StructDecl) (env : Env) : List Field :=
  s.fields.map fun f => ⟨f.name.name, (resolve env [] (s.params.map (·.name)) f.type).value, f.span,
    f.condition, s.name.name⟩

variable {env env' : Env}

theorem parentIn_congr (s : StructDecl) (h : env.outline = env'.outline) :
    s.parentIn env = s.parentIn env' := by
  unfold parentIn
  congr 1
  funext parent
  exact Env.structId?_congr h parent.name

theorem fieldsIn_congr (s : StructDecl) (h : env.outline = env'.outline) :
    s.fieldsIn env = s.fieldsIn env' := by
  unfold fieldsIn
  simp only [resolve_congr h]

end StructDecl

/-- The fields of a struct are those that it declares, and their types go through if all do. -/
theorem settles_resolveFields (env : Env) (s : StructDecl) :
    Settles (resolveFields env s.name.name (s.params.map (·.name)) s.fields)
      (fun fields => fields = s.fieldsIn env)
      fun _ => ∀ f ∈ s.fields, GoesThrough (resolve env [] (s.params.map (·.name)) f.type) := by
  rw [resolveFields_eq]
  exact settles_resolveEach _

namespace Env

variable {env : Env} {id : Nat} {parent : Option Nat} {fields : List Field}

theorem struct?_eq_some_iff {parent fields} :
    env.struct? id = some (parent, fields) ↔
      ∃ d, env.def? id = some d ∧ d.body = .struct parent fields := by
  unfold struct?
  split
  next hd => simp [hd]
  next hd =>
    refine ⟨fun h => (nomatch h), fun ⟨d, hdef, hbody⟩ => ?_⟩
    obtain ⟨name, span, params, body⟩ := d
    cases hbody
    exact absurd hdef (hd _ _ _ _ _)

theorem def?_modify (f : TypeDef → TypeDef) (i : Nat) :
    (env.modify id f).def? i = (env.def? i).map fun d => if id = i then f d else d := by
  unfold modify def?
  rw [getElem?_modify, Option.map_eq_map]

/-- A change of one definition leaves the others as they are. -/
theorem def?_modify_ne (f : TypeDef → TypeDef) {i : Nat} (h : id ≠ i) :
    (env.modify id f).def? i = env.def? i := by
  rw [def?_modify]
  simp [h]

theorem struct?_modify {f : TypeDef → TypeDef} {parent' fields'}
    (h : env.struct? id = some (parent, fields))
    (hf : ∀ d, d.body = .struct parent fields → (f d).body = .struct parent' fields') :
    (env.modify id f).struct? id = some (parent', fields') := by
  obtain ⟨d, hd, hbody⟩ := struct?_eq_some_iff.mp h
  refine struct?_eq_some_iff.mpr ⟨f d, ?_, hf d hbody⟩
  rw [def?_modify, hd]
  simp

theorem struct?_setFields {old : List Field} (fields : List Field)
    (h : env.struct? id = some (parent, old)) :
    (env.setFields id fields).struct? id = some (parent, fields) :=
  struct?_modify h fun d hd => by simp [hd]

theorem struct?_setParent {old : Option Nat} (parent : Nat)
    (h : env.struct? id = some (old, fields)) :
    (env.setParent id parent).struct? id = some (some parent, fields) :=
  struct?_modify h fun d hd => by simp [hd]

end Env

/-- The parent of a struct is set if it is a struct, and nothing else is changed. -/
theorem returns_linkParent (env : Env) (s : DeclaredStruct) :
    Returns (linkParent env s) fun env' => env'.outline = env.outline ∧
      (env'.tests = env.tests ∧ env'.functions = env.functions) ∧
      (∀ i, s.id ≠ i → env'.def? i = env.def? i) ∧
      ∀ fields, env.struct? s.id = some (none, fields) →
        env'.struct? s.id = some (s.decl.parentIn env, fields) := by
  unfold linkParent StructDecl.parentIn
  split
  next hparent =>
    refine .pure ⟨rfl, ⟨rfl, rfl⟩, fun _ _ => rfl, fun fields hfields => ?_⟩
    rw [hparent]
    exact hfields
  next parent hparent =>
    rw [hparent, Option.bind_some]
    split
    next hid =>
      refine (Returns.any _).bind fun _ _ => ?_
      refine .pure ⟨rfl, ⟨rfl, rfl⟩, fun _ _ => rfl, fun fields hfields => ?_⟩
      rw [hid]
      exact hfields
    next pid hid =>
      refine (Returns.any _).bind fun _ _ => ?_
      refine .pure ⟨?_, ⟨rfl, rfl⟩, fun i hi => ?_, fun fields hfields => ?_⟩
      · exact Env.outline_setParent env s.id pid
      · exact Env.def?_modify_ne _ hi
      · grind [Env.struct?_setParent]

/-- What giving the structs their fields and parents makes of the declarations. -/
structure Resolved (env : Env) (structs : List DeclaredStruct) (env' : Env) : Prop where
  outline : env'.outline = env.outline
  others : env'.tests = env.tests ∧ env'.functions = env.functions
  untouched : ∀ id, (∀ s ∈ structs, s.id ≠ id) → env'.def? id = env.def? id
  stored : ∀ s ∈ structs, env.struct? s.id = some (none, []) →
    env'.struct? s.id = some (s.decl.parentIn env, s.decl.fieldsIn env)

variable {env' : Env}

theorem struct?_of_def? (h : env'.def? id = env.def? id) : env'.struct? id = env.struct? id := by
  unfold Env.struct?
  rw [h]

theorem resolved (env : Env) {structs : List DeclaredStruct}
    (h : structs.Pairwise fun s s' => s.id < s'.id) :
    Returns (resolveStructs env structs) (Resolved env structs) := by
  induction structs generalizing env with
  | nil => exact .pure ⟨rfl, ⟨rfl, rfl⟩, fun _ _ => rfl, fun s hs => nomatch hs⟩
  | cons s structs ih =>
    obtain ⟨hfirst, hrest⟩ := pairwise_cons.mp h
    refine (settles_resolveFields env s.decl).returns.bind fun fields hfields => ?_
    subst hfields
    refine (returns_linkParent _ s).bind fun env₁ ⟨houtline, hsigned, hothers, hlinked⟩ => ?_
    rw [Env.outline_setFields] at houtline
    -- the structs that follow are resolved in other declarations, with the same outline
    intro report
    have hlast := ih env₁ hrest report
    refine ⟨hlast.outline.trans houtline, ⟨hlast.others.1.trans hsigned.1,
      hlast.others.2.trans hsigned.2⟩, fun id hid => ?_, fun s' hs' hbare => ?_⟩
    · have hne : s.id ≠ id := hid s mem_cons_self
      rw [hlast.untouched id fun s' hs' => hid s' (mem_cons_of_mem _ hs'), hothers id hne]
      exact Env.def?_modify_ne _ hne
    rcases mem_cons.mp hs' with rfl | hs'
    · -- the structs that follow have other places
      have hkept := hlast.untouched s'.id fun s'' hs'' => (hfirst s'' hs'').ne'
      rw [struct?_of_def? hkept, hlinked _ (Env.struct?_setFields _ hbare),
        s'.decl.parentIn_congr (Env.outline_setFields env s'.id _)]
    · have hne : s.id ≠ s'.id := (hfirst s' hs').ne
      have hkept : env₁.def? s'.id = env.def? s'.id :=
        (hothers s'.id hne).trans (Env.def?_modify_ne _ hne)
      rw [hlast.stored s' hs' ((struct?_of_def? hkept).trans hbare),
        s'.decl.parentIn_congr houtline, s'.decl.fieldsIn_congr houtline]

/-- The parent is a struct without type parameters. -/
def StructDecl.HasParentIn (s : StructDecl) (env : Env) : Prop :=
  ∀ parent, s.parent = some parent → ∃ pid, env.structId? parent.name = some pid ∧
    (env.def? pid).map (·.params) = some []

theorem StructDecl.HasParentIn.congr {s : StructDecl} (h : s.HasParentIn env)
    (houtline : env.outline = env'.outline) : s.HasParentIn env' := by
  intro parent hparent
  obtain ⟨pid, hpid, hparams⟩ := h parent hparent
  refine ⟨pid, ?_, ?_⟩
  · rw [← Env.structId?_congr houtline, hpid]
  · rw [← Env.params_def?_congr houtline, hparams]

theorem settles_linkParent (env : Env) (s : DeclaredStruct) : Settles (linkParent env s)
    (fun env' => env'.outline = env.outline) fun _ => s.decl.HasParentIn env := by
  unfold linkParent
  split
  next hparent =>
    refine .pure rfl fun parent h => ?_
    rw [hparent] at h
    cases h
  next parent hparent =>
    split
    · exact .fault rfl
    next pid hpid =>
      refine (Passes.faultIf _ _ _).settles.bind fun _ _ => .pure ?_ fun hparams parent' h => ?_
      · exact Env.outline_setParent env s.id pid
      rw [hparent] at h
      cases h
      refine ⟨pid, hpid, ?_⟩
      have hstruct := (Option.filter_eq_some_iff.mp hpid).2
      cases hd : env.def? pid with
      | none => simp [Env.struct?, hd] at hstruct
      | some d => simpa [hd] using hparams

/-- The types of the fields of each struct go through, and it extends a struct without type
parameters, if any. -/
theorem settles_resolveStructs (env : Env) (structs : List DeclaredStruct) :
    Settles (resolveStructs env structs) (fun _ => True) fun _ => ∀ s ∈ structs,
      s.decl.HasParentIn env ∧
        ∀ f ∈ s.decl.fields, GoesThrough (resolve env [] (s.decl.params.map (·.name)) f.type) := by
  induction structs generalizing env with
  | nil => exact .pure trivial (by simp)
  | cons s structs ih =>
    refine (settles_resolveFields env s.decl).bind fun fields _ => ?_
    refine (settles_linkParent _ s).bind fun env₁ houtline => (ih env₁).mono (fun _ h => h) ?_
    rw [Env.outline_setFields] at houtline
    intro _ hrest hparent hfields
    refine forall_mem_cons.mpr ⟨⟨hparent.congr ?_, hfields⟩, fun s' hs' => ?_⟩
    · exact Env.outline_setFields env s.id fields
    obtain ⟨hparent', hfields'⟩ := hrest s' hs'
    refine ⟨hparent'.congr houtline, fun f hf => ?_⟩
    rw [← resolve_congr houtline]
    exact hfields' f hf

/-!
## The structs of a program
-/

/-- The struct stands at the place as it is declared. -/
structure StructDecl.Stored (s : StructDecl) (env : Env) (id : Nat) : Prop where
  place : env.idOf? s.name.name = some id
  struct : env.struct? id = some (s.parentIn env, s.fieldsIn env)
  params : (env.def? id).map (·.params) = some (s.params.map (·.name))

theorem Env.idOf?_of_def? (hdistinct : (env.defs.map (·.name)).Nodup) (h : env.def? id = some d) :
    env.idOf? d.name = some id := by
  obtain ⟨hlt, hd⟩ := List.getElem?_eq_some_iff.mp h
  refine findIdx?_eq_some_iff_getElem.mpr ⟨hlt, by simp [hd], fun j hj => ?_⟩
  have hne := pairwise_iff_getElem.mp hdistinct j id (by simp; omega) (by simpa using hlt) hj
  simpa [hd] using hne

namespace Program

variable (p : Program)

theorem gathers : Gathers {} p.leaves (p.named, p.placed) := (settles_collectTypes _ _).always

theorem collected : Collected {} p.leaves (p.named, p.placed) := p.gathers.collected

theorem resolved : Resolved p.named p.placed p.typed :=
  (Statute.resolved _ p.collected.ordered).value

theorem others_typed : p.typed.tests = [] ∧ p.typed.functions = [] :=
  ⟨p.resolved.others.1.trans p.collected.others.1, p.resolved.others.2.trans p.collected.others.2⟩

theorem outline_declared : p.declared.outline = p.named.outline := by
  rw [p.signs.outline, p.resolved.outline]

variable {p}

/-- A struct that has a place stands there as it is declared. -/
theorem stored {s : DeclaredStruct} (hs : s ∈ p.placed) :
    s.decl ∈ p.structs ∧ s.decl.Stored p.declared s.id := by
  obtain ⟨hmem, -, hdef⟩ := p.collected.placed s hs
  have hbare : p.named.struct? s.id = some (none, []) :=
    Env.struct?_eq_some_iff.mpr ⟨_, hdef, rfl⟩
  have hdistinct := p.collected.distinct nodup_nil
  refine ⟨mem_filterMap.mpr ⟨_, hmem, rfl⟩, ?_, ?_, ?_⟩
  · rw [Env.idOf?_congr p.outline_declared]
    exact Env.idOf?_of_def? hdistinct hdef
  · have hstruct := p.resolved.stored s hs hbare
    have hdef : p.declared.def? s.id = p.typed.def? s.id := by
      unfold Env.def?
      rw [p.defs_declared]
    rw [struct?_of_def? hdef, hstruct, s.decl.parentIn_congr p.outline_declared,
      s.decl.fieldsIn_congr p.outline_declared]
  · rw [Env.params_def?_congr p.outline_declared, hdef]
    rfl

/-- What stands at the place of a struct is declared in the program. -/
theorem exists_placed (h : (p.declared.struct? id).isSome) : ∃ s ∈ p.placed, s.id = id := by
  rw [Env.isSome_struct?_congr p.outline_declared] at h
  exact p.collected.complete id (Nat.zero_le id) h

end Program

section Accepted

variable {p : Program} {options : CheckOptions}

/-- All structs of an accepted program have a place. -/
theorem Rounds.placed (h : Rounds p options) : p.placed.map (·.decl) = p.structs :=
  ((settles_collectTypes _ _).through h.types).2

/-- A struct of an accepted program extends nothing but a struct without type parameters. -/
theorem Rounds.hasParentIn (h : Rounds p options) {s : StructDecl} (hs : s ∈ p.structs) :
    s.HasParentIn p.declared := by
  rw [← h.placed] at hs
  obtain ⟨s', hs', rfl⟩ := mem_map.mp hs
  have hparent := ((settles_resolveStructs _ _).through h.structs s' hs').1
  exact hparent.congr p.outline_declared.symm

end Accepted

/-!
## Names of definitions
-/

/-- No definition has the name of a built-in type, and an enum carries the name that it is declared
under. -/
def Env.WellDefined (env : Env) : Prop :=
  ∀ d ∈ env.defs, Prim.ofName? d.name = none ∧ ∀ info, d.body = .enum info → info.name = d.name

theorem Gathers.wellDefined (h : Gathers env items r) (henv : env.WellDefined) :
    r.1.WellDefined := by
  induction h with
  | nil => exact henv
  | skip _ _ ih | taken _ _ _ ih => exact ih henv
  | @added env i items d r hi hfree _ ih =>
    refine ih (forall_mem_append.mpr ⟨henv, forall_mem_singleton.mpr ⟨?_, ?_⟩⟩)
    · simpa using hfree.2
    intro info hinfo
    cases i <;> cases hi <;> cases hinfo
    rfl

theorem Env.WellDefined.congr (henv : env.WellDefined) (h : env.outline = env'.outline) :
    env'.WellDefined := by
  intro d hd
  have hbare : d.bare ∈ env.outline := h ▸ mem_map.mpr ⟨d, hd, rfl⟩
  obtain ⟨e, he, hsame⟩ := mem_map.mp hbare
  obtain ⟨hbuiltin, henum⟩ := henv e he
  have hname : e.name = d.name := by rw [← TypeDef.name_bare e, hsame, TypeDef.name_bare]
  refine ⟨hname ▸ hbuiltin, fun info hinfo => ?_⟩
  rcases (TypeDef.of_bare_eq hsame).2 with ⟨_, _, _, _, -, hstruct⟩ | hbody
  · cases hinfo.symm.trans hstruct
  · rw [henum info (hbody.trans hinfo), hname]

variable {p : Program}

theorem wellDefined_of_check (h : p.check options = .ok cp) : cp.env.WellDefined := by
  obtain ⟨henv, -⟩ := Rounds.of_check h
  rw [henv]
  exact (p.gathers.wellDefined fun _ hd => nomatch hd).congr
    p.outline_declared.symm

/-- In an accepted program an enum is declared under its own name. -/
theorem enum_name_of_check (h : p.check options = .ok cp) :
    cp.program = p ∧ ∀ n info, cp.env.enum? n = some info → info.name = n := by
  have henv := wellDefined_of_check h
  refine ⟨(run_of_check h).1, fun n info hinfo => ?_⟩
  unfold Env.enum? at hinfo
  split at hinfo
  next name span params info' hlookup =>
    cases hinfo
    have hmem := mem_of_find?_eq_some hlookup
    have hname : name = n := by simpa using find?_some hlookup
    rw [← hname]
    exact (henv _ hmem).2 info rfl
  · cases hinfo

/-- In an accepted program a definition of a name is one of the definitions, has that name, and no
built-in type does. -/
theorem lookup_of_check (h : p.check options = .ok cp) {n : String}
    (hd : cp.env.lookup n = some d) : d ∈ cp.env.defs ∧ d.name = n ∧ Prim.ofName? n = none := by
  have henv := wellDefined_of_check h
  have hmem := mem_of_find?_eq_some hd
  have hname : d.name = n := by simpa using find?_some hd
  exact ⟨hmem, hname, hname ▸ (henv d hmem).1⟩

end Statute
