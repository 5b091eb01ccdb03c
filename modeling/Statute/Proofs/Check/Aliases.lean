import Mathlib.Logic.Relation
import Statute.Proofs.Check.Formed

/-!
# Aliases

An alias `Refers` to those that its target mentions. The target of every alias is looked at with the
alias itself being expanded, and a cycle is an error there even if it has been reported before. So
in an accepted program no alias leads back to itself, and no alias is left in what types resolve to,
`alias_expansion_ends`.
-/

namespace Statute

open Checking

variable {env : Env} {name : String} {params : List String} {target : TypeExpr}

/-!
## What aliases refer to
-/

namespace Env

/-- The parameters and the target of the alias of a name. -/
def alias? (env : Env) (name : String) : Option (List String × TypeExpr) :=
  match env.lookup name with
  | some { params, body := .synonym target, .. } => some (params, target)
  | _ => none

theorem isAlias_iff : env.IsAlias name params target ↔ env.alias? name = some (params, target) := by
  unfold IsAlias alias?
  constructor
  · rintro ⟨⟨n, span, ps, body⟩, hd, rfl, hbody⟩
    cases hbody
    rw [hd]
  intro h
  split at h
  next hd =>
    cases h
    exact ⟨_, hd, rfl, rfl⟩
  · cases h

/-- The target of the alias `a` mentions the alias `b`. -/
def Refers (env : Env) (a b : String) : Prop :=
  ∃ params target, env.IsAlias a params target ∧ b ∈ target.mentions params ∧
    ∃ ps u, env.IsAlias b ps u

/-- No alias leads back to itself. -/
def Acyclic (env : Env) : Prop := ∀ a, ¬ Relation.TransGen env.Refers a a

theorem IsAlias.congr {env' : Env} (h : env.outline = env'.outline)
    (ha : env.IsAlias name params target) : env'.IsAlias name params target := by
  obtain ⟨d, hd, rfl, hbody⟩ := ha
  rcases TypeDef.of_map_bare_eq (bare_lookup_congr h name) with ⟨hnone, -⟩ | ⟨e, e', he, he', hbare⟩
  · cases hd.symm.trans hnone
  cases hd.symm.trans he
  obtain ⟨hparams, hsame⟩ := TypeDef.of_bare_eq hbare
  rcases hsame with ⟨parent, fields, -, -, hstruct, -⟩ | hsame
  · cases hbody.symm.trans hstruct
  · exact ⟨e', he', hparams.symm, hsame.symm.trans hbody⟩

/-- A struct or enum is no alias. -/
theorem IsAlias.not_hasStruct (h : env.IsAlias name params target) (arity : Nat) :
    ¬ env.HasStruct name arity := by
  rintro ⟨id, hid, -⟩
  obtain ⟨d, hd, -, hbody⟩ := h
  obtain ⟨id', hid', hdef⟩ := exists_place_of_lookup hd
  obtain ⟨hplace, hstruct⟩ := Option.filter_eq_some_iff.mp hid
  cases hplace.symm.trans hid'
  obtain ⟨s, hs⟩ := Option.isSome_iff_exists.mp hstruct
  obtain ⟨d', hd', hbody'⟩ := struct?_eq_some_iff.mp hs
  cases hdef.symm.trans hd'
  cases hbody.symm.trans hbody'

theorem IsAlias.enum?_eq_none (h : env.IsAlias name params target) : env.enum? name = none := by
  obtain ⟨⟨n, span, ps, body⟩, hd, rfl, hbody⟩ := h
  cases hbody
  unfold enum?
  rw [hd]

end Env

variable {t : TypeExpr}

section Follow

variable {env : Env} {opened params : List String} {expand : Expansion} {name : String}
  {ps : List String} {target : TypeExpr}

section

variable (hexpand : ∀ name ps target, OnlyAdds (expand name ps target))

include hexpand

/-- The expansion of an alias that goes through is not one inside itself. -/
theorem goesThrough_expand_of_resolveDeclared {span} {id : Ident} {args}
    (h : GoesThrough (resolveDeclared env expand opened span id args))
    (ha : env.IsAlias id.name ps target) :
    id.name ∉ opened ∧ GoesThrough (expand id.name ps target) := by
  obtain ⟨d, hd, rfl, hbody⟩ := ha
  unfold resolveDeclared Env.instantiate at h
  simp only [hd, hbody] at h
  by_cases harity : (d.params.length == args.length) = true
  · rw [if_pos harity] at h
    dsimp only at h
    split at h
    · have hcycle := (h.bind (onlyAdds_reportAliasCycle opened id) (.pure _)).1
      exact absurd hcycle (not_goesThrough_reportAliasCycle opened id)
    next hnew =>
      exact ⟨by simpa using hnew, (h.bind (hexpand _ _ _) (.pure _)).1⟩
  · rw [if_neg harity] at h
    exact (h.result (Q := fun _ => False) (.fault (.pure _))).elim

theorem GoesThrough.of_resolveAllWith {ts : List TypeExpr}
    (h : GoesThrough (resolveAllWith env [] expand opened params ts)) :
    ∀ t ∈ ts, GoesThrough (resolveWith env [] expand opened params t) := by
  induction ts with
  | nil => simp
  | cons t ts ih =>
    have hadds : OnlyAdds (resolveAllWith env [] expand opened params ts) :=
      onlyAdds_resolveAllWith hexpand ts
    obtain ⟨hfirst, hrest⟩ := h.bind (onlyAdds_resolveWith hexpand t) (hadds.map _)
    exact List.forall_mem_cons.mpr ⟨hfirst, ih (hrest.bind hadds (.pure _)).1⟩

/-- Where an expression goes through, so do the targets of the aliases that it mentions, none of
which is being expanded. -/
theorem goesThrough_expand (h : GoesThrough (resolveWith env [] expand opened params t))
    (hname : name ∈ t.mentions params) (ha : env.IsAlias name ps target) :
    name ∉ opened ∧ GoesThrough (expand name ps target) := by
  induction t using TypeExpr.induction with
  | h t ih =>
    have hall (hts : GoesThrough (resolveAllWith env [] expand opened params t.components))
        (hname : name ∈ mentionsAll params t.components) :
        name ∉ opened ∧ GoesThrough (expand name ps target) := by
      obtain ⟨u, hu, hname⟩ := mem_mentionsAll.mp hname
      exact ih u hu (hts.of_resolveAllWith hexpand u hu) hname
    cases t with
    | var span v => cases hname
    | named span id args =>
      rw [TypeExpr.mentions] at hname
      rw [resolveWith] at h
      split at hname
      · cases hname
      next hparam =>
        rw [if_neg (by simpa using hparam)] at h
        split at hname
        · cases hname
        next hprim =>
          rw [Option.not_isSome_iff_eq_none.mp hprim] at h
          obtain ⟨hargs, hlast⟩ := h.bind (onlyAdds_resolveAllWith hexpand args)
            (onlyAdds_resolveDeclared hexpand span id _)
          rcases List.mem_cons.mp hname with rfl | hname
          · exact goesThrough_expand_of_resolveDeclared hexpand hlast ha
          · exact hall hargs hname
    | _ =>
      rw [resolveWith_compound rfl] at h
      rw [TypeExpr.mentions_compound rfl] at hname
      exact hall (h.bind (onlyAdds_resolveAllWith hexpand _) ((tame_review _ _).onlyAdds.map _)).1 hname

end

/-- One step along the mentions of a target. -/
theorem goesThrough_mentioned (h : GoesThrough (resolveIn env [] env.size opened params t))
    (hname : name ∈ t.mentions params) (ha : env.IsAlias name ps target) :
    name ∉ opened ∧ GoesThrough (resolveIn env [] env.size (opened ++ [name]) ps target) := by
  rw [resolveIn_unfold] at h
  exact goesThrough_expand (fun n ps' u => (tame_resolveIn _ (opened ++ [n]) ps' u).onlyAdds) h hname ha

end Follow

/-- The target of the alias goes through while the alias is being expanded. -/
def Env.TargetGoesThrough (env : Env) (name : String) (params : List String)
    (target : TypeExpr) : Prop :=
  GoesThrough (resolveIn env [] env.size [name] params target)

/-- If all targets go through, then whatever an alias leads to is not the alias itself: the alias is
being expanded all the way. -/
theorem Env.acyclic_of_targets (h : ∀ name params target, env.IsAlias name params target →
      env.TargetGoesThrough name params target) : env.Acyclic := by
  intro a hcycle
  have hpath (b : String) (hb : Relation.TransGen env.Refers a b) :
      b ≠ a ∧ ∃ opened params target, a ∈ opened ∧ env.IsAlias b params target ∧
        GoesThrough (resolveIn env [] env.size opened params target) := by
    induction hb with
    | single hab =>
      obtain ⟨params, target, ha, hmentions, ps, u, hb⟩ := hab
      obtain ⟨hnew, hgoes⟩ := goesThrough_mentioned (h _ _ _ ha) hmentions hb
      exact ⟨by simpa using hnew, _, ps, u, by simp, hb, hgoes⟩
    | tail _ hbc ih =>
      obtain ⟨-, opened, params, target, hopen, halias, hgoes⟩ := ih
      obtain ⟨params', target', hb, hmentions, ps, u, hc⟩ := hbc
      obtain ⟨d, hd, rfl, hbody⟩ := halias
      obtain ⟨d', hd', rfl, hbody'⟩ := hb
      cases hd.symm.trans hd'
      cases hbody.symm.trans hbody'
      obtain ⟨hnew, hgoes⟩ := goesThrough_mentioned hgoes hmentions hc
      refine ⟨?_, _, ps, u, List.mem_append_left _ hopen, hc, hgoes⟩
      rintro rfl
      exact hnew hopen
  exact (hpath a hcycle).1 rfl

/-!
## Accepted programs
-/

/-- The aliases among the definitions are those of the items. -/
theorem Gathers.aliases {items r} (h : Gathers env items r) :
    ∀ d ∈ r.1.defs, d ∈ env.defs ∨
      (∃ a, Item.synonym a ∈ items ∧ d = a.typeDef) ∨ ∀ target, d.body ≠ .synonym target := by
  induction h with
  | nil => exact fun d hd => .inl hd
  | skip _ _ ih | taken _ _ _ ih =>
    refine fun d hd => (ih d hd).imp id (.imp_left fun ha => ?_)
    obtain ⟨a, ha, hda⟩ := ha
    exact ⟨a, List.mem_cons_of_mem _ ha, hda⟩
  | @added env i items e r hi _ _ ih =>
    intro d hd
    rcases ih d hd with hold | ⟨a, ha, hda⟩ | hother
    · rcases List.mem_append.mp hold with hold | hnew
      · exact .inl hold
      rw [List.mem_singleton.mp hnew]
      -- one more definition, which is that of the alias or of none
      cases i with
      | synonym a => exact .inr (.inl ⟨a, List.mem_cons_self, (Option.some.inj hi).symm⟩)
      | _ => cases hi <;> exact .inr (.inr (by simp [StructDecl.typeDef]))
    · exact .inr (.inl ⟨a, List.mem_cons_of_mem _ ha, hda⟩)
    · exact .inr (.inr hother)

section Accepted

variable {p : Program} {options : CheckOptions} {cp : CheckedProgram}

/-- The targets of the aliases of an accepted program go through. -/
theorem targetGoesThrough_of_check (h : p.check options = .ok cp)
    (ha : cp.env.IsAlias name params target) : cp.env.TargetGoesThrough name params target := by
  obtain ⟨henv, h⟩ := Rounds.of_check h
  rw [henv] at ha ⊢
  -- the alias is one of those whose names were collected first
  obtain ⟨d, hd, rfl, hbody⟩ := ha.congr p.outline_declared
  have hname : d.name = name := by simpa using List.find?_some hd
  have hfrom := p.gathers.aliases d (List.mem_of_find?_eq_some hd)
  rcases hfrom with hnone | ⟨a, hleaf, rfl⟩ | hother
  · cases hnone
  · cases hbody
    subst hname
    have hgoes := (settles_collectSignatures _ _).through h.signatures _ hleaf
    exact ((Item.synonym a).signed_congr p.signs.outline.symm).mp hgoes
  · exact absurd hbody (hother target)

theorem acyclic_of_check (h : p.check options = .ok cp) : cp.env.Acyclic :=
  Env.acyclic_of_targets fun _ _ _ => targetGoesThrough_of_check h

end Accepted

/-- Nothing in the type is unknown or the name of an alias. -/
def Ty.AliasFree (env : Env) (t : Ty) : Prop :=
  t.Every fun u => u ≠ .unknown ∧ ∀ name, (u = .enum name ∨ ∃ args, u = .struct name args) →
    ∀ params target, ¬ env.IsAlias name params target

theorem Ty.Sound.aliasFree {t : Ty} (h : t.Sound env) : t.AliasFree env := by
  refine h.mono fun u hu => ⟨?_, ?_⟩
  · rintro rfl
    exact hu
  rintro name (rfl | ⟨args, rfl⟩) params target ha
  · have hsome : (env.enum? name).isSome = true := hu
    rw [ha.enum?_eq_none] at hsome
    cases hsome
  · exact ha.not_hasStruct args.length hu

/-- The room for expansions inside one another is never used up, whatever the definitions are, so
that resolution is a recursion without limit. The aliases of an accepted program do not lead back to
themselves, and no alias is left in the types that its declarations hold, nor in any other type that
resolves without an error. -/
theorem alias_expansion_ends :
    (∀ (env : Env) (ambient : List String) (beyond : List String → Expansion)
      (opened params : List String) (t : TypeExpr),
      resolveWithin env ambient beyond env.size opened params t =
        resolveIn env ambient env.size opened params t) ∧
    (∀ (env : Env) (ambient opened params : List String) (t : TypeExpr),
      resolveIn env ambient env.size opened params t = resolveWith env ambient
        (fun name ps target => resolveIn env ambient env.size (opened ++ [name]) ps target)
        opened params t) ∧
    ∀ (p : Program) (options : CheckOptions) (cp : CheckedProgram), p.check options = .ok cp →
      (∀ a, ¬ Relation.TransGen cp.env.Refers a a) ∧
      (∀ t ∈ cp.env.types, t.AliasFree cp.env) ∧
      ∀ (ambient params : List String) (t : TypeExpr),
        ((resolve cp.env ambient params t).run {}).2.errors = [] →
        (resolve cp.env ambient params t).value.AliasFree cp.env := by
  refine ⟨fun env ambient => resolveWithin_eq, fun env ambient => resolveIn_unfold, ?_⟩
  intro p options cp h
  refine ⟨acyclic_of_check h, fun t ht => (sound_types_of_check h t ht).aliasFree, ?_⟩
  intro ambient params t ht
  exact ((settles_resolve cp.env ambient params t).through ⟨{}, rfl, ht⟩).aliasFree

/-- Two aliases that lead to each other, one of them inside its own argument. -/
def loopEnv : Env where
  defs := [⟨"Chain", {}, ["T"],
      .synonym (.array {} (.named {} "Link" [.named {} "Chain" [.var {} "T"]]))⟩,
    ⟨"Link", {}, ["T"], .synonym (.named {} "Chain" [.var {} "T"])⟩]

/-- Aliases that lead to each other resolve too, with one error. Those of an accepted program lead
on, but not back, and are gone from the type of its heirs. -/
theorem alias_expansion_ends_loop_heirs :
    (∀ beyond, ((resolveWithin loopEnv [] beyond 2 [] []
      (.named {} "Chain" [.prim {} .int])).run {}).2.errors.map (·.fault) =
        [.aliasCycle "Chain" ["Chain", "Chain"]]) ∧
    successions.check = .ok ⟨successions, successionsEnv, []⟩ ∧
    successionsEnv.Refers "Heirs" "Listed" ∧
    ¬ Relation.TransGen successionsEnv.Refers "Listed" "Heirs" ∧
    heirsType ∈ successionsEnv.types ∧ heirsType.AliasFree successionsEnv := by
  obtain ⟨hroom, -, haccepted⟩ := alias_expansion_ends
  obtain ⟨hacyclic, hfree, -⟩ := haccepted _ _ _ check_successions
  have hmem : heirsType ∈ successionsEnv.types := by simp [Env.types, TypeDef.types, successionsEnv]
  have hrefers : successionsEnv.Refers "Heirs" "Listed" :=
    ⟨_, _, ⟨_, rfl, rfl, rfl⟩, List.mem_cons_self, _, _, _, rfl, rfl, rfl⟩
  refine ⟨fun beyond => ?_, check_successions, hrefers, fun hback => ?_, hmem, hfree _ hmem⟩
  · have hloop := hroom loopEnv [] beyond [] [] (.named {} "Chain" [.prim {} .int])
    rw [show loopEnv.size = 2 from rfl] at hloop
    rw [hloop]
    rfl
  · exact hacyclic "Listed" (hback.tail hrefers)

end Statute
