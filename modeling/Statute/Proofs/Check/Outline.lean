import Statute.Proofs.Check.Expansions

/-!
# The outline of definitions

When the names of types are collected, nothing is known of structs but their names and parameters.
Parents and fields are added later, and nothing else is changed: the `outline` of the definitions
stays the same. It decides where names are found and what type expressions resolve to,
`resolve_congr`.
-/

namespace Statute

namespace TypeDef

/-- The definition without what is found out later about a struct: its parent and its fields. -/
def bare (d : TypeDef) : TypeDef :=
  match d.body with
  | .struct _ _ => { d with body := .struct none [] }
  | _ => d

@[simp] theorem name_bare (d : TypeDef) : d.bare.name = d.name := by
  unfold bare
  split <;> rfl

@[simp] theorem params_bare (d : TypeDef) : d.bare.params = d.params := by
  unfold bare
  split <;> rfl

/-- What two definitions with the same outline have in common. -/
theorem of_bare_eq {d d' : TypeDef} (h : d.bare = d'.bare) : d.params = d'.params ∧
    ((∃ parent fields parent' fields', d.body = .struct parent fields ∧
      d'.body = .struct parent' fields') ∨ d.body = d'.body) := by
  refine ⟨?_, ?_⟩
  · rw [← params_bare d, h, params_bare]
  unfold bare at h
  split at h
  next parent fields hd =>
    split at h
    next parent' fields' hd' => exact .inl ⟨parent, fields, parent', fields', hd, hd'⟩
    next hd' => exact absurd (congrArg TypeDef.body h).symm (hd' _ _)
  next hd =>
    split at h
    · exact absurd (congrArg TypeDef.body h) (hd _ _)
    · exact .inr (congrArg TypeDef.body h)

/-- Of two definitions that may be missing, both are or none is. -/
theorem of_map_bare_eq {found found' : Option TypeDef} (h : found.map bare = found'.map bare) :
    found = none ∧ found' = none ∨
      ∃ d d', found = some d ∧ found' = some d' ∧ d.bare = d'.bare := by
  cases found with
  | none => exact .inl ⟨rfl, Option.map_eq_none_iff.mp h.symm⟩
  | some d =>
    obtain ⟨d', hd', hbare⟩ := Option.map_eq_some_iff.mp h.symm
    exact .inr ⟨d, d', rfl, hd', hbare.symm⟩

end TypeDef

namespace Env

/-- The definitions without the parents and fields of structs. -/
def outline (env : Env) : List TypeDef := env.defs.map TypeDef.bare

theorem outline_modify {env : Env} {id : Nat} {f : TypeDef → TypeDef}
    (hf : ∀ d, (f d).bare = d.bare) : (env.modify id f).outline = env.outline := by
  unfold outline modify
  refine List.ext_getElem? fun i => ?_
  rw [List.getElem?_map, List.getElem?_map, List.getElem?_modify, Option.map_eq_map,
    Option.map_map]
  congr 1
  funext d
  by_cases hi : id = i
  · simp [hi, hf]
  · simp [hi]

@[simp] theorem outline_setParent (env : Env) (child parent : Nat) :
    (env.setParent child parent).outline = env.outline := by
  refine outline_modify fun d => ?_
  split
  next parent fields hd => simp [TypeDef.bare, hd]
  · rfl

@[simp] theorem outline_setFields (env : Env) (id : Nat) (fields : List Field) :
    (env.setFields id fields).outline = env.outline := by
  refine outline_modify fun d => ?_
  split
  next parent fields hd => simp [TypeDef.bare, hd]
  · rfl

section Congr

variable {env env' : Env} (h : env.outline = env'.outline)

include h

theorem size_congr : env.size = env'.size := by
  have hlength := congrArg List.length h
  rwa [outline, outline, List.length_map, List.length_map] at hlength

theorem bare_def?_congr (id : Nat) :
    (env.def? id).map TypeDef.bare = (env'.def? id).map TypeDef.bare := by
  unfold def?
  rw [← List.getElem?_map, ← List.getElem?_map]
  exact congrArg (·[id]?) h

theorem params_def?_congr (id : Nat) :
    (env.def? id).map (·.params) = (env'.def? id).map (·.params) := by
  have hbare := congrArg (Option.map (·.params)) (bare_def?_congr h id)
  simpa [Function.comp_def] using hbare

theorem idOf?_congr (name : String) : env.idOf? name = env'.idOf? name := by
  have hfind (e : Env) : e.idOf? name = e.outline.findIdx? fun d => d.name == name := by
    unfold idOf? outline
    rw [List.findIdx?_map]
    congr 1
    funext d
    simp
  rw [hfind, hfind, h]

theorem bare_lookup_congr (name : String) :
    (env.lookup name).map TypeDef.bare = (env'.lookup name).map TypeDef.bare := by
  have hfind (e : Env) : (e.lookup name).map TypeDef.bare =
      e.outline.find? fun d => d.name == name := by
    unfold lookup outline
    rw [List.find?_map]
    congr 2
    funext d
    simp
  rw [hfind, hfind, h]

theorem isSome_struct?_congr (id : Nat) : (env.struct? id).isSome = (env'.struct? id).isSome := by
  unfold struct?
  rcases TypeDef.of_map_bare_eq (bare_def?_congr h id) with ⟨hd, hd'⟩ | ⟨d, d', hd, hd', hbare⟩
  · rw [hd, hd']
  rw [hd, hd']
  obtain ⟨-, hbody⟩ := TypeDef.of_bare_eq hbare
  obtain ⟨name, span, params, body⟩ := d
  obtain ⟨name', span', params', body'⟩ := d'
  rcases hbody with ⟨parent, fields, parent', fields', rfl, rfl⟩ | rfl
  · rfl
  · cases body <;> rfl

theorem enum?_congr (name : String) : env.enum? name = env'.enum? name := by
  unfold enum?
  rcases TypeDef.of_map_bare_eq (bare_lookup_congr h name) with ⟨hd, hd'⟩ | ⟨d, d', hd, hd', hbare⟩
  · rw [hd, hd']
  rw [hd, hd']
  obtain ⟨-, hbody⟩ := TypeDef.of_bare_eq hbare
  obtain ⟨name, span, params, body⟩ := d
  obtain ⟨name', span', params', body'⟩ := d'
  rcases hbody with ⟨parent, fields, parent', fields', rfl, rfl⟩ | rfl
  · rfl
  · cases body <;> rfl

theorem structId?_congr (name : String) : env.structId? name = env'.structId? name := by
  unfold structId?
  rw [idOf?_congr h]
  congr 1
  funext id
  exact isSome_struct?_congr h id

end Congr

end Env

/-!
## Resolution
-/

section ResolveCongr

variable {env env' : Env}

theorem resolveDeclared_congr (h : env.outline = env'.outline) (expand : Expansion)
    (opened : List String) (span : Span) (name : Ident) (args : List Ty) :
    resolveDeclared env expand opened span name args =
      resolveDeclared env' expand opened span name args := by
  have hfound := TypeDef.of_map_bare_eq (Env.bare_lookup_congr h name.name)
  unfold resolveDeclared Env.instantiate
  rcases hfound with ⟨hd, hd'⟩ | ⟨d, d', hd, hd', hbare⟩
  · rw [hd, hd']
  rw [hd, hd']
  obtain ⟨hparams, hbody⟩ := TypeDef.of_bare_eq hbare
  obtain ⟨n, s, params, body⟩ := d
  obtain ⟨n', s', params', body'⟩ := d'
  subst hparams
  rcases hbody with ⟨parent, fields, parent', fields', rfl, rfl⟩ | rfl
  · rfl
  · rfl

theorem resolveWith_congr (h : env.outline = env'.outline) (ambient : List String)
    (expand : Expansion) (opened params : List String) (t : TypeExpr) :
    resolveWith env ambient expand opened params t =
      resolveWith env' ambient expand opened params t :=
  resolveWith_eq fun name _ span args => resolveDeclared_congr h expand opened span name args

theorem resolveIn_congr (h : env.outline = env'.outline) (ambient : List String) (depth : Nat)
    (opened params : List String) (t : TypeExpr) :
    resolveIn env ambient depth opened params t =
      resolveIn env' ambient depth opened params t := by
  induction depth generalizing opened params t with
  | zero => exact resolveWith_congr h ambient _ opened params t
  | succ depth ih =>
    rw [resolveIn, resolveIn, resolveWith_congr h ambient _ opened params t]
    simp only [ih]

/-- Type expressions resolve alike in environments of the same outline. -/
theorem resolve_congr (h : env.outline = env'.outline) (ambient params : List String)
    (t : TypeExpr) : resolve env ambient params t = resolve env' ambient params t := by
  unfold resolve
  rw [resolveIn_congr h, Env.size_congr h]

end ResolveCongr

end Statute
