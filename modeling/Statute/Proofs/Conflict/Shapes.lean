import Statute.Conflict
import Statute.Proofs.Check.Structs
import Statute.Proofs.NameMap

/-!
# What conflicts are about

The names of types are different in an accepted program, and so are those of legal tests. So a name
has one shape of each kind at most, that of its declaration, `Env.Distinct.get?_structShapes` and the
like; and no name is that of a struct and of an enum. What the conflicts between two programs are is
then a question of the shapes of single names, `lists_conflictsBetween`.
-/

namespace Statute

open Checking List

/-!
## Names in an accepted program
-/

theorem Env.nodup_names_congr {env env' : Env} (h : env.outline = env'.outline)
    (henv : (env'.defs.map (·.name)).Nodup) : (env.defs.map (·.name)).Nodup := by
  have hnames (e : Env) : e.defs.map (·.name) = e.outline.map (·.name) := by
    unfold outline
    rw [map_map]
    exact map_congr_left fun d _ => (TypeDef.name_bare d).symm
  rw [hnames] at henv ⊢
  rwa [h]

/-- A legal test is only added under a new name. -/
theorem Env.Signs.nodup_tests {env env' : Env} {items : List Item} (h : env.Signs items env')
    (henv : (env.tests.map (·.name)).Nodup) : (env'.tests.map (·.name)).Nodup := by
  induction h with
  | nil => exact henv
  | skip _ ih | function _ _ ih => exact ih henv
  | test hnew _ ih =>
    refine ih ?_
    rw [map_append, nodup_append]
    refine ⟨henv, nodup_singleton _, fun n hn m hm heq => ?_⟩
    obtain ⟨t, ht, rfl⟩ := mem_map.mp hn
    rw [map_singleton, mem_singleton] at hm
    exact hnew t ht (heq.trans hm)

/-- Types have different names, and so have legal tests. -/
structure Env.Distinct (env : Env) : Prop where
  defs : (env.defs.map (·.name)).Nodup
  tests : (env.tests.map (·.name)).Nodup

theorem distinct_of_check {p : Program} {options} {cp : CheckedProgram}
    (h : p.check options = .ok cp) : cp.env.Distinct := by
  obtain ⟨henv, -⟩ := Rounds.of_check h
  rw [henv]
  refine ⟨Env.nodup_names_congr p.outline_declared (p.collected.distinct nodup_nil), ?_⟩
  refine p.signs.nodup_tests ?_
  rw [p.others_typed.1]
  exact nodup_nil

/-!
## Shapes by name
-/

/-- The shapes of one kind by name. -/
def Env.shapes (env : Env) : ConflictKind → NameMap DeclaredShape
  | .struct => structShapes env
  | .enum => enumShapes env
  | .legalTest => testShapes env

theorem Env.sorted_shapes (env : Env) (kind : ConflictKind) : (env.shapes kind).Sorted := by
  cases kind with
  | _ => exact NameMap.sorted_ofList _

namespace Env.Distinct

variable {env : Env} (henv : env.Distinct) {n : String} {s : DeclaredShape}

include henv

theorem nodup_filterMap {f : TypeDef → Option (String × DeclaredShape)}
    (hf : ∀ d p, f d = some p → p.1 = d.name) : ((env.defs.filterMap f).map Prod.fst).Nodup := by
  have hdefs : env.defs.Pairwise fun d e => d.name ≠ e.name := pairwise_map.mp henv.defs
  refine pairwise_map.mpr (hdefs.filterMap f fun d e hne p hp q hq heq => hne ?_)
  rw [← hf d p hp, ← hf e q hq, heq]

theorem get?_structShapes : (structShapes env).get? n = some s ↔
    ∃ d ∈ env.defs, d.name = n ∧ ∃ parent fields, d.body = .struct parent fields ∧
      structShape env d parent fields = s := by
  unfold structShapes
  rw [NameMap.get?_ofList_eq_some_iff, mem_filterMap]
  · refine exists_congr fun d => and_congr_right fun _ => ?_
    split
    next parent fields hbody => simp [hbody]
    next hbody =>
      refine iff_of_false (by simp) fun h => ?_
      obtain ⟨-, parent, fields, h, -⟩ := h
      exact hbody parent fields h
  · refine henv.nodup_filterMap fun d p hp => ?_
    split at hp
    · cases hp
      rfl
    · cases hp

theorem get?_enumShapes : (enumShapes env).get? n = some s ↔
    ∃ d ∈ env.defs, d.name = n ∧ ∃ info, d.body = .enum info ∧ ⟨d.span, info.variants⟩ = s := by
  unfold enumShapes
  rw [NameMap.get?_ofList_eq_some_iff, mem_filterMap]
  · refine exists_congr fun d => and_congr_right fun _ => ?_
    split
    next info hbody => simp [hbody]
    next hbody => grind
  · refine henv.nodup_filterMap fun d p hp => ?_
    split at hp
    · cases hp
      rfl
    · cases hp

theorem get?_testShapes : (testShapes env).get? n = some s ↔
    ∃ t ∈ env.tests, t.name = n ∧
      ⟨t.span, t.requirements.map fun r => typedText r.name r.type⟩ = s := by
  unfold testShapes
  rw [NameMap.get?_ofList_eq_some_iff, mem_map]
  · simp
  · rw [map_map]
    exact henv.tests

/-- A name is not that of two types. -/
theorem eq_of_name_eq {d e : TypeDef} (hd : d ∈ env.defs) (he : e ∈ env.defs)
    (h : d.name = e.name) : d = e :=
  inj_on_of_nodup_map henv.defs hd he h

/-- No name is that of a struct and of an enum. -/
theorem struct_ne_enum {t} (hs : (structShapes env).get? n = some s)
    (ht : (enumShapes env).get? n = some t) : False := by
  obtain ⟨d, hd, hname, _, _, hbody, -⟩ := henv.get?_structShapes.mp hs
  obtain ⟨e, he, hname', _, hbody', -⟩ := henv.get?_enumShapes.mp ht
  obtain rfl := henv.eq_of_name_eq hd he (hname.trans hname'.symm)
  cases hbody.symm.trans hbody'

end Env.Distinct

/-!
## Conflicts by name
-/

/-- There is a conflict of the kind about the name, which is declared at these places. -/
def Lists (conflicts : List Conflict) (kind : ConflictKind) (name : String) (x y : Span) : Prop :=
  ∃ c ∈ conflicts, c.kind = kind ∧ c.name = name ∧ c.first = x ∧ c.second = y

section Conflicts

variable {kind : ConflictKind} {name first second : String} {x y : Span} {a b : Env}

theorem lists_append {cs ds} :
    Lists (cs ++ ds) kind name x y ↔ Lists cs kind name x y ∨ Lists ds kind name x y := by
  unfold Lists
  simp only [mem_append, or_and_right, exists_or]

/-- The two programs declare the name as one of the kind, but with different members. -/
def Differs (a b : Env) (kind : ConflictKind) (name : String) (x y : Span) : Prop :=
  ∃ s t, (a.shapes kind).get? name = some s ∧ (b.shapes kind).get? name = some t ∧
    s.members ≠ t.members ∧ s.span = x ∧ t.span = y

/-- The first program declares the name as a struct, and the second as an enum. -/
def Crosses (a b : Env) (name : String) (x y : Span) : Prop :=
  ∃ s t, (a.shapes .struct).get? name = some s ∧ (b.shapes .enum).get? name = some t ∧
    s.span = x ∧ t.span = y

theorem Differs.symm (h : Differs a b kind name x y) : Differs b a kind name y x := by
  obtain ⟨s, t, hs, ht, hne, hx, hy⟩ := h
  exact ⟨t, s, ht, hs, hne.symm, hy, hx⟩

theorem lists_differing {k} :
    Lists (differing k first second (a.shapes k) (b.shapes k)) kind name x y ↔
      kind = k ∧ Differs a b k name x y := by
  constructor
  · intro h
    obtain ⟨c, hc, rfl, rfl, rfl, rfl⟩ := h
    obtain ⟨⟨n, s⟩, hs, hsome⟩ := mem_filterMap.mp hc
    obtain ⟨t, ht, hsome⟩ := Option.bind_eq_some_iff.mp hsome
    split at hsome
    · cases hsome
    next hne =>
      cases hsome
      refine ⟨rfl, s, t, (a.sorted_shapes k).get?_eq_some_iff.mpr hs, ht, ?_, rfl, rfl⟩
      simpa using hne
  · intro h
    obtain ⟨rfl, s, t, hs, ht, hne, rfl, rfl⟩ := h
    have hmem := (a.sorted_shapes kind).get?_eq_some_iff.mp hs
    have hne : ¬(s.members == t.members) = true := by simpa using hne
    exact ⟨_, mem_filterMap.mpr ⟨_, hmem, Option.bind_eq_some_iff.mpr ⟨t, ht, if_neg hne⟩⟩,
      rfl, rfl, rfl, rfl⟩

theorem lists_crossing {ka kb} :
    Lists (crossing ka kb first second (a.shapes ka) (b.shapes kb)) kind name x y ↔
      kind = .struct ∧ ∃ s t, (a.shapes ka).get? name = some s ∧
        (b.shapes kb).get? name = some t ∧ s.span = x ∧ t.span = y := by
  constructor
  · intro h
    obtain ⟨c, hc, rfl, rfl, rfl, rfl⟩ := h
    obtain ⟨⟨n, s⟩, hs, hsome⟩ := mem_filterMap.mp hc
    obtain ⟨t, ht, hsome⟩ := Option.bind_eq_some_iff.mp hsome
    cases hsome
    exact ⟨rfl, s, t, (a.sorted_shapes ka).get?_eq_some_iff.mpr hs, ht, rfl, rfl⟩
  · intro h
    obtain ⟨rfl, s, t, hs, ht, rfl, rfl⟩ := h
    have hmem := (a.sorted_shapes ka).get?_eq_some_iff.mp hs
    exact ⟨_, mem_filterMap.mpr ⟨_, hmem, Option.bind_eq_some_iff.mpr ⟨t, ht, rfl⟩⟩,
      rfl, rfl, rfl, rfl⟩

/-- A conflict is about a name that is declared as one kind in two ways, or as a struct in one
program and as an enum in the other. -/
theorem lists_conflictsBetween :
    Lists (conflictsBetween first second a b) kind name x y ↔
      Differs a b kind name x y ∨
        kind = .struct ∧ (Crosses a b name x y ∨ Crosses b a name y x) := by
  have hback : (∃ s t, (a.shapes .enum).get? name = some s ∧ (b.shapes .struct).get? name = some t ∧
      s.span = x ∧ t.span = y) ↔ Crosses b a name y x := by
    constructor
    · intro h
      obtain ⟨s, t, hs, ht, hx, hy⟩ := h
      exact ⟨t, s, ht, hs, hy, hx⟩
    intro h
    obtain ⟨t, s, ht, hs, hy, hx⟩ := h
    exact ⟨s, t, hs, ht, hx, hy⟩
  have hdiffers : (kind = .struct ∧ Differs a b .struct name x y) ∨
      (kind = .enum ∧ Differs a b .enum name x y) ∨
      (kind = .legalTest ∧ Differs a b .legalTest name x y) ↔ Differs a b kind name x y := by
    cases kind <;> simp
  unfold conflictsBetween
  rw [lists_append, lists_append, lists_append, lists_append]
  rw [show structShapes a = a.shapes .struct from rfl, show structShapes b = b.shapes .struct from rfl,
    show enumShapes a = a.shapes .enum from rfl, show enumShapes b = b.shapes .enum from rfl,
    show testShapes a = a.shapes .legalTest from rfl,
    show testShapes b = b.shapes .legalTest from rfl]
  rw [lists_differing, lists_differing, lists_differing, lists_crossing, lists_crossing, hback,
    ← hdiffers, and_or_left]
  simp only [or_assoc, Crosses]

end Conflicts

end Statute
