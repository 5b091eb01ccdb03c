import Statute.Proofs.Conflict.Shapes

/-!
# Conflicts go both ways

It makes no difference which of two programs is named first: they conflict in either order or in
none, about the same names, and only the places are exchanged, `conflicts_symmetric`. The conflicts
are listed in another order, as each list follows the names of the program that comes first. No name
is listed twice under one kind, since no program declares a name as a struct and as an enum; and a
program does not conflict with itself.
-/

namespace Statute

/-- What a conflict is about. -/
def Conflict.key (c : Conflict) : ConflictKind × String := (c.kind, c.name)

/-- The name is declared at the place, as a legal test or as a type. -/
def Env.DeclaredAt (env : Env) (kind : ConflictKind) (name : String) (span : Span) : Prop :=
  match kind with
  | .legalTest => ∃ t ∈ env.tests, t.name = name ∧ t.span = span
  | .struct | .enum => ∃ d ∈ env.defs, d.name = name ∧ d.span = span

section Conflicts

variable {a b : Env} {kind : ConflictKind} {name first second first' second' : String} {x y : Span}
  {cs : List Conflict}

theorem lists_of_mem {cs} {c : Conflict} (h : c ∈ cs) :
    Lists cs c.kind c.name c.first c.second :=
  ⟨c, h, rfl, rfl, rfl, rfl⟩

theorem eq_nil_iff_lists : cs = [] ↔ ∀ kind name x y, ¬Lists cs kind name x y := by
  constructor
  · intro h kind name x y hlists
    obtain ⟨c, hc, -⟩ := hlists
    rw [h] at hc
    cases hc
  · intro h
    refine List.eq_nil_iff_forall_not_mem.mpr fun c hc => ?_
    exact h c.kind c.name c.first c.second (lists_of_mem hc)

/-- In the other order the places are exchanged. -/
theorem lists_exchanged : Lists (conflictsBetween first second a b) kind name x y ↔
    Lists (conflictsBetween first' second' b a) kind name y x := by
  rw [lists_conflictsBetween, lists_conflictsBetween, or_comm (a := Crosses b a name y x)]
  exact or_congr_left ⟨Differs.symm, Differs.symm⟩

theorem lists_self (ha : a.Distinct) : ¬Lists (conflictsBetween first second a a) kind name x y := by
  rw [lists_conflictsBetween]
  intro h
  rcases h with ⟨s, t, hs, ht, hne, -⟩ | ⟨-, ⟨s, t, hs, ht, -⟩ | ⟨s, t, hs, ht, -⟩⟩
  · grind
  · exact ha.struct_ne_enum hs ht
  · exact ha.struct_ne_enum hs ht

/-- What has a shape is declared where the shape says. -/
theorem Env.Distinct.declaredAt (ha : a.Distinct) {s : DeclaredShape}
    (h : (a.shapes kind).get? name = some s) : a.DeclaredAt kind name s.span := by
  cases kind with
  | struct =>
    obtain ⟨d, hd, hname, _, _, -, rfl⟩ := ha.get?_structShapes.mp h
    exact ⟨d, hd, hname, rfl⟩
  | enum =>
    obtain ⟨d, hd, hname, _, -, rfl⟩ := ha.get?_enumShapes.mp h
    exact ⟨d, hd, hname, rfl⟩
  | legalTest =>
    obtain ⟨t, ht, hname, rfl⟩ := ha.get?_testShapes.mp h
    exact ⟨t, ht, hname, rfl⟩

theorem declaredAt_of_lists (ha : a.Distinct) (hb : b.Distinct)
    (h : Lists (conflictsBetween first second a b) kind name x y) :
    a.DeclaredAt kind name x ∧ b.DeclaredAt kind name y := by
  rcases lists_conflictsBetween.mp h with
    ⟨s, t, hs, ht, -, rfl, rfl⟩ | ⟨rfl, ⟨s, t, hs, ht, rfl, rfl⟩ | ⟨t, s, ht, hs, rfl, rfl⟩⟩
  · exact ⟨ha.declaredAt hs, hb.declaredAt ht⟩
  · have ht : b.DeclaredAt .enum name t.span := hb.declaredAt ht
    exact ⟨ha.declaredAt hs, ht⟩
  · have hs : a.DeclaredAt .enum name s.span := ha.declaredAt hs
    exact ⟨hs, hb.declaredAt ht⟩

/-!
## Each name once
-/

/-- The conflicts that the entries of a map lead to are about different names. -/
theorem pairwise_filterMap_entries {m : NameMap DeclaredShape} (hm : m.Sorted)
    {f : String × DeclaredShape → Option Conflict} (hf : ∀ p c, f p = some c → c.name = p.1) :
    (m.entries.filterMap f).Pairwise fun c d => c.key ≠ d.key := by
  have hentries : m.entries.Pairwise fun p q => p.1 ≠ q.1 := List.pairwise_map.mp hm.nodup
  refine hentries.filterMap f fun p q hne c hc d hd heq => hne ?_
  rw [← hf p c hc, ← hf q d hd]
  exact congrArg Prod.snd heq

theorem pairwise_differing (k : ConflictKind) :
    (differing k first second (a.shapes k) (b.shapes k)).Pairwise fun c d => c.key ≠ d.key := by
  refine pairwise_filterMap_entries (a.sorted_shapes k) fun p c hc => ?_
  obtain ⟨t, -, hc⟩ := Option.bind_eq_some_iff.mp hc
  split at hc
  · cases hc
  · cases hc
    rfl

theorem pairwise_crossing (ka kb : ConflictKind) :
    (crossing ka kb first second (a.shapes ka) (b.shapes kb)).Pairwise fun c d => c.key ≠ d.key := by
  refine pairwise_filterMap_entries (a.sorted_shapes ka) fun p c hc => ?_
  obtain ⟨t, -, hc⟩ := Option.bind_eq_some_iff.mp hc
  cases hc
  rfl

/-- Lists of conflicts that are about different names, or under different kinds. -/
theorem keys_apart {ds}
    (h : ∀ kind name x y x' y', Lists cs kind name x y → ¬Lists ds kind name x' y') :
    ∀ c ∈ cs, ∀ d ∈ ds, c.key ≠ d.key := by
  intro c hc d hd heq
  have hkind : c.kind = d.kind := congrArg Prod.fst heq
  have hname : c.name = d.name := congrArg Prod.snd heq
  refine h c.kind c.name c.first c.second d.first d.second (lists_of_mem hc) ?_
  rw [hkind, hname]
  exact lists_of_mem hd

theorem not_lists_differing {k} (hkind : kind ≠ k) :
    ¬Lists (differing k first second (a.shapes k) (b.shapes k)) kind name x y :=
  fun h => hkind (lists_differing.mp h).1

/-- No name is listed twice under one kind. -/
theorem nodup_keys_conflictsBetween (ha : a.Distinct) (hb : b.Distinct) :
    ((conflictsBetween first second a b).map Conflict.key).Nodup := by
  refine List.pairwise_map.mpr ?_
  refine List.pairwise_append.mpr ⟨List.pairwise_append.mpr ⟨List.pairwise_append.mpr
    ⟨List.pairwise_append.mpr ⟨pairwise_differing .struct, pairwise_differing .enum, ?_⟩,
      pairwise_differing .legalTest, ?_⟩, pairwise_crossing .struct .enum, ?_⟩,
    pairwise_crossing .enum .struct, ?_⟩
  · refine keys_apart fun kind name x y x' y' h h' => ?_
    obtain ⟨rfl, -⟩ := lists_differing.mp h
    exact not_lists_differing (by decide) h'
  · refine keys_apart fun kind name x y x' y' h h' => ?_
    obtain ⟨rfl, -⟩ := lists_differing.mp h'
    rcases lists_append.mp h with h | h
    · exact not_lists_differing (by decide) h
    · exact not_lists_differing (by decide) h
  -- what crosses is listed as a struct, so it might only be listed before as one
  · refine keys_apart fun kind name x y x' y' h h' => ?_
    obtain ⟨rfl, s, t, -, ht, -⟩ := lists_crossing.mp h'
    rcases lists_append.mp h with h | h
    · rcases lists_append.mp h with h | h
      · obtain ⟨-, s', t', -, ht', -⟩ := lists_differing.mp h
        exact hb.struct_ne_enum ht' ht
      · exact not_lists_differing (by decide) h
    · exact not_lists_differing (by decide) h
  · refine keys_apart fun kind name x y x' y' h h' => ?_
    obtain ⟨rfl, s, t, hs, -⟩ := lists_crossing.mp h'
    rcases lists_append.mp h with h | h
    · rcases lists_append.mp h with h | h
      · rcases lists_append.mp h with h | h
        · obtain ⟨-, s', t', hs', -⟩ := lists_differing.mp h
          exact ha.struct_ne_enum hs' hs
        · exact not_lists_differing (by decide) h
      · exact not_lists_differing (by decide) h
    · obtain ⟨-, s', t', hs', -⟩ := lists_crossing.mp h
      exact ha.struct_ne_enum hs' hs

end Conflicts

/-!
## Reports
-/

section Reports

variable {a b : CheckedProgram}

theorem conflictReport?_eq_none_iff : conflictReport? a b = none ↔
    conflictsBetween a.program.name b.program.name a.env b.env = [] := by
  unfold conflictReport? compareAs
  split
  next h => simp [h]
  next h => simpa using h

theorem conflicts_of_report {r : ConflictReport} (h : conflictReport? a b = some r) :
    r.conflicts = conflictsBetween a.program.name b.program.name a.env b.env := by
  unfold conflictReport? compareAs at h
  split at h
  · cases h
  · cases h
    rfl

theorem exists_report {kind name x y}
    (h : Lists (conflictsBetween a.program.name b.program.name a.env b.env) kind name x y) :
    ∃ r, conflictReport? a b = some r ∧ Lists r.conflicts kind name x y := by
  cases hr : conflictReport? a b with
  | none => exact absurd h (eq_nil_iff_lists.mp (conflictReport?_eq_none_iff.mp hr) _ _ _ _)
  | some r => exact ⟨r, rfl, (conflicts_of_report hr).symm ▸ h⟩

end Reports

/-- Two accepted programs conflict in either order or in none, and then about the same names, with
the places exchanged. Each name is listed once at most under one kind, where it is declared, and it
is listed if it is a struct in one program and an enum in the other. A program does not conflict
with itself. -/
theorem conflicts_symmetric {p q : Program} {options options' : CheckOptions} {a b : CheckedProgram}
    (ha : p.check options = .ok a) (hb : q.check options' = .ok b) :
    (conflictReport? a b = none ↔ conflictReport? b a = none) ∧
    (∀ r r', conflictReport? a b = some r → conflictReport? b a = some r' →
      ∀ kind name x y, Lists r.conflicts kind name x y ↔ Lists r'.conflicts kind name y x) ∧
    (∀ r, conflictReport? a b = some r → (r.conflicts.map Conflict.key).Nodup ∧
      ∀ kind name x y, Lists r.conflicts kind name x y →
        a.env.DeclaredAt kind name x ∧ b.env.DeclaredAt kind name y) ∧
    (∀ d ∈ a.env.defs, ∀ e ∈ b.env.defs, ∀ parent fields info, d.name = e.name →
      d.body = .struct parent fields → e.body = .enum info →
      (∃ r, conflictReport? a b = some r ∧ Lists r.conflicts .struct d.name d.span e.span) ∧
      ∃ r, conflictReport? b a = some r ∧ Lists r.conflicts .struct d.name e.span d.span) ∧
    conflictReport? a a = none := by
  have hdistinct := distinct_of_check ha
  have hdistinct' := distinct_of_check hb
  refine ⟨?_, fun r r' hr hr' kind name x y => ?_, fun r hr => ⟨?_, fun kind name x y h => ?_⟩,
    fun d hd e he parent fields info hname hstruct henum => ?_, ?_⟩
  · rw [conflictReport?_eq_none_iff, conflictReport?_eq_none_iff, eq_nil_iff_lists,
      eq_nil_iff_lists]
    exact ⟨fun h kind name x y hlists => h kind name y x (lists_exchanged.mp hlists),
      fun h kind name x y hlists => h kind name y x (lists_exchanged.mp hlists)⟩
  · rw [conflicts_of_report hr, conflicts_of_report hr']
    exact lists_exchanged
  · rw [conflicts_of_report hr]
    exact nodup_keys_conflictsBetween hdistinct hdistinct'
  · rw [conflicts_of_report hr] at h
    exact declaredAt_of_lists hdistinct hdistinct' h
  · have hcrosses : Crosses a.env b.env d.name d.span e.span :=
      ⟨_, _, hdistinct.get?_structShapes.mpr ⟨d, hd, rfl, _, _, hstruct, rfl⟩,
        hdistinct'.get?_enumShapes.mpr ⟨e, he, hname.symm, _, henum, rfl⟩, rfl, rfl⟩
    exact ⟨exists_report (lists_conflictsBetween.mpr (.inr ⟨rfl, .inl hcrosses⟩)),
      exists_report (lists_conflictsBetween.mpr (.inr ⟨rfl, .inr hcrosses⟩))⟩
  · rw [conflictReport?_eq_none_iff, eq_nil_iff_lists]
    exact fun kind name x y => lists_self hdistinct

/-!
## Two codes
-/

def offenceAt (offset : Nat) (fine : Prim) : StructDecl :=
  ⟨{ offset }, "Offence", [], none, [⟨{}, "fine", .prim {} fine, none⟩]⟩

/-- An appeal is a struct here. -/
def mainland : Program where
  name := "mainland"
  items :=
    [.struct (offenceAt 0 .int),
      .struct ⟨{ offset := 30 }, "Appeal", [], none,
        [⟨{}, "heard", .prim {} .bool, none⟩]⟩,
      .enum ⟨{}, "Court", ["High", "Low"], false⟩]

/-- An appeal is an enum here, and fines may be fractions. -/
def islands : Program where
  name := "islands"
  items :=
    [.enum ⟨{ offset := 5 }, "Appeal", ["Pending", "Heard"], false⟩,
      .enum ⟨{}, "Court", ["High", "Low"], false⟩,
      .struct (offenceAt 50 .float)]

def mainlandEnv : Env where
  defs :=
    [⟨"Offence", { offset := 0 }, [], .struct none [⟨"fine", .int, {}, none, "Offence"⟩]⟩,
      ⟨"Appeal", { offset := 30 }, [], .struct none [⟨"heard", .bool, {}, none, "Appeal"⟩]⟩,
      ⟨"Court", {}, [], .enum ⟨"Court", ["High", "Low"], false⟩⟩]

def islandsEnv : Env where
  defs :=
    [⟨"Appeal", { offset := 5 }, [], .enum ⟨"Appeal", ["Pending", "Heard"], false⟩⟩,
      ⟨"Court", {}, [], .enum ⟨"Court", ["High", "Low"], false⟩⟩,
      ⟨"Offence", { offset := 50 }, [], .struct none [⟨"fine", .prim .float, {}, none, "Offence"⟩]⟩]

theorem check_mainland : mainland.check = .ok ⟨mainland, mainlandEnv, []⟩ := check_eq_ok rfl

theorem check_islands : islands.check = .ok ⟨islands, islandsEnv, []⟩ := check_eq_ok rfl

/-- Offences and appeals are listed in both orders, but not courts. -/
theorem codes_conflict_symmetrically : ∃ r r',
    let a : CheckedProgram := ⟨mainland, mainlandEnv, []⟩
    let b : CheckedProgram := ⟨islands, islandsEnv, []⟩
    mainland.check = .ok a ∧ islands.check = .ok b ∧
    conflictReport? a b = some r ∧ conflictReport? b a = some r' ∧
    r.conflicts.map Conflict.key = [(.struct, "Offence"), (.struct, "Appeal")] ∧
    (r.conflicts.map Conflict.key).Nodup ∧
    (∀ kind name x y, Lists r.conflicts kind name x y ↔ Lists r'.conflicts kind name y x) ∧
    Lists r.conflicts .struct "Appeal" { offset := 30 } { offset := 5 } ∧
    conflictReport? a a = none := by
  obtain ⟨-, hboth, honce, hcross, hself⟩ := conflicts_symmetric check_mainland check_islands
  obtain ⟨⟨r, hr, happeal⟩, r', hr', -⟩ := hcross ⟨"Appeal", { offset := 30 }, [],
    .struct none [⟨"heard", .bool, {}, none, "Appeal"⟩]⟩ (by simp [mainlandEnv]) ⟨"Appeal",
    { offset := 5 }, [], .enum ⟨"Appeal", ["Pending", "Heard"], false⟩⟩ (by simp [islandsEnv])
    _ _ _ rfl rfl rfl
  refine ⟨r, r', check_mainland, check_islands, hr, hr', ?_, (honce r hr).1, hboth r r' hr hr',
    happeal, hself⟩
  rw [conflicts_of_report hr]
  rfl

end Statute
