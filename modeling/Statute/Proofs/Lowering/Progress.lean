import Statute.Proofs.Lowering.Obstacles

/-!
# Checked principles are lowered, or the obstacle is excused

A principle of an accepted program is lowered at any limit on the depth of quantifiers, or the
obstacle is excused, `checked_principle_lowered`. Where the checker is lax, sorts may differ: a
theft may be given for an act, as in the principles of the `docket`.

The types that lowering may come upon are those of `Meets`. Their sorts have to tell the struct
types apart, and the first value of a name, which lowering takes, has to be of the type of the one
in force, which the checker takes.
-/

namespace Statute

open Logic Checking List

open Draft (Registers)

/-!
## Declarations in force
-/

mutual

theorem Item.mem_of_sites {inForce} {i : Item} {s : Site} (hs : s ∈ i.sites inForce) {d}
    (hd : d ∈ s.inForce) : d ∈ inForce ∨ .value d ∈ i.leaves := by
  cases i with
  | principle p =>
    obtain rfl := mem_singleton.mp hs
    exact .inl hd
  | scope span name items => exact Item.mem_of_sitesOf hs hd
  | struct | enum | synonym | test | function | value => cases hs

/-- What is in force at a principle was so before, or is declared among the items. -/
theorem Item.mem_of_sitesOf {inForce items} {s : Site} (hs : s ∈ Item.sitesOf inForce items) {d}
    (hd : d ∈ s.inForce) : d ∈ inForce ∨ .value d ∈ Item.leavesOf items := by
  cases items with
  | nil => cases hs
  | cons i items =>
    rw [Item.leavesOf, mem_append]
    rw [Item.sitesOf_cons] at hs
    rcases mem_append.mp hs with hs | hs
    · exact (Item.mem_of_sites hs hd).imp_right .inl
    rcases Item.mem_of_sitesOf hs hd with hafter | hlater
    · cases i with
      | value e =>
        rcases mem_cons.mp hafter with rfl | hbefore
        · exact .inr (.inl (mem_singleton_self _))
        · exact .inl hbefore
      | _ => exact .inl hafter
    · exact .inr (.inr hlater)

end

theorem Program.mem_values_of_inForce {p : Program} {s : Site} (hs : s ∈ p.sites)
    {d : Declaration} (hd : d ∈ s.inForce) : d ∈ p.values := by
  exact Program.mem_values_iff.mpr ((Item.mem_of_sitesOf hs hd).resolve_left not_mem_nil)

/-!
## Types that are met
-/

/-- The types that lowering an expression may come upon: those that quantifiers range over, also in
declared values, those of declared values and of functions, and those of fields of such types. -/
inductive Meets (cx : LoweringContext) (e : Expr) : Ty → Prop where
  | quantified {type ty} (htype : e.Binds type ∨ ∃ l ∈ cx.values, l.value.Binds type)
      (hty : Stands cx.env [] type ty) : Meets cx e ty
  | value {l ty} (hl : l ∈ cx.values) (hty : Stands cx.env [] l.type ty) : Meets cx e ty
  | param {f sig p} (hf : cx.env.function? f = some sig) (hplain : sig.typeParams = [])
      (hp : p ∈ sig.params) : Meets cx e p.2
  | result {f sig} (hf : cx.env.function? f = some sig) (hplain : sig.typeParams = []) :
      Meets cx e sig.result
  | field {u n args f ty} (hu : Meets cx e u) (hcore : u.core = .struct n args)
      (hty : cx.env.fieldType? n args f = some ty) : Meets cx e ty

/-- The struct type is met, perhaps under constraints. -/
def MeetsStruct (cx : LoweringContext) (e : Expr) (n : String) (args : List Ty) : Prop :=
  ∃ ty, Meets cx e ty ∧ ty.core = .struct n args

section Meets

variable {cx : LoweringContext} {e : Expr}

theorem Meets.admits {ty : Ty} (h : Meets cx e ty) :
    (cx.setting (MeetsStruct cx e) {}).Admits ty :=
  fun _ _ hcore => ⟨ty, h, hcore⟩

theorem closes_meetsStruct : Closes cx (MeetsStruct cx e) where
  fields := by
    intro n args f ty hmet hty
    obtain ⟨u, hu, hcore⟩ := hmet
    exact (Meets.field hu hcore hty).admits
  params := fun _ _ hf hplain _ hp => (Meets.param hf hplain hp).admits
  results := fun _ _ hf hplain => (Meets.result hf hplain).admits
  values := fun _ hl _ hty => (Meets.value hl hty).admits

/-- An expression is admitted if the types that its quantifiers range over are. -/
theorem admitted_of_binds {S : Setting}
    (h : ∀ type, e.Binds type → ∀ ty, Stands S.env [] type ty → S.Admits ty) : e.Admitted S := by
  induction e using Expr.induction with
  | h e ih =>
  refine .intro ?_ fun c hc => ih c hc fun type hbinds => h type (.inside hc hbinds)
  cases e with
  | quantified span q var type body => exact h type .here
  | _ => trivial

end Meets

/-!
## Principles
-/

/-- A principle that is checked in a scope is lowered, unless an obstacle is excused. -/
theorem ends_lowerStatement {cx : LoweringContext} {options} {T : String → List Ty → Prop} {scope}
    {d : Draft} {q : Principle} {t : Ty} (hclosed : Closes cx T) (hapart : SortsApart T)
    (horderly : cx.env.Orderly) (hvalues : ∀ l ∈ cx.values, l.value.Admitted (cx.setting T {}))
    (hadmitted : q.body.Admitted (cx.setting T {}))
    (htyped : Typed (cx.checking options) scope none q.body t) (hbool : t.isBool)
    (hreads : ∀ x ∈ q.body.reads, DeclaredAlike cx scope x) (hd : d.Registers T) :
    Ends (Registers T) (Excused (cx.checking options) cx.values scope q.body)
      (lowerStatement cx q) d fun _ _ => True := by
  have hlowered (lowerBody : Expr → Lowering Lowered)
      (hbody : ∀ l ∈ cx.values, Steady T (lowerBody l.value)) :=
    accounted hclosed hapart horderly hbody hadmitted scope none t htyped [] 0 d hd
      ⟨by simp, fun _ _ => rfl⟩ fun x hx _ => hreads x hx
  have hbody : Ends (Registers T) (Excused (cx.checking options) cx.values scope q.body)
      (lowerIn cx cx.values.length [] 0 q.body) d fun r d' => d'.Sorted T t r.2 := by
    cases cx.values.length with
    | zero => exact hlowered _ fun _ _ _ hd => .stop hd trivial
    | succ pending =>
      exact hlowered _ fun l hl => steady_lowerIn hclosed hvalues pending (hvalues l hl)
  refine hbody.bind fun r d' hd' _ hr => ?_
  obtain ⟨formula, s⟩ := r
  obtain rfl := Ty.sort_of_isBool hr.1 hbool
  exact .pure hd' trivial

/-- Every principle of an accepted program is lowered at any depth limit, or the obstacle is
excused: no name and no legal test is missing, types are missing only where aliases are nested
beyond the limit, and sorts differ only where the checker is lax. The first declared value of a name
in the program has to be of the same type as the one in force, and the struct types have to have
sorts of their own. -/
theorem checked_principle_lowered {p : Program} {options : CheckOptions} {cp : CheckedProgram}
    (hcheck : p.check options = .ok cp) (maxDepth : Nat) {s : Site} (hs : s ∈ p.sites)
    (hfirst : ∀ x ∈ s.principle.body.reads, ∀ d before, nearest? s.inForce x = some (d, before) →
      ∀ d', p.values.find? (·.name.name == x) = some d' →
        ∀ ty, Stands cp.env [] d.type ty → Stands cp.env [] d'.type ty)
    (hsorts : SortsApart
      (MeetsStruct (LoweringContext.ofProgram cp maxDepth) s.principle.body)) :
    ∃ scope, Reaches ⟨cp.env, options, []⟩ {} p.items s.principle scope ∧
      ((∃ f, (LoweringContext.ofProgram cp maxDepth).lower s.principle = .ok f) ∨
        ∃ o, (LoweringContext.ofProgram cp maxDepth).lower s.principle = .error o ∧
          Excused ⟨cp.env, options, []⟩ p.values scope.push s.principle.body o.fault.kind) := by
  obtain ⟨rfl, -⟩ := run_of_check hcheck
  obtain ⟨scope, hreaches, hshows, t, htyped, hbool⟩ := visited_of_check hcheck s hs
  have horderly := orderly_of_check hcheck
  refine ⟨scope, hreaches, ?_⟩
  -- the checker finds the nearest declaration of a name, and lowering the first one
  have hreads : ∀ x ∈ s.principle.body.reads,
      DeclaredAlike (LoweringContext.ofProgram cp maxDepth) scope.push x := by
    intro x hx b hb
    rw [Scope.lookup_push, Scope.lookup_eq_find?] at hb
    obtain ⟨d, before, t, hd, ht, hfound⟩ := hshows.find? (Option.isSome_of_eq_some hb)
    obtain rfl := Option.some.inj (hfound.symm.trans hb)
    have hmem : d ∈ cp.program.values :=
      Program.mem_values_of_inForce hs ((suffix_of_nearest? hd).subset mem_cons_self)
    obtain ⟨d', hd'⟩ : ∃ d', cp.program.values.find? (·.name.name == x) = some d' := by
      refine Option.isSome_iff_exists.mp (find?_isSome.mpr ⟨d, hmem, ?_⟩)
      simpa using name_of_nearest? hd
    exact ⟨d', hd', hfirst x hx d before hd d' hd' t (horderly.stands_of_gives ht)⟩
  have hends {d : Draft} (hd : d.structs = []) := by
    refine ends_lowerStatement (d := d) closes_meetsStruct hsorts horderly ?_ ?_ htyped hbool hreads
      (by simp [Draft.Registers, hd])
    · exact fun l hl => admitted_of_binds fun _ hbinds _ hty =>
        (Meets.quantified (.inr ⟨l, hl, hbinds⟩) hty).admits
    · exact admitted_of_binds fun _ hbinds _ hty => (Meets.quantified (.inl hbinds) hty).admits
  unfold LoweringContext.lower
  split
  next formula d _ => exact .inl ⟨_, rfl⟩
  next o d hrun => exact .inr ⟨o, rfl, (hends rfl).stops o (congrArg (·.1) hrun)⟩

/-!
### Thefts are acts
-/

/-- Thefts of things that are worth more than the limit are punishable. -/
def punishment : Principle where
  span := {}
  name := "Punishment"
  body :=
    .quantified {} .all "t" (.named {} "Theft" []) <|
      .binary {} .implies
        (.binary {} .gt (.member {} "t" "worth") "limit")
        (.call {} "punishable" ["t"])

/-- Whether an act or a theft is chosen, it is done. -/
def choice : Principle where
  span := {}
  name := "Choice"
  body :=
    .quantified {} .all "a" (.named {} "Act" []) <|
      .quantified {} .all "t" (.named {} "Theft" []) <|
        .member {} (.select {} {} (.member {} "a" "done")
          [⟨{}, .literal {} (.bool true), none, "a"⟩,
            ⟨{}, .wildcard {}, none, "t"⟩]) "done"

def remainders : Principle where
  span := {}
  name := "Remainders"
  body := .quantified {} .all "x" (.prim {} .float) <|
    .binary {} .eq (.binary {} .mod "x" "x") "x"

/-- A box of a real number is compared with one of a whole number. -/
def exhibits : Principle where
  span := {}
  name := "Exhibits"
  body :=
    .quantified {} .all "a" (.named {} "Box" [.prim {} .float]) <|
      .quantified {} .all "b" (.named {} "Box" [.prim {} .int]) <|
        .binary {} .eq "a" "b"

/-- A whole number is matched with one and a half. -/
def counts : Principle where
  span := {}
  name := "Counts"
  body :=
    .quantified {} .all "n" (.prim {} .int) <|
      .select {} {} "n"
        [⟨{}, .literal {} (.float 1.5), none, .literal {} (.bool true)⟩,
          ⟨{}, .wildcard {}, none, .literal {} (.bool false)⟩]

/-- The struct `Box_int` has the sort of a box of a whole number. -/
def seals : Principle where
  span := {}
  name := "Seals"
  body :=
    .quantified {} .all "a" (.named {} "Box" [.prim {} .int]) <|
      .quantified {} .all "b" (.named {} "Box_int" []) <|
        .member {} "b" "closed"

def worthLimit : Declaration := ⟨{}, "limit", .prim {} .int, .literal {} (.int 100)⟩

/-- The rate is above one. There is a truth value of that name before. -/
def rates : Principle where
  span := {}
  name := "Rates"
  body := .binary {} .gt "rate" (.literal {} (.int 1))

def docket : Program where
  name := "docket"
  items :=
    [.struct ⟨{}, "Act", [], none, [⟨{}, "done", .prim {} .bool, none⟩]⟩,
      .struct ⟨{}, "Theft", [], some "Act",
        [⟨{}, "worth", .prim {} .int, none⟩]⟩,
      .struct ⟨{}, "Box", ["T"], none,
        [⟨{}, "content", .var {} "T", none⟩]⟩,
      .struct ⟨{}, "Box_int", [], none, [⟨{}, "closed", .prim {} .bool, none⟩]⟩,
      .function ⟨{}, "punishable", [], [⟨{}, "a", .named {} "Act" []⟩],
        .prim {} .bool, [.ret {} (.literal {} (.bool true))]⟩,
      .value worthLimit,
      .principle punishment, .principle choice, .principle remainders, .principle exhibits,
      .principle counts, .principle seals,
      .scope {} "Past"
        [.value ⟨{}, "rate", .prim {} .bool, .literal {} (.bool true)⟩],
      .scope {} "Present"
        [.value ⟨{}, "rate", .prim {} .int, .literal {} (.int 3)⟩, .principle rates]]

def docketEnv : Env where
  defs := [⟨"Act", {}, [], .struct none [⟨"done", .prim .bool, {}, none, "Act"⟩]⟩,
    ⟨"Theft", {}, [], .struct (some 0) [⟨"worth", .prim .int, {}, none, "Theft"⟩]⟩,
    ⟨"Box", {}, ["T"], .struct none [⟨"content", .var "T", {}, none, "Box"⟩]⟩,
    ⟨"Box_int", {}, [], .struct none [⟨"closed", .prim .bool, {}, none, "Box_int"⟩]⟩]
  functions := [⟨"punishable", {}, [], [("a", .struct "Act" [])], .prim .bool⟩]

theorem check_docket : docket.check = .ok ⟨docket, docketEnv, []⟩ := check_eq_ok rfl

/-- The context in which the principles of the docket are lowered. -/
abbrev docketContext : LoweringContext := .ofProgram ⟨docket, docketEnv, []⟩

/-- Thefts are all that the principle on punishment ranges over. -/
theorem binds_punishment {type : TypeExpr} (h : punishment.body.Binds type) :
    type = .named {} "Theft" [] := by
  have hname (x : Ident) : ¬(Expr.name {} x).Binds type := by
    rintro (_ | ⟨hc, -⟩)
    cases hc
  rcases h with _ | ⟨hc, h⟩
  · rfl
  -- there are no quantifiers in the comparison and in the call
  obtain rfl := mem_singleton.mp hc
  rcases h with _ | ⟨hc, h⟩
  rcases mem_pair.mp hc with rfl | rfl
  · rcases h with _ | ⟨hc, h⟩
    rcases mem_pair.mp hc with rfl | rfl
    · rcases h with _ | ⟨hc, h⟩
      exact absurd (mem_singleton.mp hc ▸ h) (hname _)
    · exact absurd h (hname _)
  · rcases h with _ | ⟨hc, h⟩
    exact absurd (mem_singleton.mp hc ▸ h) (hname _)

/-- Lowering the principle on punishment meets acts and thefts, and no other struct types. -/
theorem meets_punishment {ty : Ty} (h : Meets docketContext punishment.body ty) {n args}
    (hcore : ty.core = .struct n args) : (n = "Theft" ∨ n = "Act") ∧ args = [] := by
  induction h generalizing n args with
  | @quantified type ty htype hty =>
    obtain rfl : type = .named {} "Theft" [] := by
      rcases htype with hbinds | ⟨l, hl, hbinds⟩
      · exact binds_punishment hbinds
      have hliteral : ∀ e ∈ [Expr.literal {} (.int 100), .literal {} (.bool true),
          .literal {} (.int 3)], ∃ v, e = .literal {} v := by simp
      obtain ⟨v, hv⟩ := hliteral l.value (mem_map_of_mem hl)
      rw [hv] at hbinds
      rcases hbinds with _ | ⟨hc, -⟩
      cases hc
    obtain rfl : Ty.struct "Theft" [] = ty := hty.eq_of_typeOf rfl
    cases hcore
    exact ⟨.inl rfl, rfl⟩
  | @value l ty hl hty =>
    have hprim : ∀ t ∈ [TypeExpr.prim {} .int, .prim {} .bool, .prim {} .int],
        ∃ p, t = .prim {} p := by simp
    obtain ⟨p, hp⟩ := hprim l.type (mem_map_of_mem hl)
    rw [hp] at hty
    obtain rfl : Ty.prim p = ty := hty.eq_of_typeOf rfl
    cases hcore
  | param hf _ hp =>
    obtain rfl := mem_singleton.mp (mem_of_find?_eq_some hf)
    obtain rfl := mem_singleton.mp hp
    cases hcore
    exact ⟨.inr rfl, rfl⟩
  | result hf =>
    obtain rfl := mem_singleton.mp (mem_of_find?_eq_some hf)
    cases hcore
  | @field u m brgs f ty _ hu hty ih =>
    -- fields of acts and thefts are of built-in types
    have hfield {fields : List Field} {b : Binding}
        (h : (fields.find? fun g => g.name == f).bind (fun g => some (b.apply g.type)) = some ty)
        (hfields : ∀ t ∈ fields.map (·.type), ∃ p, t = .prim p) : ∃ p, ty = .prim p := by
      obtain ⟨g, hg, hty⟩ := Option.bind_eq_some_iff.mp h
      obtain ⟨p, hp⟩ := hfields _ (mem_map_of_mem (mem_of_find?_eq_some hg))
      rw [hp] at hty
      exact ⟨p, (Option.some.inj hty).symm⟩
    obtain ⟨rfl | rfl, rfl⟩ := ih hu
    · have htypes : ∀ t ∈ [Ty.int, .bool], ∃ p, t = .prim p := by simp
      obtain ⟨p, rfl⟩ := hfield hty htypes
      cases hcore
    have htypes : ∀ t ∈ [Ty.bool], ∃ p, t = .prim p := by simp
    obtain ⟨p, rfl⟩ := hfield hty htypes
    cases hcore

theorem sortsApart_punishment : SortsApart (MeetsStruct docketContext punishment.body) := by
  intro n as m bs hn hm heq
  obtain ⟨t, ht, htn⟩ := hn
  obtain ⟨u, hu, hum⟩ := hm
  obtain ⟨rfl | rfl, rfl⟩ := meets_punishment ht htn
  · obtain ⟨rfl | rfl, rfl⟩ := meets_punishment hu hum
    · exact ⟨rfl, rfl⟩
    · exact absurd heq (by decide)
  obtain ⟨rfl | rfl, rfl⟩ := meets_punishment hu hum
  · exact absurd heq (by decide)
  · exact ⟨rfl, rfl⟩

/-- The argument of the call is of another struct type than the parameter, which excuses the
mismatch. -/
theorem punishment_excused :
    docket.check = .ok ⟨docket, docketEnv, []⟩ ∧ ⟨punishment, [worthLimit]⟩ ∈ docket.sites ∧
    SortsApart (MeetsStruct docketContext punishment.body) ∧
    ∃ scope, Reaches ⟨docketEnv, {}, []⟩ {} docket.items punishment scope ∧
      Excused ⟨docketEnv, {}, []⟩ docket.values scope.push punishment.body
        (.sortMismatch "Act" "Theft") := by
  have hsite : ⟨punishment, [worthLimit]⟩ ∈ docket.sites := mem_cons_self
  refine ⟨check_docket, hsite, sortsApart_punishment, ?_⟩
  have hfirst : ∀ x ∈ punishment.body.reads, ∀ d before,
      nearest? [worthLimit] x = some (d, before) →
        ∀ d', docket.values.find? (·.name.name == x) = some d' →
          ∀ ty, Stands docketEnv [] d.type ty → Stands docketEnv [] d'.type ty := by
    intro x hx d before hd d' hd' ty hty
    obtain rfl : x = "limit" := mem_singleton.mp hx
    cases hd
    cases hd'
    exact hty
  obtain ⟨scope, hreaches, ⟨f, hf⟩ | ⟨o, ho, hexcused⟩⟩ :=
    checked_principle_lowered check_docket _ hsite hfirst sortsApart_punishment
  · cases hf
  · cases ho
    exact ⟨scope, hreaches, hexcused⟩

/-- The kind of the obstacle to lowering a principle. -/
def LoweringContext.obstacleKind? (cx : LoweringContext) (q : Principle) : Option ObstacleKind :=
  match cx.lower q with
  | .ok _ => none
  | .error o => some o.fault.kind

/-- Accepted principles may be stopped at sorts that differ: a theft for an act, in an argument and
in an arm, a remainder of real numbers, boxes of different contents, and a whole number that is
matched with another. A field may be missing where two struct types share a sort, and a sort may be
another one where the first value of a name is. -/
theorem checked_principles_stopped :
    docket.check = .ok ⟨docket, docketEnv, []⟩ ∧
    docket.principles.map docketContext.obstacleKind? =
      [some (.sortMismatch "Act" "Theft"), some (.sortMismatch "Act" "Theft"),
        some (.sortMismatch "Int" "Real"), some (.sortMismatch "Box_float" "Box_int"),
        some (.sortMismatch "Int" "Real"), some (.unboundVariable "Box.closed"),
        some (.sortMismatch "Bool" "Int")] :=
  ⟨check_docket, rfl⟩

end Statute
