import Mathlib.Data.Finset.Card
import Statute.Proofs.Lowering.Decisions

/-!
# What lowering keeps up

A draft is proper if all that it holds comes from the program: its sorts are those of enums and
structs, its constants those of declared values, and what it assumes are the limits and the values
of these constants, as the rules of lowering give them. Every declared value that has become a
constant is settled: its limits are assumed, and so is its value, unless that cannot be lowered.

A value is settled only once it has been lowered, and on the way other values may be declared. So a
proper draft comes with the list of the values that are being opened.
-/

namespace Statute

open Logic List

variable {v : Vocabulary}

/-!
## The sorts of types
-/

/-- The draft once the sort of a type is declared. A struct type is noted with its sort; one that is
noted already for the sort stays. -/
def Draft.declareSort (env : Env) (ty : Ty) (d : Draft) : Draft :=
  match ty.core with
  | .enum n =>
    match env.enum? n with
    | some info => { d with vocabulary := d.vocabulary.addSort (.enum info.name info.variants) }
    | none => d
  | .struct n args =>
    let name := structSortName (.struct n args)
    let noted : Draft := if (d.structs.lookup name).isSome then d
      else { d with structs := d.structs ++ [(name, n, args)] }
    { noted with vocabulary := noted.vocabulary.addSort (.free name) }
  | _ => d

/-- The sort of the type is found and declared, or there is none for it. -/
def Ty.IsDeclared (env : Env) (span : Span) (d : Draft) (ty : Ty) : Prop :=
  (∃ r, ty.encoding? = some r ∧
    (sortOf env span ty).run.run d = (.ok r, d.declareSort env ty)) ∨
  ty.encoding? = none ∧ ∃ o what, o.fault.kind = .unsupported what ∧
    (sortOf env span ty).run.run d = (.error o, d)

variable {env : Env} {span : Span} {d : Draft} {ty : Ty}

/-- The sort is that of another type, with other limits. -/
theorem Ty.IsDeclared.map {inner : Ty} {f : SmtSort × Limits → SmtSort × Limits}
    (h : inner.IsDeclared env span d) (hty : ty.encoding? = inner.encoding?.map f)
    (hcore : ty.core = inner.core)
    (hsort : sortOf env span ty = sortOf env span inner >>= fun r => pure (f r)) :
    ty.IsDeclared env span d := by
  have hsame : d.declareSort env ty = d.declareSort env inner := by
    unfold Draft.declareSort
    rw [hcore]
  unfold IsDeclared
  rw [hty, hsort, Run.run_bind, hsame]
  rcases h with ⟨r, hr, hrun⟩ | ⟨hnone, o, what, ho, hrun⟩
  · rw [hr, hrun]
    exact .inl ⟨f r, rfl, rfl⟩
  · grind

theorem run_enumSort (env : Env) (n : String) (d : Draft) :
    (enumSort env n).run.run d = (.ok (.enum n), d.declareSort env (.enum n)) := by
  unfold enumSort
  dsimp only [Draft.declareSort, Ty.core]
  cases env.enum? n <;> rfl

theorem Ty.isDeclared (env : Env) (span : Span) (d : Draft) (ty : Ty) :
    ty.IsDeclared env span d := by
  cases ty with
  | prim p =>
    cases p with
    | pass => exact .inr ⟨rfl, _, _, rfl, rfl⟩
    | _ => exact .inl ⟨_, rfl, rfl⟩
  | enum n =>
    refine .inl ⟨_, rfl, ?_⟩
    rw [sortOf, Run.run_bind, run_enumSort]
    rfl
  | refine base lo hi => exact (isDeclared env span d base).map rfl rfl rfl
  | temporal inner => exact isDeclared env span d inner
  | positive inner =>
    by_cases hint : inner.core.isInt = true
    · refine (isDeclared env span d inner).map
        (f := fun r => (r.1, (Ty.positive inner).limits?.getD (none, none))) ?_ rfl ?_
      · rw [Ty.encoding?, if_pos hint]
      · rw [sortOf, if_pos hint]
    · rw [IsDeclared, Ty.encoding?, sortOf, if_neg hint, if_neg hint]
      exact .inr ⟨rfl, _, _, rfl, rfl⟩
  | struct | citation | validDate | moneyIn => exact .inl ⟨_, rfl, rfl⟩
  | nonEmpty | union | array | var | unknown => exact .inr ⟨rfl, _, _, rfl, rfl⟩

/-- The sort of a type is declared, unless the logic has none for it. -/
theorem Run.sortOf {I : Draft → Prop} {R : Draft → Draft → Prop} [IsPreorder Draft R]
    {E : ObstacleKind → Prop} (hE : ∀ what, E (.unsupported what)) (hd : I d)
    (hI : I (d.declareSort env ty)) (hR : R d (d.declareSort env ty)) :
    Run I R E (sortOf env span ty) d fun r d' =>
      ty.encoding? = some r ∧ d' = d.declareSort env ty := by
  rcases ty.isDeclared env span d with ⟨r, hr, hrun⟩ | ⟨-, o, what, hkind, hrun⟩
  · exact .of_ok hrun hI hR ⟨hr, rfl⟩
  · exact .of_error hrun hd (refl_of R d) (hkind ▸ hE what)

/-- All that is new in the second draft is the sort of the type. -/
structure Draft.AddsSort (env : Env) (ty : Ty) (d d' : Draft) : Prop where
  sorts : ∀ s ∈ d'.vocabulary.sorts, s ∈ d.vocabulary.sorts ∨
    (∃ n info, env.enum? n = some info ∧ s = .enum info.name info.variants) ∨
      ∃ n args, ty.core = .struct n args ∧ s = .free (structSortName (.struct n args))
  structs : ∀ e ∈ d'.structs, e ∈ d.structs ∨
    e.1 = structSortName (.struct e.2.1 e.2.2) ∧ ty.core = .struct e.2.1 e.2.2
  extended : d.structs <+: d'.structs
  noted : ∀ n args, ty.core = .struct n args →
    (d'.structs.lookup (structSortName (.struct n args))).isSome = true
  functions : d'.vocabulary.functions = d.vocabulary.functions
  constants : d'.vocabulary.constants = d.vocabulary.constants
  used : d'.used = d.used
  declared : d'.declared = d.declared
  assumptions : d'.assumptions = d.assumptions

theorem Draft.addsSort_declareSort (env : Env) (ty : Ty) (d : Draft) :
    d.AddsSort env ty (d.declareSort env ty) := by
  have hsame (hne : ∀ n args, ty.core ≠ .struct n args) : d.AddsSort env ty d :=
    ⟨fun _ h => .inl h, fun _ h => .inl h, prefix_refl _,
      fun n args hcore => absurd hcore (hne n args), rfl, rfl, rfl, rfl, rfl⟩
  unfold declareSort
  split
  next n hcore =>
    split
    next info hinfo =>
      refine ⟨fun s hs => ?_, fun _ h => .inl h, prefix_refl _, fun m args hcore' => ?_,
        by simp, by simp, rfl, rfl, rfl⟩
      · exact (Vocabulary.mem_addSort hs).imp id fun heq => .inl ⟨n, info, hinfo, heq⟩
      · cases hcore.symm.trans hcore'
    · exact hsame fun m args hcore' => nomatch hcore.symm.trans hcore'
  next n args hcore =>
    have hsort {d : Draft} {s : SortDecl}
        (hs : s ∈ (d.vocabulary.addSort (.free (structSortName (.struct n args)))).sorts) :
        s ∈ d.vocabulary.sorts ∨
          (∃ n info, env.enum? n = some info ∧ s = .enum info.name info.variants) ∨
            ∃ n args, ty.core = .struct n args ∧ s = .free (structSortName (.struct n args)) :=
      (Vocabulary.mem_addSort hs).imp id fun heq => .inr ⟨n, args, hcore, heq⟩
    dsimp only
    split
    -- a sort that is there already keeps the struct type it was noted for
    next hfound =>
      refine ⟨fun s => hsort, fun _ h => .inl h, prefix_refl _, fun m brgs hcore' => ?_,
        by simp, by simp, rfl, rfl, rfl⟩
      cases hcore.symm.trans hcore'
      exact hfound
    · refine ⟨fun s => hsort, fun e he => ?_, prefix_append _ _, fun m brgs hcore' => ?_,
        by simp, by simp, rfl, rfl, rfl⟩
      · refine (mem_append.mp he).imp id fun he => ?_
        obtain rfl := mem_singleton.mp he
        exact ⟨rfl, hcore⟩
      · grind
  next hne => exact hsame fun n args hcore => absurd hcore (hne n args)

/-!
## Declared values
-/

/-- The draft with a new constant, which is assumed to keep within its limits. -/
def Draft.declare (d : Draft) (c : ConstDecl) : Draft :=
  { d with
    declared := d.declared ++ [c.symbol]
    vocabulary := d.vocabulary.addConstant c
    assumptions := d.assumptions ++ (withinLimits? (.var c.symbol) (c.lower, c.upper)).toList }

/-- The statement that a constant equals what its value is lowered to, if that can be done. -/
def Logic.ConstDecl.equation? (c : ConstDecl) (r : Except Obstacle Lowered) : Option Term :=
  r.toOption.bind fun r => (coerce? r.1 r.2 c.sort).map (.cmp .eq (.var c.symbol))

namespace Logic.ConstDecl

variable {c : ConstDecl} {r : Except Obstacle Lowered} {t : Term}

theorem of_equation?_eq_some (h : c.equation? r = some t) :
    ∃ x t', r = .ok x ∧ coerce? x.1 x.2 c.sort = some t' ∧ t = .cmp .eq (.var c.symbol) t' := by
  obtain ⟨x, hx, hmap⟩ := Option.bind_eq_some_iff.mp h
  obtain ⟨t', ht', rfl⟩ := Option.map_eq_some_iff.mp hmap
  cases r with
  | error o => cases hx
  | ok y =>
    cases hx
    exact ⟨x, t', rfl, ht', rfl⟩

theorem of_equation?_eq_none {x : Lowered} (h : c.equation? (.ok x) = none) :
    coerce? x.1 x.2 c.sort = none :=
  Option.map_eq_none_iff.mp h

end Logic.ConstDecl

/-- The draft that lowering the value of a constant has left, with the value assumed. -/
def Draft.settle (c : ConstDecl) (outcome : Except Obstacle Lowered × Draft) : Draft :=
  { outcome.2 with
    assumptions := outcome.2.assumptions ++ (c.equation? outcome.1).toList }

/-- What becomes of a declared value: its type may not be found or have no sort, and else it is the
constant of its name, which is new or known already. -/
inductive Introduces (cx : LoweringContext) (lowerBody : Expr → Lowering Lowered)
    (l : Declaration) (d : Draft) : Except Obstacle Lowered × Draft → Prop where
  | untyped {o} (ho : typeOf cx.env l.type = .error o) : Introduces cx lowerBody l d (.error o, d)
  | unsorted {o what} (ho : o.fault.kind = .unsupported what) :
      Introduces cx lowerBody l d (.error o, d)
  | known {ty s limits} (hty : typeOf cx.env l.type = .ok ty)
      (hs : ty.encoding? = some (s, limits)) (hold : l.name.name ∈ d.declared) :
      Introduces cx lowerBody l d (.ok (.var l.name.name, s), d.declareSort cx.env ty)
  | new {ty s limits c} (hty : typeOf cx.env l.type = .ok ty)
      (hs : ty.encoding? = some (s, limits)) (hnew : l.name.name ∉ d.declared)
      (hc : c = ⟨l.name.name, l.name.name, s, limits.1, limits.2⟩) :
      Introduces cx lowerBody l d (.ok (.var c.symbol, c.sort),
        .settle c ((lowerBody l.value).run.run ((d.declareSort cx.env ty).declare c)))

/-- The value of a constant is lowered and, as far as that succeeds, assumed. -/
theorem run_settle (x : Lowering Lowered) (c : ConstDecl) (d : Draft) :
    ((do
      match ← Lowering.observe x with
      | .ok (t, source) =>
        match coerce? t source c.sort with
        | some t => do
          Lowering.assume (.cmp .eq (.var c.symbol) t)
          return (.var c.symbol, c.sort)
        | none => return (.var c.symbol, c.sort)
      | .error _ => return (.var c.symbol, c.sort)) : Lowering Lowered).run.run d =
      (.ok (.var c.symbol, c.sort), .settle c (x.run.run d)) := by
  have hobserve : (Lowering.observe x).run.run d =
      (.ok (x.run.run d).1, (x.run.run d).2) := rfl
  rw [Run.run_bind, hobserve]
  generalize x.run.run d = outcome
  obtain ⟨r, d₁⟩ := outcome
  cases r with
  | error o =>
    rw [Draft.settle]
    dsimp only [ConstDecl.equation?, Except.toOption, Option.bind_none, Option.toList_none]
    rw [append_nil]
    rfl
  | ok r =>
    rw [Draft.settle]
    dsimp only [ConstDecl.equation?, Except.toOption, Option.bind_some]
    cases coerce? r.1 r.2 c.sort with
    | some t => rfl
    | none =>
      rw [Option.map_none, Option.toList_none, append_nil]
      rfl

theorem introduces_lowerValue (cx : LoweringContext) (lowerBody : Expr → Lowering Lowered)
    (l : Declaration) (d : Draft) :
    Introduces cx lowerBody l d ((lowerValue cx lowerBody l).run.run d) := by
  unfold lowerValue
  cases hty : typeOf cx.env l.type with
  | error o => exact .untyped hty
  | ok ty =>
    change Introduces cx lowerBody l d ((sortOf cx.env l.type.span ty >>= _).run.run d)
    rw [Run.run_bind]
    rcases ty.isDeclared cx.env l.type.span d with ⟨r, hr, hrun⟩ | ⟨-, o, what, ho, hrun⟩
    · obtain ⟨s, limits⟩ := r
      rw [hrun]
      change Introduces cx lowerBody l d
        (StateT.run (m := Id) (ExceptT.run (ite _ _ _ : Lowering Lowered)) (d.declareSort cx.env ty))
      have hdeclared := (d.addsSort_declareSort cx.env ty).declared
      split
      next hnew =>
        have hnew : l.name.name ∉ d.declared := by simpa [hdeclared] using hnew
        have hvalue : Introduces cx lowerBody l d _ := .new hty hr hnew rfl
        rw [← run_settle, Draft.declare] at hvalue
        cases hlimits : withinLimits? (.var l.name.name) limits with
        | some g =>
          rw [hlimits] at hvalue
          exact hvalue
        | none =>
          rw [hlimits, Option.toList_none, append_nil] at hvalue
          exact hvalue
      next hold =>
        have hold : l.name.name ∈ d.declared := by simpa [hdeclared] using hold
        exact .known hty hr hold
    · rw [hrun]
      exact .unsorted ho

/-- The second vocabulary has the functions and constants of the first. -/
structure Logic.Vocabulary.Le (v v' : Vocabulary) : Prop where
  functions : ∀ f d, v.function? f = some d → v'.function? f = some d
  constants : v.constants ⊆ v'.constants

namespace Logic.Vocabulary.Le

theorem refl (v : Vocabulary) : v.Le v := ⟨fun _ _ h => h, fun _ h => h⟩

theorem trans {v' v'' : Vocabulary} (h : v.Le v') (h' : v'.Le v'') : v.Le v'' :=
  ⟨fun f d hf => h'.functions f d (h.functions f d hf), fun _ hc => h'.constants (h.constants hc)⟩

theorem addFunction (d : FunDecl) : v.Le (v.addFunction d) :=
  ⟨fun _ _ h => Vocabulary.function?_of_function? h, by simp⟩

theorem addConstant (c : ConstDecl) : v.Le (v.addConstant c) :=
  ⟨by simp [Vocabulary.function?], Vocabulary.subset_addConstant⟩

end Logic.Vocabulary.Le

/-- The rules with names resolved as lowering does it. -/
def LoweringContext.setting (cx : LoweringContext) (T : String → List Ty → Prop) (v : Vocabulary) :
    Setting :=
  ⟨cx.env, v, cx.value?, T⟩

/-- The struct types in a context that may occur are closed under fields, and those of functions and
of declared values are among them. -/
structure Closes (cx : LoweringContext) (T : String → List Ty → Prop) : Prop where
  fields : ∀ n args f ty, T n args → cx.env.fieldType? n args f = some ty →
    (cx.setting T {}).Admits ty
  params : ∀ f sig, cx.env.function? f = some sig → sig.typeParams = [] →
    ∀ p ∈ sig.params, (cx.setting T {}).Admits p.2
  results : ∀ f sig, cx.env.function? f = some sig → sig.typeParams = [] →
    (cx.setting T {}).Admits sig.result
  values : ∀ l ∈ cx.values, ∀ ty, Stands cx.env [] l.type ty → (cx.setting T {}).Admits ty

/-- The types of the quantified variables in an expression are admitted. -/
def Expr.Admitted (S : Setting) : Expr → Prop :=
  Everywhere fun
    | .quantified _ _ _ type _ => ∀ ty, Stands S.env [] type ty → S.Admits ty
    | _ => True

/-- What may be assumed of the constants: their limits and their values. The values are lowered
when all of `names` are in use. -/
inductive Assumed (S : Setting) (names : List String) : Term → Prop where
  | limits {l c g} (hl : S.resolve c.symbol = some l) (hc : l.Constant S c)
      (hg : withinLimits? (.var c.symbol) (c.lower, c.upper) = some g) : Assumed S names g
  | value {l c u u' t s t'} (hl : S.resolve c.symbol = some l) (hc : l.Constant S c)
      (hu : names ⊆ u) (hv : Yields S u [] l.value (t, s) u')
      (ht : coerce? t s c.sort = some t') : Assumed S names (.cmp .eq (.var c.symbol) t')

section

variable (cx : LoweringContext) (T : String → List Ty → Prop)

/-- The declared values that have not become constants yet. -/
def LoweringContext.unopened (d : Draft) : Finset String :=
  (cx.values.map (·.name.name)).toFinset.filter (· ∉ d.declared)

/-- The expression cannot be lowered to a term of the sort, although there is room for all values
that it may refer to. -/
def Obstructed (e : Expr) (s : SmtSort) : Prop :=
  ∃ pending d, (cx.unopened d).card ≤ pending ∧
    ∀ t source, ((lowerIn cx pending [] 0 e).run.run d).1 = .ok (t, source) →
      coerce? t source s = none

namespace Draft

/-- A declared value has become a constant, its limits are assumed, and so is its value as far as it
can be lowered. -/
def Settled (d : Draft) (x : String) : Prop :=
  ∃ l c, cx.value? x = some l ∧ l.Constant (cx.setting T d.vocabulary) c ∧
    (∀ g, withinLimits? (.var x) (c.lower, c.upper) = some g → g ∈ d.assumptions) ∧
    (Obstructed cx l.value c.sort ∨ ∃ u t s t' u',
      (∀ v, d.vocabulary.Le v → Yields (cx.setting T v) u [] l.value (t, s) u') ∧
      coerce? t s c.sort = some t' ∧ .cmp .eq (.var x) t' ∈ d.assumptions)

/-- All that the draft holds comes from the program, and all values but those in `opening` are
settled. -/
structure Proper (opening : List String) (d : Draft) : Prop where
  used : ∀ l ∈ cx.values, l.name.name ∈ d.used
  sorts : ∀ s ∈ d.vocabulary.sorts,
    (∃ n info, cx.env.enum? n = some info ∧ s = .enum info.name info.variants) ∨
      ∃ n args, T n args ∧ s = .free (structSortName (.struct n args))
  structs : ∀ e ∈ d.structs, e.1 = structSortName (.struct e.2.1 e.2.2) ∧ T e.2.1 e.2.2
  constants : ∀ c ∈ d.vocabulary.constants,
    ∃ l, cx.value? c.symbol = some l ∧ l.Constant (cx.setting T d.vocabulary) c
  declared : ∀ x, x ∈ d.declared ↔ ∃ c ∈ d.vocabulary.constants, c.symbol = x
  assumptions : ∀ t ∈ d.assumptions, ∀ v, d.vocabulary.Le v →
    Assumed (cx.setting T v) (cx.values.map (·.name.name)) t
  settled : ∀ x ∈ d.declared, x ∈ opening ∨ d.Settled cx T x

end Draft

end

/-- The second draft has all that the first one has. -/
structure Draft.Grows (d d' : Draft) : Prop extends d.Le d' where
  declared : d.declared ⊆ d'.declared
  assumptions : d.assumptions ⊆ d'.assumptions

namespace Draft.Grows

variable {d d' d'' : Draft}

theorem refl (d : Draft) : d.Grows d := ⟨.refl d, fun _ h => h, fun _ h => h⟩

theorem trans (h : d.Grows d') (h' : d'.Grows d'') : d.Grows d'' :=
  ⟨h.toLe.trans h'.toLe, fun _ hx => h'.declared (h.declared hx),
    fun _ ht => h'.assumptions (h.assumptions ht)⟩

instance : IsPreorder Draft Grows where
  refl := Grows.refl
  trans _ _ _ := Grows.trans

theorem vocabulary (h : d.Grows d') : d.vocabulary.Le d'.vocabulary := ⟨h.functions, h.constants⟩

end Draft.Grows

section

variable {cx : LoweringContext} {T : String → List Ty → Prop} {opening : List String}
  {d d' : Draft}

theorem Declaration.Constant.mono {l : Declaration} {c : ConstDecl} {v' : Vocabulary}
    (h : l.Constant (cx.setting T v) c) (hv : v.constants ⊆ v'.constants) :
    l.Constant (cx.setting T v') c :=
  ⟨hv h.mem, h.symbol, h.name, h.type⟩

theorem card_unopened_le (h : d.Grows d') : (cx.unopened d').card ≤ (cx.unopened d).card := by
  refine Finset.card_le_card fun x hx => ?_
  obtain ⟨hx, hd⟩ := Finset.mem_filter.mp hx
  exact Finset.mem_filter.mpr ⟨hx, fun h' => hd (h.declared h')⟩

/-- A value that is opened was not open before. -/
theorem card_unopened_lt {l : Declaration} (hl : l ∈ cx.values) (hd : l.name.name ∉ d.declared)
    (hd' : l.name.name ∈ d'.declared) (h : d.Grows d') :
    (cx.unopened d').card < (cx.unopened d).card := by
  refine Finset.card_lt_card (Finset.ssubset_iff_of_subset ?_ |>.mpr ⟨l.name.name, ?_, ?_⟩)
  · intro x hx
    obtain ⟨hx, hxd⟩ := Finset.mem_filter.mp hx
    exact Finset.mem_filter.mpr ⟨hx, fun h' => hxd (h.declared h')⟩
  · refine Finset.mem_filter.mpr ⟨?_, hd⟩
    exact mem_toFinset.mpr (mem_map_of_mem hl)
  · exact fun hx => (Finset.mem_filter.mp hx).2 hd'

namespace Draft

theorem Settled.mono {x : String} (h : d.Settled cx T x) (hd : d.Grows d') :
    d'.Settled cx T x := by
  obtain ⟨l, c, hl, hc, hlimits, hvalue⟩ := h
  refine ⟨l, c, hl, hc.mono hd.constants, fun g hg => hd.assumptions (hlimits g hg), ?_⟩
  refine hvalue.imp id ?_
  rintro ⟨u, t, s, t', u', hyields, ht, hmem⟩
  exact ⟨u, t, s, t', u', fun v hv => hyields v (hd.vocabulary.trans hv), ht,
    hd.assumptions hmem⟩

/-- A larger draft is proper if what is new in it comes from the program. -/
theorem Proper.extend (hd : d.Proper cx T opening) (hle : d.Grows d')
    (hsorts : ∀ s ∈ d'.vocabulary.sorts, s ∈ d.vocabulary.sorts ∨
      (∃ n info, cx.env.enum? n = some info ∧ s = .enum info.name info.variants) ∨
        ∃ n args, T n args ∧ s = .free (structSortName (.struct n args)))
    (hstructs : ∀ e ∈ d'.structs, e ∈ d.structs ∨
      e.1 = structSortName (.struct e.2.1 e.2.2) ∧ T e.2.1 e.2.2)
    (hconstants : d'.vocabulary.constants = d.vocabulary.constants)
    (hdeclared : d'.declared = d.declared)
    (hassumptions : d'.assumptions = d.assumptions) : d'.Proper cx T opening where
  used l hl := hle.used (hd.used l hl)
  sorts s hs := (hsorts s hs).elim (hd.sorts s) id
  structs e he := (hstructs e he).elim (hd.structs e) id
  constants c hc := by
    obtain ⟨l, hl, hconst⟩ := hd.constants c (hconstants ▸ hc)
    exact ⟨l, hl, hconst.mono hle.constants⟩
  declared x := by
    rw [hdeclared, hconstants]
    exact hd.declared x
  assumptions t ht v hv := hd.assumptions t (hassumptions ▸ ht) v (hle.vocabulary.trans hv)
  settled x hx := (hd.settled x (hdeclared ▸ hx)).imp id fun h => h.mono hle

/-- Lowering starts from a proper draft. -/
theorem proper_start : cx.start.Proper cx T [] where
  used l hl := mem_eraseDups.mpr (mem_map_of_mem hl)
  sorts := by simp [LoweringContext.start]
  structs := by simp [LoweringContext.start]
  constants := by simp [LoweringContext.start]
  declared := by simp [LoweringContext.start]
  assumptions := by simp [LoweringContext.start]
  settled := by simp [LoweringContext.start]

end Draft

/-- The step keeps drafts proper and lets them grow, whether it comes to an end or meets an
obstacle, and its result satisfies `Q`. -/
abbrev Keeps (cx : LoweringContext) (T : String → List Ty → Prop) (opening : List String)
    {β : Type} (x : Lowering β) (d : Draft) (Q : β → Draft → Prop) : Prop :=
  Run (Draft.Proper cx T opening) Draft.Grows (fun _ => True) x d Q

theorem Decides.keeps {β : Type} {Q : β → Prop} {F : ObstacleKind → Prop} {x : Lowering β}
    (hx : Decides Q F x) (hd : d.Proper cx T opening) :
    Keeps cx T opening x d fun b d' => Q b ∧ d' = d :=
  hx.run hd fun _ _ _ => trivial

section Steps

variable (hd : d.Proper cx T opening)

include hd

theorem keeps_warnHidden {locals q x} :
    Keeps cx T opening (warnHidden cx locals q x) d fun _ d' => d'.used = d.used := by
  unfold warnHidden
  split
  · refine Run.modify (hd.extend ?hle (fun _ h => .inl h) (fun _ h => .inl h) rfl rfl rfl) ?hle rfl
    exact ⟨⟨fun _ h => h, fun _ _ h => h, fun _ h => h⟩, fun _ h => h, fun _ h => h⟩
  · exact Run.pure hd rfl

/-- A symbol that is given out is new. -/
theorem keeps_fresh {name : String} :
    Keeps cx T opening (Lowering.fresh name) d fun symbol d' =>
      symbol ∉ d.used ∧ symbol ∈ symbolsFor name ∧ d'.used = d.used ++ [symbol] := by
  obtain ⟨hnew, hfor⟩ := freshSymbol_spec d.used name
  have hle : d.Grows { d with used := d.used ++ [freshSymbol d.used name] } :=
    ⟨⟨fun _ h => mem_append_left _ h, fun _ _ h => h, fun _ h => h⟩, fun _ h => h,
      fun _ h => h⟩
  exact .of_ok rfl (hd.extend hle (fun _ h => .inl h) (fun _ h => .inl h) rfl rfl rfl) hle
    ⟨hnew, hfor, rfl⟩

theorem keeps_addFunction {f : FunDecl} :
    Keeps cx T opening (Lowering.addFunction f) d fun _ d' =>
      d' = { d with vocabulary := d.vocabulary.addFunction f } := by
  have hle : d.Grows { d with vocabulary := d.vocabulary.addFunction f } :=
    ⟨⟨fun _ h => h, (Vocabulary.Le.addFunction f).functions, by simp⟩, fun _ h => h, fun _ h => h⟩
  exact Run.modify (hd.extend hle (by simp +contextual) (fun _ h => .inl h) (by simp) rfl rfl) hle
    rfl

/-- Declaring the sort of a type keeps a draft proper. -/
theorem Draft.Proper.declareSort {t : Ty} (hadmits : (cx.setting T {}).Admits t) :
    (d.declareSort cx.env t).Proper cx T opening ∧ d.Grows (d.declareSort cx.env t) := by
  have hadds := d.addsSort_declareSort cx.env t
  have hle : d.Grows (d.declareSort cx.env t) := by
    refine ⟨⟨hadds.used ▸ fun _ h => h, fun f g h => ?_, hadds.constants ▸ fun _ h => h⟩,
      hadds.declared ▸ fun _ h => h, hadds.assumptions ▸ fun _ h => h⟩
    rwa [Vocabulary.function?, hadds.functions]
  refine ⟨hd.extend hle (fun s hs => ?_) (fun e he => ?_) hadds.constants hadds.declared
    hadds.assumptions, hle⟩
  · refine (hadds.sorts s hs).imp id fun hnew => hnew.imp id ?_
    rintro ⟨n, args, hcore, heq⟩
    exact ⟨n, args, hadmits n args hcore, heq⟩
  · exact (hadds.structs e he).imp id fun hnew => ⟨hnew.1, hadmits _ _ hnew.2⟩

theorem keeps_enumSort {n : String} :
    Keeps cx T opening (enumSort cx.env n) d fun s d' => s = .enum n ∧ d'.used = d.used := by
  obtain ⟨hproper, hle⟩ := hd.declareSort (t := .enum n) (fun _ _ hcore => nomatch hcore)
  exact .of_ok (run_enumSort cx.env n d) hproper hle ⟨rfl, (d.addsSort_declareSort _ _).used⟩

/-- The sort and the limits of a type. -/
theorem keeps_sortOf (hadmits : (cx.setting T {}).Admits ty) :
    Keeps cx T opening (sortOf cx.env span ty) d fun r d' =>
      ty.encoding? = some r ∧ d'.used = d.used := by
  obtain ⟨hproper, hle⟩ := hd.declareSort hadmits
  refine (Run.sortOf (fun _ => trivial) hd hproper hle).mono fun r d' _ hr => ⟨hr.1, ?_⟩
  rw [hr.2, (d.addsSort_declareSort _ _).used]

end Steps

end

end Statute
