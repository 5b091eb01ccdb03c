import Statute.Proofs.Check.Bounds
import Statute.Proofs.Check.Inversion
import Statute.Proofs.Check.Written
import Statute.Proofs.Lowering.Sorts

/-!
# Struct literals

In an accepted program, every struct literal gives each field of its struct once, inherited fields
included, and nothing else; and no constant that is given makes the condition of its field fail:
`literals_complete`.

What is reported is a condition that comes out false. That it comes out true otherwise is a matter
of types: conditions are truth values, and a constant expression that is typed as one folds to one.
-/

namespace Statute

open Checking List

variable {want : Option Ty} {s : RecordShape}

/-!
## Constants have the types of their expressions
-/

/-- The constant is a truth value. -/
def Constant.IsTruth (v : Constant) : Prop := ∃ b, v = .bool b

namespace Constant

variable {op : BinaryOp} {a b v : Constant}

theorem isTruth_of_not (h : negate .not a = some v) : v.IsTruth := by
  cases a <;> cases h
  exact ⟨_, rfl⟩

/-- Connectives and comparisons give truth values. -/
theorem isTruth_of_combine (hop : op.isLogical ∨ op.isComparison)
    (h : combine op a b = some v) : v.IsTruth := by
  have hfloats {x y : Float} (h : combineFloats op x y = some v) : v.IsTruth := by
    unfold combineFloats at h
    split at h
    · obtain ⟨o, -, rfl⟩ := Option.map_eq_some_iff.mp h
      exact ⟨_, rfl⟩
    next hcomparison =>
      have hlogical := hop.resolve_right hcomparison
      cases op with
      | and | or | implies => cases h
      | add | sub | mul | div | mod | eq | ne | lt | gt | le | ge => cases hlogical
  unfold combine at h
  split at h
  next m n =>
    cases op with
    | add | sub | mul | div | mod => rcases hop with hop | hop <;> cases hop
    | and | or | implies => cases h
    | eq | ne | lt | gt | le | ge =>
      cases h
      exact ⟨_, rfl⟩
  next p q =>
    cases op <;> cases h
    all_goals exact ⟨_, rfl⟩
  next s s' =>
    cases op <;> cases h
    all_goals exact ⟨_, rfl⟩
  · obtain ⟨x, -, hx⟩ := Option.bind_eq_some_iff.mp h
    obtain ⟨y, -, hy⟩ := Option.bind_eq_some_iff.mp hx
    exact hfloats hy

end Constant

theorem Ty.core_ne_bool_of_isNumeric {t : Ty} (h : t.isNumeric) : t.core ≠ .bool := by
  intro hcore
  rw [← isNumeric_core, hcore] at h
  cases h

/-- Arithmetic gives numbers of a built-in type or of the type of an operand. -/
theorem core_arithmeticType (l r : Ty) : (arithmeticType l r).core = .prim .float ∨
    (arithmeticType l r).core = l.core ∨ (arithmeticType l r).core = r.core := by
  unfold arithmeticType
  split
  · exact .inl rfl
  · exact .inl rfl
  · exact .inr (.inr r.core_core)
  · exact .inr (.inl l.core_core)

theorem core_durationType? {op : BinaryOp} {l r t : Ty} (h : durationType? op l r = some t) :
    ∃ p, t.core = .prim p ∧ p ≠ .bool := by
  unfold durationType? at h
  split at h
  all_goals cases h
  all_goals exact ⟨_, rfl, by decide⟩

variable {e : Expr} {v : Constant}

section Fold

variable {cx : Context} {scope : Scope} {ρ : String → Option Constant}

/-- The type is built in, or that of a name with a value. -/
def Scope.Known (scope : Scope) (ρ : String → Option Constant) (t : Ty) : Prop :=
  (∃ p, t.core = .prim p) ∨
    ∃ x b, (ρ x).isSome = true ∧ scope.lookup x = some b ∧ t.core = b.type.core

/-- An expression that folds has a type that is known, and is a truth value if that is its type,
provided that the same can be said of names. -/
theorem Typed.of_fold
    (hρ : ∀ x v b, ρ x = some v → scope.lookup x = some b → b.type.core = .bool → v.IsTruth)
    {t : Ty} (h : Typed cx scope want e t) (hv : fold ρ e = some v) :
    (t.core = .bool → v.IsTruth) ∧ scope.Known ρ t := by
  fun_induction fold ρ e generalizing want t v with
  | case1 span l =>
    cases h with
    | literal ht =>
      obtain rfl := (passes_literalType l span).result t ht
      refine ⟨fun hcore => ?_, .inl ⟨_, rfl⟩⟩
      cases l <;> cases hv <;> cases hcore
      exact ⟨_, rfl⟩
  | case2 span id =>
    cases h with
    | name hb => exact ⟨hρ _ v _ hv hb, .inr ⟨id.name, _, by simp [hv], hb, rfl⟩⟩
  | case3 span op e ih =>
    obtain ⟨a, ha, hv⟩ := Option.bind_eq_some_iff.mp hv
    cases h with
    | @unary _ _ _ _ _ s _ he hu =>
      rcases (passes_unaryType op s _).result t hu with ⟨rfl, -, rfl⟩ | ⟨-, hnumeric, rfl⟩
      · exact ⟨fun _ => Constant.isTruth_of_not hv, .inl ⟨.bool, rfl⟩⟩
      · rw [Scope.Known, s.core_core]
        exact ⟨fun hcore => absurd hcore (s.core_ne_bool_of_isNumeric hnumeric), (ih he ha).2⟩
  | case4 span op l r ihl ihr =>
    obtain ⟨a, ha, hrest⟩ := fold_binary_eq_some hv
    cases h with
    | @binary _ _ _ _ _ _ s s' _ hl hr ht =>
      have htruth (hop : op.isLogical = true ∨ op.isComparison = true) : v.IsTruth := by
        rcases hrest with hsettled | ⟨-, b, -, hcombine⟩
        · obtain ⟨-, p, c, -, rfl, -⟩ := Constant.of_settled? hsettled
          exact ⟨c, rfl⟩
        · exact Constant.isTruth_of_combine hop hcombine
      cases (passes_binaryType op s s' _ _).result t ht with
      | logical hop => exact ⟨fun _ => htruth (.inl hop), .inl ⟨.bool, rfl⟩⟩
      | comparison _ hop => exact ⟨fun _ => htruth (.inr hop), .inl ⟨.bool, rfl⟩⟩
      | duration _ _ hduration =>
        obtain ⟨p, hp, hne⟩ := core_durationType? hduration
        exact ⟨fun hcore => absurd (Ty.prim.inj (hp.symm.trans hcore)) hne, .inl ⟨p, hp⟩⟩
      | arithmetic hlogical _ hnumeric hnumeric' =>
        unfold Scope.Known
        rcases core_arithmeticType s s' with hcore | hcore | hcore <;> rw [hcore]
        · grind
        · exact ⟨fun hbool => absurd hbool (s.core_ne_bool_of_isNumeric hnumeric), (ihl hl ha).2⟩
        rcases hrest with hsettled | ⟨-, b, hb, -⟩
        · simp [(Constant.of_settled? hsettled).1] at hlogical
        · exact ⟨fun hbool => absurd hbool (s'.core_ne_bool_of_isNumeric hnumeric'),
            (ihr hr hb).2⟩
  | case5 => cases hv

/-- A constant that is given where truth values are expected is one. -/
theorem isTruth_of_fits {t u : Ty} (ht : Typed cx scope want e t) (hv : foldClosed e = some v)
    (hu : u.core = .bool) (hfits : fits cx.env u t) : v.IsTruth := by
  obtain ⟨htruth, hknown⟩ := ht.of_fold (fun x v b hx => absurd hx (by simp)) hv
  rcases hknown with ⟨p, hp⟩ | ⟨x, b, hx, -⟩
  · refine htruth ?_
    have haccepts : u.accepts t = true := by simpa [fits, hu] using hfits
    rw [← Ty.accepts_core, hu, Ty.accepts, Ty.primAccepts, ← Ty.eachAlternative_core, hp,
      Ty.eachAlternative] at haccepts
    cases p with
    | bool => exact hp
    | _ => cases haccepts
  · cases hx

end Fold

/-!
## Fields
-/

theorem passes_fieldBinding {cx : Context} (s : RecordShape) (b : Binding) (want got : Ty)
    (span : Span) : Passes (fieldBinding cx s b want got span) fun _ =>
      (∃ v, want = .var v) ∨ fits cx.env want got := by
  by_cases hvar : ∃ v, want = .var v
  · exact (onlyAdds_fieldBinding cx s b want got span).passes fun _ _ => .inl hvar
  unfold fieldBinding
  split
  next v => exact absurd ⟨v, rfl⟩ hvar
  · refine (Passes.faultIf _ _ _).bind fun _ => .pure fun hfits => .inr ?_
    simpa using hfits

/-- The value does not make the condition of the field fail: if both are constant, the condition
comes out true. -/
def Field.Satisfied (f : Field) (value : Expr) : Prop :=
  ∀ c v w, f.condition = some c → foldClosed value = some v →
    fold (fun name => if name == f.name then some v else none) c = some w → w = .bool true

/-- The field is the last one of the name in the list. -/
def Field.LastNamed (f : Field) (name : String) (fields : List Field) : Prop :=
  ∃ before after, fields = before ++ f :: after ∧ f.name = name ∧ ∀ g ∈ after, g.name ≠ name

variable {f : Field}

theorem RecordShape.lastNamed_of_field? {name : String} (h : s.field? name = some f) :
    f.LastNamed name s.fields := by
  obtain ⟨hname, after, before, hsplit, hafter⟩ := find?_eq_some_iff_append.mp h
  refine ⟨before.reverse, after.reverse, ?_, by simpa using hname, fun g hg => ?_⟩
  · rw [← reverse_reverse s.fields, hsplit]
    simp
  · simpa using hafter g (mem_reverse.mp hg)

/-- A value that is taken for a field satisfies its condition. -/
theorem Field.satisfied {cx cx' : Context} {scope : Scope} {b b' : Binding} {got : Ty}
    (hsound : f.type.Sound cx.env)
    (hadmits : ∀ c, f.condition = some c → cx'.Admits f.name f.type c)
    (hgot : Typed cx scope want e got)
    (hb : Gives (fieldBinding cx s b (b.apply f.type) got e.span) b')
    (hcondition : fieldConditionFaults f e = []) : f.Satisfied e := by
  intro c v w hc hv hw
  obtain ⟨inside, u, hu, hbool, hfield⟩ := hadmits c hc
  have hvalue (hcore : f.type.core = .bool) : v.IsTruth := by
    have happly : (b.apply f.type).core = .bool := by
      rw [b.core_apply, hcore]
      rfl
    rcases (passes_fieldBinding s b _ got e.span).result b' hb with ⟨x, hx⟩ | hfits
    · rw [hx] at happly
      cases happly
    · exact isTruth_of_fits hgot hv happly hfits
  have hname {x : String} {v' : Constant}
      (hx : (if x == f.name then some v else none) = some v') : x = f.name ∧ v = v' := by
    simpa using hx
  obtain ⟨htruth, hknown⟩ := hu.of_fold (fun x v' y hx hy hcore => by
    obtain ⟨rfl, rfl⟩ := hname hx
    exact hvalue (hfield y hy ▸ hcore)) hw
  have hcore : u.core = .bool := by
    rcases hknown with ⟨p, hp⟩ | ⟨x, y, hx, hy, hsame⟩
    · unfold Ty.isBool at hbool
      rw [hp] at hbool ⊢
      cases p with
      | bool => rfl
      | _ => cases hbool
    · obtain ⟨v', hv'⟩ := Option.isSome_iff_exists.mp hx
      obtain ⟨rfl, rfl⟩ := hname hv'
      rw [hfield y hy] at hsame
      unfold Ty.isBool at hbool
      rw [hsame] at hbool ⊢
      exact hsound.core_eq_bool hbool
  obtain ⟨p, rfl⟩ := htruth hcore
  cases p with
  | true => rfl
  | false =>
    unfold fieldConditionFaults at hcondition
    rw [hc, hv] at hcondition
    dsimp only at hcondition
    rw [hw] at hcondition
    cases hcondition

/-- The names of the fields that are given, in order, are all different, and for each of them the
last field of the name takes the value. -/
theorem TypedFields.gives {cx cx' : Context} {scope b b'} {given given' : List String}
    {fields : List (Ident × Expr)} (h : TypedFields cx scope s b given fields b' given')
    (hnodup : given.Nodup) (hfields : ∀ f ∈ s.fields, f.type.Sound cx.env ∧ ∀ c, f.condition = some
      c → cx'.Admits f.name f.type c) :
    given' = given ++ fields.map (·.1.name) ∧ given'.Nodup ∧
      ∀ g ∈ fields, ∃ f : Field, f.LastNamed g.1.name s.fields ∧ f.Satisfied g.2 := by
  induction fields generalizing b given with
  | nil =>
    cases h
    exact ⟨by simp, hnodup, by simp⟩
  | cons g fields ih =>
    cases h with
    | @cons _ _ _ _ _ _ _ name e f got _ hnew hf he hb _ hcondition hfs =>
      have hnodup' : (given ++ [name.name]).Nodup :=
        nodup_append.mpr ⟨hnodup, by simp, fun n hn m hm heq =>
          hnew (mem_singleton.mp hm ▸ heq ▸ hn)⟩
      obtain ⟨rfl, hlast, hrest⟩ := ih hfs hnodup'
      obtain ⟨hsound, hadmits⟩ :=
        hfields f (mem_reverse.mp (mem_of_find?_eq_some hf))
      refine ⟨by simp, hlast, forall_mem_cons.mpr ⟨⟨f, ?_, ?_⟩, hrest⟩⟩
      · exact s.lastNamed_of_field? hf
      · exact f.satisfied hsound hadmits he hb hcondition

theorem RecordShape.mem_of_missing {given : List String} (h : s.missing given = [])
    (hf : f ∈ s.fields) : f.name ∈ given := by
  by_contra hnot
  have hmem : f.name ∈ s.missing given := by
    refine mem_eraseDups.mpr (mem_filter.mpr ⟨mem_map_of_mem hf, ?_⟩)
    simpa using hnot
  rw [h] at hmem
  cases hmem

/-!
## Accepted programs
-/

/-- Every struct literal of an accepted program, wherever it stands, is one of a declared struct. It
gives no field twice, and it gives the fields of the struct, inherited ones included, and no others.
What it gives for a field agrees with the condition of the last field of the name. -/
theorem literals_complete {p : Program} {options : CheckOptions} {cp : CheckedProgram}
    (h : p.check options = .ok cp) {ambient : List String} {span : Span} {type : Ident}
    {fields : List (Ident × Expr)} (hliteral : p.Holds ambient (.record span type fields)) :
    ∃ id, cp.env.structId? type.name = some id ∧ (fields.map (·.1.name)).Nodup ∧
      (∀ n, n ∈ fields.map (·.1.name) ↔ n ∈ (cp.env.effectiveFields id).map (·.name)) ∧
      ∀ g ∈ fields, ∃ f : Field, f.LastNamed g.1.name (cp.env.effectiveFields id) ∧
        f.Satisfied g.2 := by
  obtain ⟨env, scope, want, t, hdefs, ht⟩ := typed_of_holds h hliteral
  cases ht with
  | @record _ _ _ _ shape _ b given hshape hfields hmissing =>
    obtain ⟨id, hid, hrest⟩ := Option.bind_eq_some_iff.mp hshape
    obtain ⟨d, -, hd⟩ := Option.bind_eq_some_iff.mp hrest
    have houtline : env.outline = cp.env.outline := by rw [Env.outline, Env.outline, hdefs]
    have heffective : shape.fields = cp.env.effectiveFields id := by
      cases hd
      exact Env.effectiveFields_of_defs hdefs id
    obtain ⟨henv, hrounds⟩ := Rounds.of_check h
    have hknown : ∀ f ∈ shape.fields, f.type.Sound env ∧
        ∀ c, f.condition = some c → Context.Admits ⟨p.typed, options, []⟩ f.name f.type c := by
      intro f hf
      rw [heffective] at hf
      refine ⟨(sound_types_of_check h _ (Env.type_mem_types_of_effectiveFields hf)).congr
        houtline.symm, fun c hc => ?_⟩
      obtain ⟨s, hs, hown⟩ := p.exists_placed_of_field (henv ▸ hf)
      exact hrounds.admits hs hown hc
    obtain ⟨rfl, hnodup, hgiven⟩ := hfields.gives nodup_nil hknown
    rw [nil_append] at hnodup hmissing
    rw [heffective] at hgiven
    refine ⟨id, (Env.structId?_congr houtline _).symm.trans hid, hnodup, fun n => ⟨?_, ?_⟩, hgiven⟩
    · intro hn
      obtain ⟨g, hg, rfl⟩ := mem_map.mp hn
      obtain ⟨f, ⟨before, after, hsplit, hname, -⟩, -⟩ := hgiven g hg
      exact mem_map.mpr ⟨f, by simp [hsplit], hname⟩
    · intro hn
      obtain ⟨f, hf, rfl⟩ := mem_map.mp hn
      exact shape.mem_of_missing hmissing (heffective ▸ hf)

/-- A theft that was armed, with the years it is worth. -/
def armedTheft : Expr :=
  .record {} "Theft"
    [("armed", .name {} "armed"), ("years", .literal {} (.int 3))]

/-- The years of an act are not negative. -/
def notNegative : Expr := .binary {} .ge "years" (.literal {} (.int 0))

/-- The case of a theft. One is opened in a branch, and the theft stands inside it. -/
def openCase : FunctionDecl where
  span := {}
  name := "open"
  typeParams := []
  params := [⟨{}, "armed", .prim {} .bool⟩]
  result := .named {} "Case" []
  body :=
    [.branch {} "armed"
        [.ret {} (.record {} "Case" [("act", armedTheft)])] none,
      .ret {} (.record {} "Case" [("act", armedTheft)])]

def assizes : Program where
  name := "assizes"
  items :=
    [.struct ⟨{}, "Act", [], none, [⟨{}, "years", .prim {} .int, some notNegative⟩]⟩,
      .struct ⟨{}, "Theft", [], some "Act",
        [⟨{}, "armed", .prim {} .bool, none⟩]⟩,
      .struct ⟨{}, "Case", [], none, [⟨{}, "act", .named {} "Theft" [], none⟩]⟩,
      .function openCase]

def assizesEnv : Env where
  defs := [⟨"Act", {}, [], .struct none [⟨"years", .int, {}, some notNegative, "Act"⟩]⟩,
    ⟨"Theft", {}, [], .struct (some 0) [⟨"armed", .bool, {}, none, "Theft"⟩]⟩,
    ⟨"Case", {}, [], .struct none [⟨"act", .struct "Theft" [], {}, none, "Case"⟩]⟩]
  functions := [⟨"open", {}, [], [("armed", .bool)], .struct "Case" []⟩]

/-- The years are inherited, and given last. -/
theorem literals_complete_armedTheft :
    assizes.check = .ok ⟨assizes, assizesEnv, []⟩ ∧ assizes.Holds [] armedTheft ∧
    (assizesEnv.effectiveFields 1).map (·.name) = ["years", "armed"] ∧
    ∃ id, assizesEnv.structId? "Theft" = some id ∧ ["armed", "years"].Nodup ∧
      (∀ n, n ∈ ["armed", "years"] ↔ n ∈ (assizesEnv.effectiveFields id).map (·.name)) ∧
      ∃ f : Field, f.LastNamed "years" (assizesEnv.effectiveFields id) ∧
        f.Satisfied (.literal {} (.int 3)) := by
  have hcheck : assizes.check = .ok ⟨assizes, assizesEnv, []⟩ := check_eq_ok rfl
  have hcase : assizes.Holds [] (.record {} "Case" [("act", armedTheft)]) :=
    .body (f := openCase) (.tail _ (.tail _ (.tail _ (.head _)))) (.yes (.head _) .refl) (.head _)
      (.head _)
  have hholds : assizes.Holds [] armedTheft := hcase.inside (.head _)
  obtain ⟨id, hid, hnodup, hnames, hgiven⟩ := literals_complete hcheck hholds
  exact ⟨hcheck, hholds, rfl, id, hid, hnodup, hnames, hgiven _ (.tail _ (.head _))⟩

end Statute
