import Statute.Proofs.Check.Aptness
import Statute.Proofs.Check.Inheritance

/-!
# Values of structs where structs are asked for

A value of one struct may stand where another is asked for if it extends it. Whether the program is
accepted or not, if two structs are compared and nothing is reported, they are the same or the one
extends the other, directly or through others, `structs_compared_related`.

Of a struct and itself only the names are compared: the type arguments are not looked at, and a box
of a truth value is taken for a box of a number, `box_taken_for_another`. Where the struct has no
type parameters, or the two are different, nothing of that kind can happen.
-/

namespace Statute

open Checking

variable {p : Program} {options : CheckOptions}

/-!
## All comparisons of a program
-/

section Defs

variable {env env' : Env} (h : env'.defs = env.defs)

include h

theorem fits_of_defs (expected got : Ty) : fits env' expected got = fits env expected got := by
  unfold fits
  simp only [Env.isSubtype_of_defs h]

theorem Compares.of_defs {β : Type} {x} {cs : List TypeComparison} {ps} {Q : β → Prop}
    (hx : Compares env x cs ps Q) : Compares env' x cs ps Q := by
  have houtline : env.outline = env'.outline := by
    unfold Env.outline
    rw [h]
  refine ⟨hx.onlyAdds, hx.result, fun c hc => ?_, fun c hc hfits => ?_, hx.placed⟩
  · obtain ⟨hexpected, hgot⟩ := hx.apt c hc
    exact ⟨hexpected.congr houtline, hgot.congr houtline⟩
  · rw [fits_of_defs h] at hfits
    exact hx.reported c hc hfits

end Defs

theorem Program.apt_typed (p : Program) : p.typed.Apt := by
  intro t ht
  have houtline : p.declared.outline = p.typed.outline := by
    unfold Env.outline
    rw [p.defs_declared]
  obtain ⟨htests, hfunctions⟩ := p.others_typed
  refine (p.apt_types t ?_).congr houtline
  -- there are no legal tests and functions yet
  rcases List.mem_append.mp ht with ht | ht
  · rw [← p.defs_declared] at ht
    exact List.mem_append_left _ ht
  unfold Env.signatureTypes at ht
  rw [htests, hfunctions] at ht
  cases ht

/-- Checking a program makes its comparisons and looks at its placements. -/
theorem compares_checkAll (p : Program) (options : CheckOptions) :
    Compares p.declared (checkAll options p) (p.comparisons options) (p.placements options)
      fun _ => True := by
  refine (tame_collectTypes _ _).onlyAdds.compares.quiet_bind fun _ => ?_
  refine (tame_resolveStructs _ _).onlyAdds.compares.quiet_bind fun _ => ?_
  have hinheritance : Compares p.typed (checkInheritance ⟨p.typed, options, []⟩ p.placed)
      (structsComparisons ⟨p.typed, options, []⟩ p.placed)
      (structsPlacements ⟨p.typed, options, []⟩ p.placed) fun _ => True :=
    @compares_checkInheritance ⟨p.typed, options, []⟩ p.apt_typed p.placed
  refine (hinheritance.of_defs p.defs_declared).bind fun _ => ?_
  refine (tame_collectSignatures _ _).onlyAdds.compares.quiet_bind fun _ => ?_
  refine (@compares_checkItems ⟨p.declared, options, []⟩ _ ⟨p.apt_types, Scope.apt_empty⟩
    p.items).bind_quiet fun _ => ?_
  exact .pure trivial

/-!
## What is reported
-/

/-- The check of the program reports the finding, or one that reads the same. -/
def Program.Reports (p : Program) (options : CheckOptions) (f : Finding) : Prop :=
  ∃ errors, p.check options = .error errors ∧ ∃ g ∈ errors, g.diagnostic = f.diagnostic

variable {f : Finding}

/-- A finding is left out only if there is one that reads the same. -/
theorem Finding.exists_mem_distinct {fs} (hf : f ∈ fs) :
    ∃ g ∈ distinct fs, g.diagnostic = f.diagnostic := by
  have hfold (gs kept : List Finding) (h : f ∈ gs ∨ ∃ g ∈ kept, g.diagnostic = f.diagnostic) :
      ∃ g ∈ gs.foldl (fun kept f =>
        if kept.any fun g => g.diagnostic == f.diagnostic then kept else kept ++ [f]) kept,
        g.diagnostic = f.diagnostic := by
    induction gs generalizing kept with
    | nil => simpa using h
    | cons g gs ih =>
      rw [List.foldl_cons]
      refine ih _ ?_
      rcases h with hmem | ⟨k, hk, hsame⟩
      · rcases List.mem_cons.mp hmem with rfl | hmem
        · refine .inr ?_
          split
          next hany => simpa using hany
          · exact ⟨f, by simp, rfl⟩
        · exact .inl hmem
      · refine .inr ?_
        split
        · exact ⟨k, hk, hsame⟩
        · exact ⟨k, List.mem_append_left _ hk, hsame⟩
  exact hfold fs [] (.inl hf)

theorem Program.reports_of_mem (hf : f ∈ ((checkAll options p).run {}).2.errors) :
    p.Reports options f := by
  unfold Reports Program.check
  revert hf
  generalize (checkAll options p).run {} = result
  obtain ⟨env, report⟩ := result
  intro hf
  obtain ⟨g, hg, hsame⟩ := Finding.exists_mem_distinct hf
  have hmem : g ∈ Finding.inOrder (Finding.distinct report.errors) := List.mem_mergeSort.mpr hg
  dsimp only
  split
  next hnone =>
    rw [hnone] at hmem
    cases hmem
  next errors _ => exact ⟨_, rfl, g, hmem, hsame⟩

/-- What is wrong with a constant is reported wherever it is put. -/
theorem Program.reports_of_placement {q : Placement} (hq : q ∈ p.placements options)
    (hf : f ∈ q.faults) : p.Reports options f :=
  reports_of_mem ((compares_checkAll p options).placed q hq f hf {})

/-!
## Structs that fit
-/

namespace Ty

/-- Constraints are looked through on the accepting side. -/
theorem accepts_core (expected got : Ty) : expected.core.accepts got = expected.accepts got := by
  fun_induction Ty.core expected with
  | case1 base lo hi ih | case2 inner opens closes ih | case3 inner ih | case4 inner ih =>
    rw [ih, accepts]
  | case5 | case6 => rw [accepts, accepts]
  | case7 | case8 | case9 | case10 | case11 | case12 | case13 | case14 => rfl

/-- And on the other. -/
theorem eachAlternative_core (p : Ty → Bool) (got : Ty) :
    got.core.eachAlternative p = got.eachAlternative p := by
  fun_induction Ty.core got with
  | case1 base lo hi ih | case2 inner opens closes ih | case3 inner ih | case4 inner ih =>
    rw [ih, eachAlternative]
  | case5 | case6 => rw [eachAlternative, eachAlternative]
  | case7 | case8 | case9 | case10 | case11 | case12 | case13 | case14 => rfl

end Ty

/-- Structs fit if they are the same and the arguments are accepted, or if the names are related. -/
theorem fits_struct (env : Env) {expected got : Ty} {E G as bs} (hE : expected.core = .struct E as)
    (hG : got.core = .struct G bs) :
    fits env expected got = (E == G && Ty.acceptsAll as bs || env.isSubtype G E) := by
  unfold fits
  rw [← Ty.accepts_core, hE, hG, Ty.accepts, ← Ty.eachAlternative_core, hG, Ty.eachAlternative]

variable {name : String}

/-- The struct of a type is one of the program. -/
theorem Program.exists_struct_of_hasStruct {arity : Nat} (h : p.declared.HasStruct name arity) :
    ∃ s ∈ p.structs, s.name.name = name ∧ s.params.length = arity := by
  obtain ⟨id, hid, harity⟩ := h
  obtain ⟨hplace, hsome⟩ := Env.structId?_eq_some_iff.mp hid
  obtain ⟨s, hs, rfl⟩ := p.exists_placed hsome
  obtain ⟨hmem, hstored⟩ := p.stored hs
  refine ⟨s.decl, hmem, Env.idOf?_inj hstored.place hplace, ?_⟩
  have hparams := congrArg (Option.map List.length) hstored.params
  rw [Option.map_map] at hparams
  have hlength := hparams.symm.trans harity
  simpa using hlength

/-- A struct without type parameters has no arguments. -/
theorem Program.args_eq_nil {t : Ty} {args : List Ty} (ht : t.Apt p.declared)
    (hcore : t.core = .struct name args)
    (hplain : ∀ s ∈ p.structs, s.name.name = name → s.params = []) : args = [] := by
  have hstruct := ht.core
  rw [hcore] at hstruct
  obtain ⟨s, hs, hname, harity⟩ := exists_struct_of_hasStruct (Ty.Every.struct_iff.mp hstruct).1
  rw [hplain s hs hname] at harity
  exact List.eq_nil_of_length_eq_zero harity.symm

/-- Of a struct and itself the type arguments are not looked at. -/
theorem fits_struct_self {env} {expected got : Ty} {E as bs} (hexpected : expected.Apt env)
    (hE : expected.core = .struct E as) (hG : got.core = .struct E bs) : fits env expected got := by
  have hstruct := hexpected.core
  rw [hE] at hstruct
  obtain ⟨id, hid, -⟩ := (Ty.Every.struct_iff.mp hstruct).1
  rw [fits_struct env hE hG, Env.isSubtype_self (Env.structId?_eq_some_iff.mp hid).1, Bool.or_true]

/-- Where two structs are compared and nothing is reported, they are the same or the one extends the
other; if they differ or have no type parameters, then the one extends the other or the arguments
fit. A struct always fits itself, whatever the arguments. -/
theorem structs_compared_related {p : Program} {options : CheckOptions} {c : TypeComparison}
    (hc : c ∈ p.comparisons options) {E G : String} {as bs : List Ty}
    (hE : c.expected.core = .struct E as) (hG : c.got.core = .struct G bs) :
    (¬ p.Reports options c.finding → G = E ∨ Relation.TransGen p.Extends G E) ∧
    (¬ p.Reports options c.finding →
      G ≠ E ∨ (∀ s ∈ p.structs, s.name.name = E → s.params = []) →
        Relation.TransGen p.Extends G E ∨ G = E ∧ Ty.acceptsAll as bs = true) ∧
    (G = E → fits p.declared c.expected c.got = true) := by
  have hchecked := compares_checkAll p options
  obtain ⟨hexpected, hgot⟩ := hchecked.apt c hc
  have hrelated (hquiet : ¬ p.Reports options c.finding) :
      G = E ∨ Relation.TransGen p.Extends G E := by
    have hfits : fits p.declared c.expected c.got = true := by
      by_contra hnot
      rw [Bool.not_eq_true] at hnot
      exact hquiet (Program.reports_of_mem (hchecked.reported c hc hnot {}))
    rw [fits_struct _ hE hG, Bool.or_eq_true, Bool.and_eq_true, beq_iff_eq] at hfits
    rcases hfits with ⟨hsame, -⟩ | hsubtype
    · exact .inl hsame.symm
    · have hextends := Program.extends_of_isSubtype hsubtype
      rcases Relation.reflTransGen_iff_eq_or_transGen.mp hextends with hsame | hextends
      · exact .inl hsame.symm
      · exact .inr hextends
  refine ⟨hrelated, fun hquiet hplain => ?_, fun hsame => ?_⟩
  · rcases hrelated hquiet with hsame | hextends
    · rcases hplain with hdiffer | hplain
      · exact absurd hsame hdiffer
      · rw [Program.args_eq_nil hexpected hE hplain,
          Program.args_eq_nil hgot hG (hsame ▸ hplain)]
        exact .inr ⟨hsame, rfl⟩
    · exact .inl hextends
  · rw [hsame] at hG
    exact fits_struct_self hexpected hE hG

theorem Program.not_reports_of_check {cp} (h : p.check options = .ok cp) (f : Finding) :
    ¬ p.Reports options f := by
  rintro ⟨errors, herrors, -⟩
  rw [h] at herrors
  cases herrors

/-- A theft is handed to a function that asks for an act. -/
def thefts : Program where
  name := "thefts"
  items :=
    [.struct ⟨{}, "Act", [], none, [⟨{}, "intent", .prim {} .bool, none⟩]⟩,
      .struct ⟨{}, "Theft", [], some "Act",
        [⟨{}, "taking", .prim {} .bool, none⟩]⟩,
      .function ⟨{}, "guilty", [], [⟨{}, "act", .named {} "Act" []⟩],
        .prim {} .bool, [.ret {} (.member {} "act" "intent")]⟩,
      .value ⟨{}, "theft", .named {} "Theft" [], .record {} "Theft"
        [("intent", .literal {} (.bool true)), ("taking", .literal {} (.bool true))]⟩,
      .value ⟨{}, "verdict", .prim {} .bool,
        .call {} "guilty" ["theft"]⟩]

def theftsEnv : Env where
  defs := [⟨"Act", {}, [], .struct none [⟨"intent", .bool, {}, none, "Act"⟩]⟩,
    ⟨"Theft", {}, [], .struct (some 0) [⟨"taking", .bool, {}, none, "Theft"⟩]⟩]
  functions := [⟨"guilty", {}, [], [("act", .struct "Act" [])], .bool⟩]

theorem check_thefts : thefts.check = .ok ⟨thefts, theftsEnv, []⟩ := check_eq_ok rfl

/-- The comparison of the theft with the act that is asked for in the call. -/
def theftForAct : TypeComparison := ⟨.struct "Act" [], .struct "Theft" [], {}⟩

theorem theftForAct_mem : theftForAct ∈ thefts.comparisons {} := by
  have hlist : thefts.comparisons {} = [⟨.bool, .bool, {}⟩, ⟨.bool, .bool, {}⟩, ⟨.bool, .bool, {}⟩,
    ⟨.struct "Theft" [], .struct "Theft" [], {}⟩, theftForAct, ⟨.bool, .bool, {}⟩] := rfl
  rw [hlist]
  simp

/-- The theft passes as an act, because it extends one. -/
theorem theft_extends_act :
    thefts.check = .ok ⟨thefts, theftsEnv, []⟩ ∧ theftForAct ∈ thefts.comparisons {} ∧
    ¬ thefts.Reports {} theftForAct.finding ∧ Relation.TransGen thefts.Extends "Theft" "Act" := by
  have hquiet := Program.not_reports_of_check check_thefts theftForAct.finding
  obtain ⟨-, hrelated, -⟩ := structs_compared_related theftForAct_mem rfl rfl
  refine ⟨check_thefts, theftForAct_mem, hquiet, ?_⟩
  rcases hrelated hquiet (.inl (by decide)) with hextends | ⟨hsame, -⟩
  · exact hextends
  · exact absurd hsame (by decide)

/-- A box of a truth value is put where a box of a number is asked for. -/
def parcels : Program where
  name := "parcels"
  items :=
    [.struct ⟨{}, "Box", ["T"], none, [⟨{}, "content", .var {} "T", none⟩]⟩,
      .value ⟨{}, "truth", .named {} "Box" [.prim {} .bool],
        .record {} "Box" [("content", .literal {} (.bool true))]⟩,
      .value ⟨{}, "number", .named {} "Box" [.prim {} .int], "truth"⟩]

def parcelsEnv : Env where
  defs := [⟨"Box", {}, ["T"], .struct none [⟨"content", .var "T", {}, none, "Box"⟩]⟩]

def truthForNumber : TypeComparison := ⟨.struct "Box" [.int], .struct "Box" [.bool], {}⟩

/-- Nothing is reported, although a truth value does not fit a number and a box does not extend
anything. -/
theorem box_taken_for_another :
    parcels.check = .ok ⟨parcels, parcelsEnv, []⟩ ∧ truthForNumber ∈ parcels.comparisons {} ∧
    ¬ parcels.Reports {} truthForNumber.finding ∧ Ty.acceptsAll [.int] [.bool] = false ∧
    ¬ Relation.TransGen parcels.Extends "Box" "Box" := by
  have hcheck : parcels.check = .ok ⟨parcels, parcelsEnv, []⟩ := check_eq_ok rfl
  have hlist : parcels.comparisons {} = [⟨.bool, .bool, {}⟩,
    ⟨.struct "Box" [.bool], .struct "Box" [.bool], {}⟩, truthForNumber] := rfl
  refine ⟨hcheck, by rw [hlist]; simp, Program.not_reports_of_check hcheck _, by decide, ?_⟩
  intro hextends
  obtain ⟨a, hfirst, -⟩ := Relation.TransGen.head'_iff.mp hextends
  obtain ⟨s, hs, -, hparent⟩ := hfirst
  have hroots : ∀ s ∈ parcels.structs, s.parent = none := by decide
  rw [hroots s hs] at hparent
  cases hparent

end Statute
