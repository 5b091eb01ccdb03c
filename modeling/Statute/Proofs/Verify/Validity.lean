import Statute.Proofs.Lowering.Course
import Statute.Proofs.Lowering.Faithful
import Statute.Proofs.Search.Unsat
import Statute.Proofs.Verify.Refutation
import Statute.Verify.Result

/-!
# Valid principles are true

A principle that is found valid is true, `valid_principle_true`. Lowering keeps its meaning, a
structure in which it is false would be a model of its refutation, and the search says that there is
no model only if there is none.

What lowering makes of a name can go wrong in three ways, and the theorem is about principles where
it does not: see `Site.Clear`. At the end stand three principles that are found valid and are false.
-/

namespace Statute

open Logic List

universe u

variable {p : Principle} {t : Term}

/-!
## The query of a lowered principle
-/

theorem mem_liftedSymbols {p : String → Prop} (h : t.Binders p) : ∀ x ∈ liftedSymbols t, p x := by
  fun_induction liftedSymbols t with
  | case1 x s guard inner hn ih =>
    exact forall_mem_cons.mpr ⟨h.1 x rfl, ih h.2.2.2⟩
  | case2 x s guard inner hn =>
    exact forall_mem_cons.mpr ⟨h.1 x rfl, by simp⟩
  | case3 x s body hb ih => exact forall_mem_cons.mpr ⟨h.1 x rfl, ih h.2⟩
  | case4 => simp

/-- The symbols of nested quantifiers differ if none is bound again inside. -/
theorem nodup_liftedSymbols
    (h : t.Everywhere fun u => ∀ q x s body, u = .quant q x s body → body.Binders (· ≠ x)) :
    (liftedSymbols t).Nodup := by
  fun_induction liftedSymbols t with
  | case1 x s guard inner hn ih =>
    refine nodup_cons.mpr ⟨fun hx => ?_, ih h.2.2.2⟩
    exact mem_liftedSymbols (h.1 _ _ _ _ rfl).2.2 x hx rfl
  | case2 x s guard inner hn => exact nodup_singleton x
  | case3 x s body hb ih =>
    refine nodup_cons.mpr ⟨fun hx => ?_, ih h.2⟩
    exact mem_liftedSymbols (h.1 _ _ _ _ rfl) x hx rfl
  | case4 => exact nodup_nil

variable {s : SmtSort}

namespace Search.Answerable

variable {v : Vocabulary} {S : Set String} {t : Term} {c : ConstDecl}

theorem addConstant (h : Answerable v S t) (c : ConstDecl) : Answerable (v.addConstant c) S t :=
  h.mono (by simp [Vocabulary.function?]) Vocabulary.subset_addConstant

theorem not (h : Answerable v S t) : Answerable v S (.not t) :=
  ⟨⟨⟨rfl, trivial, by simp [Term.bare?], by simp [Term.binder?]⟩, h.searchable⟩, h.free⟩

/-- The body of a quantifier, once its symbol is a constant. -/
theorem body {q : Quantifier} (h : Answerable v S (.quant q c.symbol s t)) :
    Answerable (v.addConstant c) S t := by
  have hbody : Searchable v S t := h.searchable.2
  refine ⟨hbody.mono (by simp [Vocabulary.function?]), fun x hx => ?_⟩
  by_cases hxc : x = c.symbol
  · exact hxc ▸ Vocabulary.exists_mem_addConstant
  · obtain ⟨e, he, hex⟩ := h.free x (mem_filter.mpr ⟨hx, by simpa using hxc⟩)
    exact ⟨e, Vocabulary.subset_addConstant he, hex⟩

theorem of_implies {a b : Term} (h : Answerable v S (.implies a b)) :
    Answerable v S a ∧ Answerable v S b :=
  ⟨⟨h.searchable.2.1, fun x hx => h.free x (mem_append_left _ hx)⟩,
    ⟨h.searchable.2.2, fun x hx => h.free x (mem_append_right _ hx)⟩⟩

end Search.Answerable

open Search (Answerable)

/-- A vocabulary in which a search can be made: no real numbers, and constants apart from the
functions without arguments. -/
structure Serves (v : Vocabulary) (S : Set String) : Prop where
  real : v.RealFree
  constants : ∀ c ∈ v.constants, c.symbol ∉ S

theorem Serves.addConstant {v : Vocabulary} {S : Set String} {c : ConstDecl} (h : Serves v S)
    (hsort : c.sort ≠ .real) (hsymbol : c.symbol ∉ S) : Serves (v.addConstant c) S := by
  refine ⟨⟨fun e he => ?_, by simpa using h.real.functions⟩, fun e he => ?_⟩
  · rcases Vocabulary.mem_addConstant he with he | rfl
    · exact h.real.constants e he
    · exact hsort
  rcases Vocabulary.mem_addConstant he with he | rfl
  · exact h.constants e he
  · exact hsymbol

/-- The query for a goal can be put to the search if the goal and the assertions made so far can. -/
theorem serves_refuteGoal {v ts S} (hv : Serves v S) (hts : ∀ u ∈ ts, Answerable v S u)
    (ht : Answerable v S t) :
    Serves (refuteGoal v ts t).vocabulary S ∧
      ∀ u ∈ (refuteGoal v ts t).assertions, Answerable (refuteGoal v ts t).vocabulary S u := by
  -- all three ways to lift a quantifier add its symbol as a constant
  have lift {v : Vocabulary} {c : ConstDecl} {body : Term} (hv : Serves v S)
      (h : Answerable v S (.quant .all c.symbol c.sort body)) : Serves (v.addConstant c) S :=
    hv.addConstant (by simpa [Term.isReal] using h.searchable.1.1)
      (h.searchable.1.2.2.2 c.symbol rfl)
  fun_induction refuteGoal v ts t with
  | case1 v ts x s guard inner c hn ih =>
    obtain ⟨rfl, rfl⟩ : c.symbol = x ∧ c.sort = s := symbol_sort_of_noteLimits hn
    obtain ⟨hguard, hinner⟩ := ht.body.of_implies
    refine ih (lift hv ht) (forall_mem_append.mpr ⟨?_, by simpa using hguard⟩) hinner
    exact fun u hu => (hts u hu).addConstant c
  | case2 v ts x s guard inner c hn =>
    obtain ⟨rfl, rfl⟩ : c.symbol = x ∧ c.sort = s := symbol_sort_of_noteLimits hn
    refine ⟨lift hv ht, forall_mem_append.mpr ⟨?_, by simpa using ht.body.not⟩⟩
    exact fun u hu => (hts u hu).addConstant c
  | case3 v ts x s body hb ih =>
    refine ih (lift (c := liftedConstant x s) hv ht) (fun u hu => (hts u hu).addConstant _) ?_
    exact ht.body (c := liftedConstant x s)
  | case4 v ts goal =>
    exact ⟨hv, forall_mem_append.mpr ⟨hts, by simpa using ht.not⟩⟩

/-!
## Worlds
-/

/-- What a program is read under: a structure, and values for the declared names that may be read.
Each of them has the value that its declaration gives it. The functions that may be called without
arguments have other names. -/
structure World (α : Type u) (cx : LoweringContext) where
  M : Structure α
  ρ : Valuation α
  names : Set String
  bare : Set String
  suits : M.Suits cx.env
  enum_name : ∀ n info, cx.env.enum? n = some info → info.name = n
  apart : ∀ x ∈ names, x ∉ bare
  declaration : ∀ x ∈ names, ∃ d, cx.value? x = some d ∧ d.type.Plain cx.env ∧
    d.value.Clear cx.env bare ∧ (∀ y ∈ d.value.reads, y ∈ names) ∧
    ρ x ∈ d.type.values M cx.env ∧ ρ x = d.value.meaning M cx.env ρ

variable {ty : Ty}

/-- A type of whole numbers, truth values or an enum is encoded by its sort and its own limits. -/
theorem Ty.encoding?_of_sort? (h : ty.sort? = some s) :
    ty.encoding? = some (s, ty.outerLimits) := by
  fun_induction Ty.sort? ty generalizing s with
  | case1 | case2 | case3 =>
    cases h
    rfl
  | case4 base lo hi ih =>
    obtain ⟨hbase, rfl⟩ := (Ty.sort?_refine : (Ty.refine base lo hi).sort? = _ ↔ _).mp h
    rw [Ty.encoding?, ih hbase]
    rfl
  | case5 => cases h

theorem Ty.admits_of_sort? {A : Allowance} (h : ty.sort? = some s) : A.Admits ty := by
  fun_induction Ty.sort? ty generalizing s with
  | case1 | case2 | case3 =>
    intro n args hcore
    cases hcore
  | case4 base lo hi ih =>
    obtain ⟨hbase, -⟩ := (Ty.sort?_refine : (Ty.refine base lo hi).sort? = _ ↔ _).mp h
    exact ih hbase
  | case5 => cases h

variable {env : Env}

theorem TypeExpr.Plain.admits {A : Allowance} {t : TypeExpr} (h : t.Plain env)
    (hty : Stands env [] t ty) : A.Admits ty := by
  obtain ⟨ty', s, hstands, hs⟩ := h
  obtain rfl := hty.unique hstands
  exact Ty.admits_of_sort? hs

namespace World

variable {α : Type u} {cx : LoweringContext} (W : World α cx)

/-- What lowering leaves behind of what is plain: enums, functions of the program with their sorts,
and constants for the declared names. -/
def allowance : Allowance where
  sorts _ := False
  structs _ _ := False
  functions f := ∃ sig, cx.env.function? f.name = some sig ∧
    sig.params.map (·.2.sort?) = f.params.map some ∧ sig.result.sort? = some f.result
  names := (· ∈ W.names)
  assumptions _ := True

variable {W}

theorem allowed_of_plain {e : Expr} (h : e.Plain cx.env) :
    e.Everywhere (Expr.AllowedHere cx.env W.allowance) := by
  refine h.imp fun e he => ?_
  cases e with
  | member | record | satisfies => exact he.elim
  | literal | name | variant | unary | binary => trivial
  | quantified span q var type body => exact fun ty hty => TypeExpr.Plain.admits he hty
  | select span place e arms =>
    intro a ha span test hpattern
    have hplain := he a ha
    rw [hpattern] at hplain
    cases hplain
  | call span callee args =>
    intro sig hsig _
    obtain ⟨sig', hsig', ⟨sorts, hsorts⟩, s, hs⟩ := he
    obtain rfl : sig' = sig := Option.some.inj (hsig'.symm.trans hsig)
    have hname : sig'.name = callee.name := by simpa using find?_some hsig
    refine ⟨Ty.admits_of_sort? hs, fun p hp => ?_, fun sorts' s' hsorts' hs' => ?_⟩
    · obtain ⟨s, -, hs⟩ := mem_map.mp (hsorts ▸ mem_map_of_mem hp)
      exact Ty.admits_of_sort? hs.symm
    have hencoded : sig'.params.map (·.2.encoding?.map (·.1)) = sorts.map some := by
      rw [← hsorts]
      refine map_congr_left fun p hp => ?_
      obtain ⟨s, -, hs⟩ := mem_map.mp (hsorts ▸ mem_map_of_mem hp)
      rw [Ty.encoding?_of_sort? hs.symm, ← hs]
      rfl
    have heq : sorts.map some = sorts'.map some := hencoded.symm.trans hsorts'
    obtain rfl : s = s' := by simpa [Ty.encoding?_of_sort? hs] using hs'
    exact ⟨sig', hname ▸ hsig, hsorts.trans heq, hs⟩

theorem suffices_allowance : W.allowance.Suffices cx := by
  have hfirst {l : Declaration} (hl : cx.value? l.name.name = some l)
      (hname : l.name.name ∈ W.names) :
      l.type.Plain cx.env ∧ l.value.Clear cx.env W.bare ∧ ∀ y ∈ l.value.reads, y ∈ W.names := by
    obtain ⟨d, hd, htype, hclear, hreads, -⟩ := W.declaration _ hname
    cases hl.symm.trans hd
    exact ⟨htype, hclear, hreads⟩
  refine ⟨fun _ _ _ _ => trivial, fun l hl hname ty hty => (hfirst hl hname).1.admits hty,
    fun l hl hname => ?_, fun _ _ _ _ _ _ _ _ _ _ _ => trivial⟩
  obtain ⟨-, hclear, hreads⟩ := hfirst hl hname
  exact ⟨allowed_of_plain hclear.plain, hreads⟩

section Vocabulary

variable {v : Vocabulary}

/-- What is clear can be read off its term. -/
theorem legible {e : Expr} (h : e.Clear cx.env W.bare)
    (hv : ∀ f ∈ v.functions, W.allowance.functions f) :
    e.Legible W.M (cx.setting (fun _ _ => True) v) W.bare := by
  refine ((h.plain.and h.apart).and h.tight).imp ?_
  rintro e ⟨⟨hplain, hapart⟩, htight⟩
  cases e with
  | literal span l =>
    cases l with
    | int | bool => rfl
    | _ => cases hplain
  | select span place e arms =>
    intro a ha
    have hpattern := hplain a ha
    cases hp : a.pattern with
    | literal span l =>
      rw [hp] at hpattern
      cases l with
      | int | bool => rfl
      | _ => cases hpattern
    | satisfies =>
      rw [hp] at hpattern
      cases hpattern
    | wildcard | variant | binding => rfl
  | quantified span q var type body =>
    obtain ⟨ty, s, hstands, hs⟩ := hplain
    refine ⟨hapart, ty, hstands, fun s' limits hencoding => ?_⟩
    obtain ⟨rfl, rfl⟩ : s = s' ∧ ty.outerLimits = limits := by
      simpa [Ty.encoding?_of_sort? hs] using hencoding
    exact ⟨Ty.ne_real_of_sort? hs, Set.ext fun d => Ty.mem_values hs (htight ty hstands)⟩
  | call span f args =>
    obtain ⟨sig, hsig, ⟨sorts, hsorts⟩, s, hs⟩ := hplain
    have hne {ty : Ty} {s s' : SmtSort} {limits : Limits} (hs : ty.sort? = some s)
        (hencoding : ty.encoding? = some (s', limits)) : s' ≠ .real := by
      obtain ⟨rfl, -⟩ : s = s' ∧ ty.outerLimits = limits := by
        simpa [Ty.encoding?_of_sort? hs] using hencoding
      exact Ty.ne_real_of_sort? hs
    refine ⟨?_, fun sig' hsig' => ?_⟩
    · rintro rfl
      exact hapart
    cases hsig.symm.trans hsig'
    refine ⟨forall_mem_cons.mpr ⟨fun s' limits => hne hs, ?_⟩, fun g hg => ?_⟩
    · rw [forall_mem_map]
      intro p hp s' limits hencoding
      obtain ⟨s, -, hs⟩ := mem_map.mp (hsorts ▸ mem_map_of_mem hp)
      exact hne hs.symm hencoding
    · obtain ⟨sig', hsig', hparams, -⟩ := hv g (mem_of_find?_eq_some hg)
      have hname : g.name = f.name := by simpa using find?_some hg
      rw [hname] at hsig'
      cases hsig.symm.trans hsig'
      simpa using (congrArg List.length hparams).symm
  | member | record | satisfies => exact hplain.elim
  | name | variant | unary | binary => trivial

/-- The constant of a declared name has the sort of the name's type and keeps within its limits. -/
theorem fits_constant {l : Declaration} {c : ConstDecl} (hname : c.symbol ∈ W.names)
    (hl : cx.value? c.symbol = some l) (hc : l.Constant (cx.setting (fun _ _ => True) v) c) :
    c.sort ≠ .real ∧ W.ρ c.symbol ∈ W.M.carrier c.sort ∧
      Limits.Contain (c.lower, c.upper) (W.ρ c.symbol) := by
  obtain ⟨d, hd, ⟨ty, s, hstands, hs⟩, -, -, ⟨ty', hstands', hvalue⟩, -⟩ := W.declaration _ hname
  cases hl.symm.trans hd
  obtain ⟨ty'', hty, -, hencoding⟩ := hc.type
  obtain rfl := hstands.unique hstands'
  obtain rfl := hstands.unique hty
  obtain ⟨rfl, hlimits⟩ : s = c.sort ∧ ty.outerLimits = (c.lower, c.upper) := by
    simpa [Ty.encoding?_of_sort? hs] using hencoding
  exact ⟨Ty.ne_real_of_sort? hs, hlimits ▸ Ty.carrier_of_mem_values hs hvalue⟩

/-- Declared names become constants that bear them, none of them a real number. -/
theorem declares {u : List String} (hu : cx.values.map (·.name.name) ⊆ u) :
    (cx.setting (fun _ _ => True) v).Declares W.names u := by
  refine ⟨fun x hx => ?_, fun x hx l c hl hc => ?_⟩
  · obtain ⟨d, hd, -⟩ := W.declaration x hx
    have hname : d.name.name = x := by simpa using find?_some hd
    exact hu (hname ▸ mem_map_of_mem (mem_of_find?_eq_some hd))
  have hname : l.name.name = x := by simpa using find?_some hl
  have hsymbol : c.symbol = x := hc.symbol.trans hname
  subst hsymbol
  exact ⟨rfl, (W.fits_constant hx hl hc).1⟩

/-- What is assumed of declared names can be searched with, and holds. -/
theorem holds_assumed (hv : ∀ f ∈ v.functions, W.allowance.functions f)
    (hconstants : ∀ c ∈ v.constants, c.symbol ∈ W.names ∧ c.symbol ∈ cx.values.map (·.name.name))
    (h : Assumed (cx.setting (fun _ _ => True) v) (cx.values.map (·.name.name)) t) :
    Search.Searchable v W.bare t ∧ W.M.Holds W.ρ t := by
  cases h with
  | @limits l c g hl hc hg =>
    obtain ⟨-, -, hcontain⟩ := W.fits_constant (hconstants c hc.mem).1 hl hc
    exact ⟨searchable_of_harmless (withinLimits?_harmless hg).1,
      holds_withinLimits?.mpr hcontain t hg⟩
  | @value l c u u' r s t' hl hc hu hyields ht =>
    obtain ⟨hname, -⟩ := hconstants c hc.mem
    obtain ⟨hreal, -⟩ := W.fits_constant hname hl hc
    obtain ⟨-, rfl⟩ := eq_of_coerce? hreal ht
    obtain ⟨d, hd, -, hclear, hreads, -, hvalue⟩ := W.declaration _ hname
    cases hl.symm.trans hd
    have hconveys := hyields.conveys (legible hclear hv) (fun x hx _ => hreads x hx)
      ⟨fun c hc => hu (hconstants c hc).2, by simp⟩ (by simp) (W.declares hu)
    have hvar : Search.Searchable v W.bare (.var c.symbol) :=
      searchable_of_parts ⟨rfl, rfl, rfl, fun _ => trivial⟩ (by simp [Term.parts])
    refine ⟨searchable_cmp hvar hconveys.searchable, ?_⟩
    rw [Structure.holds_cmp, hconveys.value W.ρ W.ρ ⟨by simp, fun _ _ _ => rfl⟩]
    exact hvalue

end Vocabulary

theorem interprets {d : Draft} (hd : d.Within cx.env W.allowance) :
    W.M.Interprets d.vocabulary where
  variants_eq n vs hn := by
    obtain hn | ⟨m, info, hinfo, heq⟩ | ⟨_, _, hstruct, -⟩ := hd.sorts _ hn
    · exact hn.elim
    · cases heq
      rw [W.enum_name m info hinfo]
      exact W.suits.variants_eq m info hinfo
    · exact hstruct.elim
  nonempty n hn := by
    obtain hn | ⟨m, info, -, heq⟩ | ⟨_, _, hstruct, -⟩ := hd.sorts _ hn
    · exact hn.elim
    · cases heq
    · exact hstruct.elim
  result_mem f hf args hargs := by
    obtain ⟨sig, hsig, hparams, hresult⟩ := hd.functions f hf
    exact W.suits.result_mem f.name sig hsig f.params f.result hparams hresult args hargs

/-- Where the refutation of its form has no model, a principle is true. -/
theorem true_of_unsat {f : Form} (hclear : p.body.Clear cx.env W.bare)
    (hreads : ∀ x ∈ p.body.reads, x ∈ W.names) (hf : cx.lower p = .ok f) {s : BoundedSearch}
    {timeout : Nat} (hunsat : s.check (refutation f) timeout = .unsat) :
    (p.body.meaning W.M cx.env W.ρ).IsTrue := by
  obtain ⟨⟨d', hwithin, hvocabulary', -⟩, -⟩ :=
    within_of_lower W.suffices_allowance (allowed_of_plain hclear.plain) hreads hf
  obtain ⟨d, hd, hvocabulary, hassumptions, hyields⟩ := exists_proper hf
  have hfunctions : ∀ g ∈ f.vocabulary.functions, W.allowance.functions g :=
    hvocabulary' ▸ hwithin.functions
  have hnames : ∀ c ∈ f.vocabulary.constants, c.symbol ∈ W.names :=
    hvocabulary' ▸ hwithin.constants
  have hfits : ∀ c ∈ f.vocabulary.constants, c.sort ≠ .real ∧
      W.ρ c.symbol ∈ W.M.carrier c.sort ∧ Limits.Contain (c.lower, c.upper) (W.ρ c.symbol) := by
    intro c hc
    obtain ⟨l, hl, hconstant⟩ := hd.constants c (hvocabulary ▸ hc)
    exact W.fits_constant (hnames c hc) hl hconstant
  have hready : Ready f.vocabulary cx.start.used [] := hvocabulary ▸ hd.ready
  have hclosed := (hyields.apart hready).closed
  have hconveys := hyields.conveys (legible hclear hfunctions) (fun x hx _ => hreads x hx) hready
    (by simp) (W.declares fun x hx => mem_eraseDups.mpr hx)
  have hassumed : ∀ t ∈ f.assumptions,
      Answerable f.vocabulary W.bare t ∧ W.M.Holds W.ρ t := by
    intro t ht
    have hmem : ∀ c ∈ f.vocabulary.constants, c.symbol ∈ cx.values.map (·.name.name) :=
      hvocabulary ▸ hd.mem_names
    have hassumed := hd.assumptions t (hassumptions ▸ ht) d.vocabulary (.refl _)
    rw [← hvocabulary] at hassumed
    obtain ⟨hsearchable, hholds⟩ :=
      W.holds_assumed hfunctions (fun c hc => ⟨hnames c hc, hmem c hc⟩) hassumed
    exact ⟨⟨hsearchable, (hassumed.closed hmem).free⟩, hholds⟩
  by_contra hfalse
  -- what is lifted was bound in the formula, so it is no constant
  have hlifted : ∀ x ∈ liftedSymbols f.formula, ∀ c ∈ f.vocabulary.constants, c.symbol ≠ x := by
    refine mem_liftedSymbols (hclosed.orderly.imp fun u hu x hx => ?_)
    cases u with
    | quant q y s body =>
      cases hx
      exact hu.1
    | _ => cases hx
  have hfresh : Fresh (liftedSymbols f.formula) f.vocabulary f.assumptions := by
    refine ⟨nodup_liftedSymbols (hclosed.orderly.imp ?_),
      fun c hc hx => hlifted _ hx c hc rfl, fun t ht x hx hx' => ?_⟩
    · rintro u hu q x s body rfl
      exact hu.2
    · obtain ⟨c, hc, rfl⟩ := (hassumed t ht).1.free x hx
      exact hlifted _ hx' c hc rfl
  have hrefuted : f.RefutedBy W.M W.ρ := by
    refine ⟨hvocabulary' ▸ interprets hwithin, fun c hc => (hfits c hc).2.1,
      fun t ht => (hassumed t ht).2, ?_⟩
    rwa [Structure.Holds, hconveys.value W.ρ W.ρ ⟨by simp, fun _ _ _ => rfl⟩]
  obtain ⟨ρ, hoff, hsat⟩ := (refutedBy_iff hfresh hrefuted.interprets hrefuted.fits).mp hrefuted
  -- declared names keep within limits by their types, what is lifted does so by its guard
  have hinside : ρ.Within (refutation f).vocabulary := by
    intro c hc _
    refine within_of_refuteGoal (fun _ c hc => ?_) hsat.holds c hc
    rw [hoff c.symbol fun hx => hlifted _ hx c hc rfl]
    exact (hfits c hc).2.2
  have hserves : Serves f.vocabulary W.bare := by
    refine ⟨⟨fun c hc => (hfits c hc).1, fun g hg => ?_⟩, fun c hc => W.apart _ (hnames c hc)⟩
    obtain ⟨sig, -, hparams, hresult⟩ := hfunctions g hg
    refine ⟨Ty.ne_real_of_sort? hresult, fun s hs => ?_⟩
    obtain ⟨p, -, hp⟩ := mem_map.mp (hparams ▸ mem_map_of_mem hs)
    exact Ty.ne_real_of_sort? hp
  obtain ⟨hserves', hanswerable⟩ : Serves (refutation f).vocabulary W.bare ∧
      ∀ u ∈ (refutation f).assertions, Answerable (refutation f).vocabulary W.bare u :=
    serves_refuteGoal hserves (fun t ht => (hassumed t ht).1) ⟨hconveys.searchable, hclosed.free⟩
  exact Search.not_satisfiedBy_of_unsat hunsat ⟨hserves'.constants, hanswerable⟩ hserves'.real
    hinside hsat

end World

/-!
## Principles of a program
-/

namespace Site

/-- The principle and all declared values that it uses are about whole numbers, truth values, enums
and functions between them. -/
structure Plain (env : Env) (s : Site) : Prop where
  body : s.principle.body.Plain env
  uses : s.principle.body.Uses (Declaration.Plain env) s.inForce

/-- Nothing in the principle and in the declared values that it uses is taken for something else.
Each of these values is the first of its name in the program. The functions that are called without
arguments, all of them among `bare`, have other names than the declared values and than the symbols
of quantified variables. And limits that stand around limits imply them. -/
structure Clear (env : Env) (values : List Declaration) (bare : Set String) (s : Site) : Prop where
  first : s.principle.body.Uses (fun l => values.find? (·.name.name == l.name.name) = some l)
    s.inForce
  apart : s.principle.body.Apart bare
  usesApart : s.principle.body.Uses (fun l => l.name.name ∉ bare ∧ l.value.Apart bare) s.inForce
  tight : s.principle.body.Tight env
  usesTight : s.principle.body.Uses (fun l => l.value.Tight env) s.inForce

end Site

/-- A structure and values of the declarations in force make a world for lowering. -/
theorem exists_world {α : Type u} {cx : LoweringContext} {M : Structure α} {σ} {s : Site} {bare}
    (hM : M.Suits cx.env) (henum : ∀ n info, cx.env.enum? n = some info → info.name = n)
    (hplain : s.Plain cx.env) (hclear : s.Clear cx.env cx.values bare)
    (hσ : Assigns M cx.env s.inForce σ) :
    ∃ W : World α cx, W.M = M ∧ W.bare = bare ∧
      ∀ x ∈ s.principle.body.reads, x ∈ W.names ∧ W.ρ x = σ x := by
  let P (l : Declaration) : Prop := l.Plain cx.env ∧ cx.value? l.name.name = some l ∧
    (l.name.name ∉ bare ∧ l.value.Apart bare) ∧ l.value.Tight cx.env
  have hP : ∀ l, P l → l.Plain cx.env ∧ cx.value? l.name.name = some l :=
    fun l hl => ⟨hl.1, hl.2.1⟩
  obtain ⟨names, ρ, hgrounded, hρ⟩ := exists_grounded hP hσ
  refine ⟨⟨M, ρ, names, bare, hM, henum, fun x hx => ?_, fun x hx => ?_⟩, rfl, rfl, fun x hx => ?_⟩
  · obtain ⟨l, rfl, hl, -⟩ := hgrounded x hx
    exact hl.2.2.1.1
  · obtain ⟨l, rfl, hl, hreads, hmem, hvalue⟩ := hgrounded x hx
    exact ⟨l, hl.2.1, hl.1.type, ⟨hl.1.value, hl.2.2.1.2, hl.2.2.2⟩, hreads, hmem, hvalue⟩
  · exact hρ x ((hplain.uses x hx).and ((hclear.first x hx).and
      ((hclear.usesApart x hx).and (hclear.usesTight x hx))))

variable {o : VerifyOptions} {cp : CheckedProgram}

/-- A principle is valid if it can be lowered and the answer to its refutation is that there is no
model. -/
theorem verifyPrinciple_valid_iff {s : Solver} :
    (∃ r, s.verifyPrinciple o cp p = .ok r ∧ r.verdict = .valid) ↔
      ∃ f, (LoweringContext.ofProgram cp o.maxDepth).lower p = .ok f ∧
        s.check (refutation f) o.timeout = .unsat := by
  constructor
  · rintro ⟨r, hr, hvalid⟩
    obtain ⟨f, hf, hr⟩ := exists_of_bind_eq_ok hr
    cases hr
    have hvalid : (verdictOf _ o.timeout (s.check (refutation f) o.timeout)).1 = .valid := hvalid
    refine ⟨f, hf, ?_⟩
    cases hresponse : s.check (refutation f) o.timeout with
    | unsat => rfl
    | sat | unknown | timeout =>
      rw [hresponse] at hvalid
      cases hvalid
  · rintro ⟨f, hf, hunsat⟩
    refine ⟨s.verify f o.timeout, ?_, ?_⟩
    · rw [Solver.verifyPrinciple, hf]
      rfl
    change (verdictOf _ o.timeout (s.check (refutation f) o.timeout)).1 = .valid
    rw [hunsat]
    rfl

/-- A principle is valid if it can be lowered and the walk through all choices for its refutation
finds no model. -/
theorem valid_of_walk {s : BoundedSearch} {f : Form}
    (hf : (LoweringContext.ofProgram cp o.maxDepth).lower p = .ok f) (htimeout : o.timeout ≠ 0)
    (hslots : ((Search.Space.ofVocabulary (refutation f).vocabulary s.bound).slots.toList.any fun
      d => d.isEmpty) = false) (hwalk : s.walk (refutation f) = .unsat) :
    ∃ r, s.solver.verifyPrinciple o cp p = .ok r ∧ r.verdict = .valid := by
  refine verifyPrinciple_valid_iff.mpr ⟨f, hf, ?_⟩
  have hslots := (BoundedSearch.hasEmptySlot_eq _).trans hslots
  exact (BoundedSearch.check_eq_walk hslots htimeout).trans hwalk

/-- A principle of an accepted program that is found valid is true: under every interpretation of
the declared functions, and under all values of the declarations in force that respect their types
and values. This holds for principles about whole numbers, truth values and enums, whatever the
bound of the search and the other settings, as long as nothing in the principle is taken for
something else. -/
theorem valid_principle_true {p : Program} {options : CheckOptions} {cp : CheckedProgram}
    (hcheck : p.check options = .ok cp) (search : BoundedSearch) (settings : VerifyOptions) :
    ∀ s ∈ p.sites, s.Plain cp.env → ∀ bare, s.Clear cp.env p.values bare →
      ∀ r, search.solver.verifyPrinciple settings cp s.principle = .ok r → r.verdict = .valid →
        ∀ (α : Type u) (M : Structure α) (σ : Valuation α), M.Suits cp.env →
          Assigns M cp.env s.inForce σ → (s.principle.body.meaning M cp.env σ).IsTrue := by
  intro s _ hplain bare hclear r hr hvalid α M σ hM hσ
  obtain ⟨rfl, henum⟩ := enum_name_of_check hcheck
  let cx := LoweringContext.ofProgram cp settings.maxDepth
  have hM : M.Suits cx.env := hM
  obtain ⟨W, rfl, rfl, hreads⟩ := exists_world hM henum hplain hclear hσ
  obtain ⟨f, hf, hunsat⟩ := verifyPrinciple_valid_iff.mp ⟨r, hr, hvalid⟩
  have htrue := W.true_of_unsat ⟨hplain.body, hclear.apart, hclear.tight⟩
    (fun x hx => (hreads x hx).1) hf hunsat
  rwa [Expr.meaning_congr fun x hx => (hreads x hx).2] at htrue

/-- Every enum has the given variants, and every function says yes. -/
noncomputable def allTrue (variants : List String) : Structure Unit where
  variants _ := variants
  elements _ := ∅
  function _ _ := .bool true
  written _ := 0
  quotientByZero _ := 0
  remainderByZero _ := 0
  realQuotientByZero _ := 0

theorem allTrue_suits {variants : List String}
    (henum : ∀ d ∈ env.defs, ∀ info, d.body = .enum info → info.variants = variants)
    (hfun : ∀ f ∈ env.functions, f.result = .prim .bool) : (allTrue variants).Suits env where
  variants_eq n info hinfo := by
    unfold Env.enum? at hinfo
    split at hinfo
    next hlookup =>
      cases hinfo
      exact (henum _ (mem_of_find?_eq_some hlookup) info rfl).symm
    · cases hinfo
  result_mem f sig hsig sorts s _ hs args _ := by
    rw [hfun sig (mem_of_find?_eq_some hsig)] at hs
    cases hs
    exact ⟨true, rfl⟩

/-!
### A law on fines
-/

/-- The lowest fine. -/
def floorValue : Declaration :=
  ⟨{}, "floor", .refine {} (.prim {} .int) (some 1) (some 2), .literal {} (.int 1)⟩

/-- Where an offence is punished, the fine waived if it is minor and above the lowest one if not,
the fine is the highest one or waived. -/
def proportion : Principle where
  span := {}
  name := "Proportion"
  body :=
    .quantified {} .all "g" (.named {} "Grade" []) <|
      .quantified {} .all "n" (.refine {} (.prim {} .int) (some 1) (some 2)) <|
        .binary {} .or
          (.unary {} .not (.binary {} .and (.call {} "punished" ["g"])
            (.select {} {} "g"
              [⟨{}, .variant {} "Grade" "minor", none, .call {} "waived" []⟩,
                ⟨{}, .wildcard {}, none,
                  .binary {} .lt "floor" "n"⟩])))
          (.binary {} .or (.binary {} .eq "n" (.literal {} (.int 2)))
            (.call {} "waived" []))

def fines : Program where
  name := "fines"
  items :=
    [.enum ⟨{}, "Grade", ["minor", "major"], false⟩,
      .function ⟨{}, "punished", [], [⟨{}, "g", .named {} "Grade" []⟩],
        .prim {} .bool, [.ret {} (.literal {} (.bool true))]⟩,
      .function ⟨{}, "waived", [], [], .prim {} .bool,
        [.ret {} (.literal {} (.bool true))]⟩,
      .value floorValue, .principle proportion]

def finesEnv : Env where
  defs := [⟨"Grade", {}, [], .enum ⟨"Grade", ["minor", "major"], false⟩⟩]
  functions := [⟨"punished", {}, [], [("g", .enum "Grade")], .prim .bool⟩,
    ⟨"waived", {}, [], [], .prim .bool⟩]

def proportionForm : Form where
  principle := "Proportion"
  vocabulary :=
    { sorts := [.enum "Grade" ["minor", "major"]]
      functions := [⟨"punished", [.enum "Grade"], .bool⟩, ⟨"waived", [], .bool⟩]
      constants := [⟨"floor", "floor", .int, some 1, some 2⟩] }
  assumptions := [.and [.cmp .le (.int 1) (.var "floor"), .cmp .le (.var "floor") (.int 2)],
    .cmp .eq (.var "floor") (.int 1)]
  formula := .quant .all "g" (.enum "Grade") (.quant .all "n" .int (.implies
    (.and [.cmp .le (.int 1) (.var "n"), .cmp .le (.var "n") (.int 2)])
    (.or [.not (.and [.apply "punished" [.var "g"],
        .ite (.cmp .eq (.var "g") (.variant "Grade" "minor")) (.apply "waived" [])
          (.cmp .lt (.var "floor") (.var "n"))]),
      .or [.cmp .eq (.var "n") (.int 2), .apply "waived" []]])))
  warnings := []

theorem plain_grade : (TypeExpr.named {} "Grade" []).Plain finesEnv :=
  ⟨.enum "Grade", _, .enum (by simp) rfl rfl rfl .nil rfl, rfl⟩

theorem plain_limits {lo hi : Option Int} : (TypeExpr.refine {} (.prim {} .int) lo hi).Plain env :=
  ⟨_, .int, .refine .prim, rfl⟩

theorem uses_proportion {P : Declaration → Prop} (h : P floorValue) :
    proportion.body.Uses P [floorValue] := by
  simpa [Expr.Uses, proportion, Expr.reads, Expr.readsOfArgs, Expr.readsOfArms, Pattern.unbound,
    Throughout] using ⟨rfl, h, by simp [floorValue, Expr.reads]⟩

theorem plain_proportion : Site.Plain finesEnv ⟨proportion, [floorValue]⟩ where
  body := by
    have hpunished : Signature.Plain ⟨"punished", {}, [], [("g", .enum "Grade")], .prim .bool⟩ :=
      ⟨⟨[.enum "Grade"], rfl⟩, _, rfl⟩
    have hwaived : Signature.Plain ⟨"waived", {}, [], [], .prim .bool⟩ := ⟨⟨[], rfl⟩, _, rfl⟩
    simpa [proportion, Expr.Plain, Expr.PlainHere, plain_limits, plain_grade, Pattern.isPlain,
      Literal.isPlain] using ⟨⟨_, rfl, hpunished⟩, _, rfl, hwaived⟩
  uses := uses_proportion
    ⟨plain_limits, by simp [floorValue, Expr.Plain, Expr.PlainHere, Literal.isPlain]⟩

theorem clear_proportion :
    Site.Clear finesEnv fines.values {"waived"} ⟨proportion, [floorValue]⟩ where
  first := uses_proportion rfl
  apart := by
    have hapart {v : String} (hv : ¬v.toList <+: "waived".toList) :
        ∀ symbol ∈ symbolsFor v, symbol ≠ "waived" := by
      rintro _ hs rfl
      exact hv (starts_of_mem_symbolsFor hs)
    simpa [proportion, Expr.Apart] using ⟨hapart (by decide), hapart (by decide)⟩
  usesApart := uses_proportion ⟨by simp [floorValue], by simp [floorValue, Expr.Apart]⟩
  tight := by
    have hgrade : ∀ ty, Stands finesEnv [] (.named {} "Grade" []) ty → ty.Tight := by
      intro ty h
      obtain rfl : Ty.enum "Grade" = ty := h.eq_of_typeOf rfl
      trivial
    have hlimits : ∀ ty, Stands finesEnv [] (.refine {} (.prim {} .int) (some 1) (some 2)) ty →
        ty.Tight := by
      intro ty h
      obtain rfl : Ty.refine (.prim .int) (some 1) (some 2) = ty := h.eq_of_typeOf rfl
      exact ⟨trivial, by simp [Limits.Follow, Ty.outerLimits]⟩
    simpa [proportion, Expr.Tight] using ⟨hgrade, hlimits⟩
  usesTight := uses_proportion (by simp [floorValue, Expr.Tight])

set_option maxRecDepth 8000 in
theorem check_fines : fines.check = .ok ⟨fines, finesEnv, []⟩ := check_eq_ok rfl

set_option maxRecDepth 8000 in
theorem valid_proportion : ∃ r, (BoundedSearch.ofBound 32).solver.verifyPrinciple {}
    ⟨fines, finesEnv, []⟩ proportion = .ok r ∧ r.verdict = .valid :=
  valid_of_walk (f := proportionForm) rfl (by decide) rfl rfl

/-- The law on fines is found valid. It is true for all functions and values, and there are such. -/
theorem proportion_true :
    fines.check = .ok ⟨fines, finesEnv, []⟩ ∧
    (∃ r, (BoundedSearch.ofBound 32).solver.verifyPrinciple {} ⟨fines, finesEnv, []⟩ proportion =
      .ok r ∧ r.verdict = .valid) ∧
    (∀ (M : Structure Unit) (σ : Valuation Unit), M.Suits finesEnv →
      Assigns M finesEnv [floorValue] σ → (proportion.body.meaning M finesEnv σ).IsTrue) ∧
    ∃ (M : Structure Unit) (σ : Valuation Unit), M.Suits finesEnv ∧
      Assigns M finesEnv [floorValue] σ := by
  obtain ⟨r, hr, hvalid⟩ := valid_proportion
  refine ⟨check_fines, ⟨r, hr, hvalid⟩, ?_, ?_⟩
  · exact valid_principle_true check_fines _ _ ⟨proportion, [floorValue]⟩
      (mem_singleton_self _) plain_proportion _ clear_proportion r hr hvalid Unit
  · refine ⟨allTrue ["minor", "major"], Function.update default "floor" (.int 1),
      allTrue_suits (by simp [finesEnv]) (by simp [finesEnv]), .cons .nil fun _ => ⟨?_, rfl⟩⟩
    exact ⟨_, .refine .prim, ⟨1, rfl⟩, by simp [Limits.Contain]⟩

/-!
## Principles that are found valid and are false

None of the conditions on what may be taken for something else can be left out. Each of the three
programs below fails one of them only.
-/

/-- The principle of an accepted program is found valid, though it is false for some functions and
for some values of the declarations in force. -/
def Program.Misjudges (p : Program) (s : Site) : Prop :=
  ∃ env, p.check = .ok ⟨p, env, []⟩ ∧ s ∈ p.sites ∧ s.Plain env ∧
    (∃ r, (BoundedSearch.ofBound 32).solver.verifyPrinciple {} ⟨p, env, []⟩ s.principle = .ok r ∧
      r.verdict = .valid) ∧
    ∃ (M : Structure Unit) (σ : Valuation Unit), M.Suits env ∧ Assigns M env s.inForce σ ∧
      ¬(s.principle.body.meaning M env σ).IsTrue

/-- A variable has the name of a function: `f` holds, or `f()` does not. -/
def homonymSite : Site where
  principle := ⟨{}, "P", .quantified {} .all "f" (.prim {} .bool)
    (.binary {} .or "f" (.unary {} .not (.call {} "f" [])))⟩
  inForce := []

def homonyms : Program where
  name := "homonyms"
  items := [.function ⟨{}, "f", [], [], .prim {} .bool,
    [.ret {} (.literal {} (.bool true))]⟩, .principle homonymSite.principle]

def homonymsEnv : Env where
  functions := [⟨"f", {}, [], [], .prim .bool⟩]

theorem homonyms_misjudges : homonyms.Misjudges homonymSite := by
  refine ⟨homonymsEnv, check_eq_ok rfl, mem_singleton_self _, ⟨?_, ?_⟩, ?_,
    allTrue [], default, allTrue_suits (by simp [homonymsEnv]) (by simp [homonymsEnv]), .nil, ?_⟩
  · have hf : Signature.Plain ⟨"f", {}, [], [], .prim .bool⟩ := ⟨⟨[], rfl⟩, _, rfl⟩
    have hbool : (TypeExpr.prim {} .bool).Plain homonymsEnv := ⟨_, _, .prim, rfl⟩
    simpa [homonymSite, Expr.Plain, Expr.PlainHere, hbool] using ⟨_, rfl, hf⟩
  · simp [homonymSite, Expr.Uses, Expr.reads, Expr.readsOfArgs]
  · exact valid_of_walk
      (f := ⟨"P", { functions := [⟨"f", [], .bool⟩] }, [],
        .quant .all "f" .bool (.or [.var "f", .not (.apply "f" [])]), []⟩)
      rfl (by decide) rfl rfl
  · intro h
    have hfalse := Datum.isTrue_ofProp.mp h (.bool false) ⟨_, .prim, false, rfl⟩
    simp [Expr.meaning, BinaryOp.meaning, UnaryOp.meaning, allTrue] at hfalse

/-- A value has the name of one in a scope before. -/
def siblingSite : Site where
  principle := ⟨{}, "P", "x"⟩
  inForce := [⟨{}, "x", .prim {} .bool, .literal {} (.bool false)⟩]

def siblings : Program where
  name := "siblings"
  items :=
    [.scope {} "A" [.value ⟨{}, "x", .prim {} .bool, .literal {} (.bool true)⟩],
      .scope {} "B" [.value ⟨{}, "x", .prim {} .bool, .literal {} (.bool false)⟩,
        .principle siblingSite.principle]]

theorem siblings_misjudges : siblings.Misjudges siblingSite := by
  refine ⟨{}, check_eq_ok rfl, mem_singleton_self _, ⟨?_, ?_⟩, ?_, allTrue [],
    Function.update default "x" (.bool false), allTrue_suits (by simp) (by simp),
    .cons .nil fun _ => ⟨⟨_, .prim, false, rfl⟩, rfl⟩, ?_⟩
  · simp [siblingSite, Expr.Plain, Expr.PlainHere]
  · have hx : Declaration.Plain {}
        ⟨{}, "x", .prim {} .bool, .literal {} (.bool false)⟩ :=
      ⟨⟨_, _, .prim, rfl⟩, by simp [Expr.Plain, Expr.PlainHere, Literal.isPlain]⟩
    simp [siblingSite, Expr.Uses, Expr.reads, Throughout, hx]
  · exact valid_of_walk
      (f := ⟨"P", { constants := [⟨"x", "x", .bool, none, none⟩] },
        [.cmp .eq (.var "x") (.bool true)], .var "x", []⟩)
      rfl (by decide) rfl rfl
  · simp [siblingSite, Expr.meaning]

/-- Something is from five to ten and from zero to three. -/
def emptyRangeSite : Site where
  principle := ⟨{}, "P", .quantified {} .some "x"
    (.refine {} (.refine {} (.prim {} .int) (some 5) (some 10)) (some 0) (some 3))
    (.literal {} (.bool true))⟩
  inForce := []

def emptyRange : Program := ⟨"emptyRange", [.principle emptyRangeSite.principle]⟩

theorem emptyRange_misjudges : emptyRange.Misjudges emptyRangeSite := by
  refine ⟨{}, check_eq_ok rfl, mem_singleton_self _, ⟨?_, ?_⟩, ?_, allTrue [], default,
    allTrue_suits (by simp) (by simp), .nil, ?_⟩
  · have htype : (TypeExpr.refine {} (.refine {} (.prim {} .int) (some 5) (some 10)) (some 0)
        (some 3)).Plain {} := ⟨_, .int, .refine (.refine .prim), rfl⟩
    simp [emptyRangeSite, Expr.Plain, Expr.PlainHere, Literal.isPlain, htype]
  · simp [emptyRangeSite, Expr.Uses, Expr.reads]
  · exact valid_of_walk
      (f := ⟨"P", {}, [], .quant .some "x" .int (.and [.and [.cmp .le (.int 0) (.var "x"),
        .cmp .le (.var "x") (.int 3)], .bool true]), []⟩)
      rfl (by decide) rfl rfl
  · intro h
    obtain ⟨d, ⟨ty, hty, hd⟩, -⟩ := Datum.isTrue_ofProp.mp h
    obtain rfl : Ty.refine (.refine (.prim .int) (some 5) (some 10)) (some 0) (some 3) = ty :=
      hty.eq_of_typeOf rfl
    obtain ⟨⟨⟨n, rfl⟩, hfive, -⟩, -, hthree⟩ := hd
    have hlow : 5 ≤ n := Datum.atMost_int.mp (hfive 5 rfl)
    have hhigh : n ≤ 3 := Datum.atMost_int.mp (hthree 3 rfl)
    omega

/-- Without the conditions, principles are found valid that are false. -/
theorem false_principles_found_valid : homonyms.Misjudges homonymSite ∧
    siblings.Misjudges siblingSite ∧ emptyRange.Misjudges emptyRangeSite :=
  ⟨homonyms_misjudges, siblings_misjudges, emptyRange_misjudges⟩

end Statute
