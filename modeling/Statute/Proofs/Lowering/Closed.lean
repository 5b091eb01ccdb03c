import Mathlib
import Statute.Proofs.Check.Declarations
import Statute.Proofs.Lowering.Following

/-!
# Forms are closed

In a form every symbol is bound or a declared constant, every function that is applied is declared,
and no symbol is bound twice inside one another or bound where it is a constant: `form_closed`. So
no term captures another's symbols, whatever hides what in the program.

What carries the induction over the rules is `Apart`: a term binds only symbols that are in use
afterwards, and binds again what was in use before only where the term of a local does so.
-/

namespace Statute

open Logic List

variable {ts : List Term} {cx : LoweringContext}

namespace Logic.Term

/-- Functions that are applied are declared, and what is bound is no constant and is not bound again
inside. -/
def OrderlyHere (v : Vocabulary) : Term → Prop
  | .apply f _ => ∃ d, v.function? f = some d
  | .quant _ x _ body => (∀ c ∈ v.constants, c.symbol ≠ x) ∧ body.Binders (· ≠ x)
  | _ => True

/-- The symbols of a term are in order: those that occur free are declared constants, and this holds
of the term and of all terms inside it: functions that are applied are declared, and what is bound
is no constant and is not bound again inside. -/
structure Closed (v : Vocabulary) (t : Term) : Prop where
  free : ∀ x ∈ t.free, ∃ c ∈ v.constants, c.symbol = x
  orderly : t.Everywhere (OrderlyHere v)

theorem everywhere_conj {p : Term → Prop} (htrue : p (.bool true)) (hand : ∀ ts, p (.and ts))
    (hts : ∀ t ∈ ts, t.Everywhere p) : (conj ts).Everywhere p := by
  match ts with
  | [] => exact htrue
  | [t] => exact hts t (mem_singleton_self t)
  | t :: t' :: ts => exact ⟨hand _, everywhereIn_iff.mpr hts⟩

theorem mem_free_conj {x : String} (h : x ∈ (conj ts).free) : ∃ t ∈ ts, x ∈ t.free := by
  match ts with
  | [] => cases h
  | [t] => exact ⟨t, mem_singleton_self t, h⟩
  | t :: t' :: ts => exact mem_freeIn.mp h

end Logic.Term

mutual

/-- Symbols in use stay in use. -/
theorem Yields.subset {S u u' locals e r} (h : Yields S u locals e r u') : u ⊆ u' := by
  match h with
  | .literal _ | .bound _ | .variant _ _ => exact List.Subset.refl u
  | .declared _ _ _ hused => exact hused
  | .not he | .neg he _ | .satisfies he _ => exact he.subset
  | .member hbase _ _ _ _ => exact hbase.subset
  | .logical _ hl hr => exact List.Subset.trans hl.subset hr.subset
  | .comparison _ hl hr _ _ _ _ => exact List.Subset.trans hl.subset hr.subset
  | .arithmetic _ _ hl hr _ _ _ _ => exact List.Subset.trans hl.subset hr.subset
  | .call _ hargs _ _ => exact hargs.subset
  | .select he harms _ => exact List.Subset.trans he.subset harms.subset
  | .quantified _ _ _ _ _ hbody =>
    exact List.Subset.trans (subset_append_left _ _) hbody.subset

theorem YieldsEach.subset {S u u' locals params args rs}
    (h : YieldsEach S u locals params args rs u') : u ⊆ u' := by
  match h with
  | .nil => exact List.Subset.refl u
  | .cons _ he _ hes => exact List.Subset.trans he.subset hes.subset

theorem YieldsArms.subset {S u u' locals r arms lowered}
    (h : YieldsArms S u locals r arms lowered u') : u ⊆ u' := by
  match h with
  | .last _ hb => exact hb.subset
  | .cons _ hb harms => exact List.Subset.trans hb.subset harms.subset
  | .guarded _ hg hb harms =>
    exact List.Subset.trans (List.Subset.trans hg.subset hb.subset) harms.subset

end

/-- A term that is made under locals between two states of the symbols in use. -/
structure Apart (v : Vocabulary) (locals : List Local) (u u' : List String) (t : Term) : Prop where
  orderly : t.Everywhere (Term.OrderlyHere v)
  free : ∀ x ∈ t.free, (∃ l ∈ locals, x ∈ l.term.free) ∨ ∃ c ∈ v.constants, c.symbol = x
  binders : t.Binders (· ∈ u')
  unbound : ∀ x ∈ u, (∀ l ∈ locals, l.term.Binders (· ≠ x)) → t.Binders (· ≠ x)

/-- A local whose term is in order and mentions only symbols in use. -/
structure Local.Within (v : Vocabulary) (u : List String) (l : Local) : Prop where
  orderly : l.term.Everywhere (Term.OrderlyHere v)
  free : ∀ x ∈ l.term.free, x ∈ u
  binders : l.term.Binders (· ∈ u)

/-- Constants are in use, and so are the symbols that the terms of locals mention. -/
structure Ready (v : Vocabulary) (u : List String) (locals : List Local) : Prop where
  constants : ∀ c ∈ v.constants, c.symbol ∈ u
  locals : ∀ l ∈ locals, l.Within v u

variable {r : Lowered}

section

variable {v : Vocabulary} {locals : List Local} {u₀ u u₁ u₂ u' : List String} {t : Term}

theorem Ready.mono (h : Ready v u locals) (hu : u ⊆ u') : Ready v u' locals := by
  refine ⟨fun c hc => hu (h.constants c hc), fun l hl => ?_⟩
  have hl := h.locals l hl
  exact ⟨hl.orderly, fun x hx => hu (hl.free x hx), hl.binders.imp fun _ ht x hx => hu (ht x hx)⟩

/-- A quantified variable with its symbol. -/
theorem Ready.bindVariable (h : Ready v u locals) (name symbol : String) (s : SmtSort) :
    Ready v (u ++ [symbol]) (⟨name, .var symbol, s⟩ :: locals) := by
  have hafter := h.mono (subset_append_left u [symbol])
  refine ⟨hafter.constants, forall_mem_cons.mpr ⟨⟨trivial, ?_, ?_⟩, hafter.locals⟩⟩
  · simp [Term.free]
  · simp [Term.Binders, Term.Everywhere, Term.binder?]

namespace Apart

theorem mono (h : Apart v locals u u₁ t) (hbefore : u₀ ⊆ u) (hafter : u₁ ⊆ u₂) :
    Apart v locals u₀ u₂ t :=
  ⟨h.orderly, h.free, h.binders.imp fun _ ht x hx => hafter (ht x hx),
    fun x hx => h.unbound x (hbefore hx)⟩

/-- A term that binds nothing and is no variable, made of such terms. -/
theorem of_parts (hhere : Term.OrderlyHere v t) (hvar : ∀ x, t ≠ .var x)
    (hbinder : t.binder? = none)
    (hparts : ∀ s ∈ t.parts, Apart v locals u u' s) : Apart v locals u u' t where
  orderly := Term.everywhere_iff.mpr ⟨hhere, fun s hs => (hparts s hs).orderly⟩
  free x hx := by
    rcases Term.mem_parts_of_mem_free hx with rfl | ⟨s, hs, hxs⟩
    · exact absurd rfl (hvar x)
    · exact (hparts s hs).free x hxs
  binders := by
    refine Term.everywhere_iff.mpr ⟨?_, fun s hs => (hparts s hs).binders⟩
    simp [hbinder]
  unbound x hx hlocals := by
    refine Term.everywhere_iff.mpr ⟨?_, fun s hs => (hparts s hs).unbound x hx hlocals⟩
    simp [hbinder]

/-- A symbol that belongs to a constant. -/
theorem constant {c : ConstDecl} (hc : c ∈ v.constants) : Apart v locals u u' (.var c.symbol) where
  orderly := trivial
  free x hx := .inr ⟨c, hc, (mem_singleton.mp hx).symm⟩
  binders := by simp [Term.Binders, Term.Everywhere, Term.binder?]
  unbound _ _ _ := by simp [Term.Binders, Term.Everywhere, Term.binder?]

/-- The term of a local. -/
theorem ofLocal {l : Local} (hl : l ∈ locals) (hwithin : l.Within v u) :
    Apart v locals u u l.term :=
  ⟨hwithin.orderly, fun _ hx => .inl ⟨l, hl, hx⟩, hwithin.binders, fun _ _ h => h l hl⟩

theorem cmp {op a b} (ha : Apart v locals u u' a) (hb : Apart v locals u u' b) :
    Apart v locals u u' (.cmp op a b) :=
  of_parts trivial (by simp) rfl (by simpa [Term.parts] using ⟨ha, hb⟩)

theorem and {a b : Term} (ha : Apart v locals u u' a) (hb : Apart v locals u u' b) :
    Apart v locals u u' (.and [a, b]) :=
  of_parts trivial (by simp) rfl (by simpa [Term.parts] using ⟨ha, hb⟩)

theorem conj (hts : ∀ s ∈ ts, Apart v locals u u' s) :
    Apart v locals u u' (.conj ts) where
  orderly := Term.everywhere_conj trivial (fun _ => trivial) fun s hs => (hts s hs).orderly
  free x hx := by
    obtain ⟨s, hs, hxs⟩ := Term.mem_free_conj hx
    exact (hts s hs).free x hxs
  binders := Term.everywhere_conj (by simp [Term.binder?]) (by simp [Term.binder?])
    fun s hs => (hts s hs).binders
  unbound x hx hlocals := Term.everywhere_conj (by simp [Term.binder?]) (by simp [Term.binder?])
    fun s hs => (hts s hs).unbound x hx hlocals

theorem coerce {t' : Term} {source target : SmtSort} (h : Apart v locals u u' t)
    (ht : coerce? t source target = some t') : Apart v locals u u' t' := by
  unfold coerce? at ht
  split at ht
  · cases ht
    exact h
  split at ht
  · split at ht
    · cases ht
      exact of_parts trivial (by simp) rfl (by simp [Term.parts])
    · cases ht
      exact of_parts trivial (by simp) rfl (by simpa [Term.parts] using h)
  · cases ht

end Apart

/-!
## Patterns and arms
-/

/-- A pattern that binds a term. -/
theorem Ready.bindPattern (h : Ready v u locals) (hr : Apart v locals u₀ u r.1) (p : Pattern) :
    Ready v u (p.boundLocals r ++ locals) := by
  refine ⟨h.constants, fun l hl => ?_⟩
  rcases mem_append.mp hl with hl | hl
  · cases p with
    | binding id =>
      obtain rfl : l = ⟨id.name, r.1, r.2⟩ := by simpa [Pattern.boundLocals] using hl
      refine ⟨hr.orderly, fun x hx => ?_, hr.binders⟩
      rcases hr.free x hx with ⟨l, hl, hxl⟩ | ⟨c, hc, rfl⟩
      · exact (h.locals l hl).free x hxl
      · exact h.constants c hc
    | _ => cases hl
  · exact h.locals l hl

/-- What is made under the names of a pattern, as seen from outside. -/
theorem Apart.outside {p : Pattern} (hr : Apart v locals u₀ u r.1) (hu : u₀ ⊆ u)
    (h : Apart v (p.boundLocals r ++ locals) u u' t) : Apart v locals u₀ u' t := by
  have hterm {l : Local} (hl : l ∈ p.boundLocals r) : l.term = r.1 := by
    cases p with
    | binding id =>
      obtain rfl : l = ⟨id.name, r.1, r.2⟩ := by simpa [Pattern.boundLocals] using hl
      rfl
    | _ => cases hl
  refine ⟨h.orderly, fun x hx => ?_, h.binders, fun x hx hlocals => ?_⟩
  · rcases h.free x hx with ⟨l, hl, hxl⟩ | hc
    · rcases mem_append.mp hl with hl | hl
      · exact hr.free x (hterm hl ▸ hxl)
      · exact .inl ⟨l, hl, hxl⟩
    · exact .inr hc
  · grind [Apart.unbound]

theorem Literal.apart_encoding {l : Literal} (h : l.encoding? = some r) :
    Apart v locals u u' r.1 := by
  have hleaf {t : Term} (hhere : Term.OrderlyHere v t) (hvar : ∀ x, t ≠ .var x)
      (hbinder : t.binder? = none) (hparts : t.parts = []) : Apart v locals u u' t :=
    .of_parts hhere hvar hbinder (by simp [hparts])
  cases l with
  | int | float | money | percent | bool | string =>
    cases h
    exact hleaf trivial (by simp) rfl rfl
  | date text =>
    obtain ⟨d, -, rfl⟩ := Option.map_eq_some_iff.mp h
    exact hleaf trivial (by simp) rfl rfl
  | duration | pass => cases h

variable {S : Setting} {r : Lowered}

theorem YieldsTest.apart {test : String} (h : YieldsTest S test r t)
    (hr : Apart S.vocabulary locals u u' r.1) : Apart S.vocabulary locals u u' t := by
  cases h with
  | intro htest hdeclared =>
    refine .conj fun s hs => ?_
    obtain ⟨q, hq, rfl⟩ := mem_map.mp hs
    exact .of_parts (hdeclared q hq) (by simp) rfl (by simpa [Term.parts] using hr)

theorem YieldsPattern.apart {p c} (h : YieldsPattern S r p c)
    (hr : Apart S.vocabulary locals u u' r.1) : ∀ t ∈ c, Apart S.vocabulary locals u u' t := by
  intro t ht
  cases h with
  | wildcard | binding => cases ht
  | literal hv ht' =>
    cases ht
    exact hr.cmp ((Literal.apart_encoding hv).coerce ht')
  | variant hinfo hv hs =>
    cases ht
    exact hr.cmp (.of_parts trivial (by simp) rfl (by simp [Term.parts]))
  | satisfies htest =>
    cases ht
    exact htest.apart hr

/-- The conditions and the bodies of arms. -/
def ArmsApart (v : Vocabulary) (locals : List Local) (u u' : List String)
    (arms : List LoweredArm) : Prop :=
  ∀ a ∈ arms, (∀ c ∈ a.condition, Apart v locals u u' c) ∧ Apart v locals u u' a.body

theorem Chains.apart {s : SmtSort} {arms} (h : Chains s arms t)
    (harms : ArmsApart v locals u u' arms) : Apart v locals u u' t := by
  induction h with
  | last hnone ht => exact (harms _ (mem_singleton_self _)).2.coerce ht
  | @cons a c t arms rest hsome ht hrest ih =>
    obtain ⟨⟨hc, hbody⟩, harms⟩ := forall_mem_cons.mp harms
    have hparts : ∀ s ∈ [c, t, rest], Apart v locals u u' s := by
      simpa using ⟨hc c hsome, hbody.coerce ht, ih harms⟩
    exact .of_parts trivial (by simp) rfl hparts

theorem apart_bothConditions {c g} (hc : ∀ t ∈ c, Apart v locals u u' t)
    (hg : Apart v locals u u' g) : ∀ t ∈ bothConditions c (some g), Apart v locals u u' t := by
  intro t ht
  cases c with
  | none =>
    cases ht
    exact hg
  | some c =>
    cases ht
    exact (hc c rfl).and hg

/-!
## Expressions
-/

/-- The symbol of a quantified variable is new, so nothing inside binds it again. -/
theorem Apart.quant {q name symbol} {s : SmtSort} {limits} (hready : Ready v u locals)
    (hnew : symbol ∉ u) (hu : u ++ [symbol] ⊆ u')
    (h : Apart v (⟨name, .var symbol, s⟩ :: locals) (u ++ [symbol]) u' t) :
    Apart v locals u u'
      (.quant q symbol s (guardBody q (withinLimits? (.var symbol) limits) t)) := by
  have hsymbol : symbol ∈ u ++ [symbol] := by simp
  have hvar {x : String} : (Term.var symbol).Binders (· ≠ x) := by
    simp [Term.Binders, Term.Everywhere, Term.binder?]
  -- a guard binds nothing
  have hguarded {p : String → Prop} (ht : t.Binders p) :
      (guardBody q (withinLimits? (.var symbol) limits) t).Binders p := by
    refine everywhere_guardBody (fun g hg => ⟨?_, by simp [Term.binder?], by simp [Term.binder?]⟩)
      ht
    exact (withinLimits?_harmless hg).1.imp fun s hs => by simp [hs.2.2.1]
  refine ⟨⟨⟨fun c hc heq => hnew (heq ▸ hready.constants c hc), hguarded ?_⟩, ?_⟩, ?_,
    ⟨by simpa [Term.binder?] using hu hsymbol, hguarded h.binders⟩, ?_⟩
  · refine h.unbound symbol hsymbol (forall_mem_cons.mpr ⟨hvar, fun l hl => ?_⟩)
    -- what the locals bind was in use before the symbol was given out
    exact (hready.locals l hl).binders.imp fun s hs x hx (heq : x = symbol) =>
      hnew (heq ▸ hs x hx)
  · refine everywhere_guardBody (fun g hg => ⟨?_, trivial, trivial⟩) h.orderly
    refine (withinLimits?_harmless hg).1.imp fun s hs => ?_
    cases s with
    | apply f args => obtain ⟨d, hd, -⟩ := hs.2.2.2 v; exact ⟨d, hd⟩
    | quant q x s body => cases hs.2.2.1
    | _ => trivial
  · intro x hx
    obtain ⟨hx, hne⟩ := mem_filter.mp hx
    have hne : x ≠ symbol := by simpa using hne
    rcases mem_free_guardBody hx with ⟨g, hg, hxg⟩ | hx
    · exact absurd ((withinLimits?_harmless hg).2 x hxg) hne
    rcases h.free x hx with ⟨l, hl, hxl⟩ | hc
    · rcases mem_cons.mp hl with rfl | hl
      · exact absurd (mem_singleton.mp hxl) hne
      · exact .inl ⟨l, hl, hxl⟩
    · exact .inr hc
  · intro x hx hbound
    refine ⟨fun y hy => ?_, hguarded ?_⟩
    · cases hy
      exact fun heq => hnew (heq ▸ hx)
    · exact h.unbound x (mem_append_left _ hx) (forall_mem_cons.mpr ⟨hvar, hbound⟩)

end

mutual

/-- Terms of expressions are apart from what is around them. -/
theorem Yields.apart {S : Setting} {u u' locals e r} (h : Yields S u locals e r u')
    (hready : Ready S.vocabulary u locals) : Apart S.vocabulary locals u u' r.1 := by
  match h with
  | .literal hv => exact Literal.apart_encoding hv
  | .bound hl =>
    have hmem := mem_of_find?_eq_some hl
    exact .ofLocal hmem (hready.locals _ hmem)
  | .declared _ _ hc _ => exact .constant hc.mem
  | .variant _ _ => exact .of_parts trivial (by simp) rfl (by simp [Term.parts])
  | .not he | .neg he _ =>
    have ht := he.apart hready
    exact .of_parts trivial (by simp) rfl (by simpa [Term.parts] using ht)
  | @Yields.logical _ _ _ _ _ _ op _ _ _ _ hop hl hr =>
    have ha := (hl.apart hready).mono (List.Subset.refl u) hr.subset
    have hb := (hr.apart (hready.mono hl.subset)).mono hl.subset (List.Subset.refl _)
    cases op with
    | and | or | implies =>
      exact .of_parts trivial (by simp [connective]) rfl
        (by simpa [connective, Term.parts] using ⟨ha, hb⟩)
    | _ => cases hop
  | .comparison _ hl hr _ ha' hb' _ =>
    have ha := (hl.apart hready).mono (List.Subset.refl u) hr.subset
    have hb := (hr.apart (hready.mono hl.subset)).mono hl.subset (List.Subset.refl _)
    exact (ha.coerce ha').cmp (hb.coerce hb')
  | .arithmetic _ _ hl hr _ ha' hb' _ =>
    have ha := (hl.apart hready).mono (List.Subset.refl u) hr.subset
    have hb := (hr.apart (hready.mono hl.subset)).mono hl.subset (List.Subset.refl _)
    exact .of_parts trivial (by simp) rfl
      (by simpa [Term.parts] using ⟨ha.coerce ha', hb.coerce hb'⟩)
  | .member hbase _ _ _ hdeclared =>
    have ht := hbase.apart hready
    exact .of_parts hdeclared (by simp) rfl (by simpa [Term.parts] using ht)
  | .call _ hargs _ hdeclared =>
    refine .of_parts hdeclared (by simp) rfl fun t ht => ?_
    obtain ⟨r, hr, rfl⟩ := mem_map.mp ht
    exact hargs.apart hready r hr
  | .satisfies he htest => exact htest.apart (he.apart hready)
  | .select he harms hchain =>
    exact hchain.apart (harms.apart (hready.mono he.subset) (he.apart hready) he.subset)
  | .quantified _ _ _ hnew _ hbody =>
    exact .quant hready hnew hbody.subset (hbody.apart (hready.bindVariable _ _ _))

theorem YieldsEach.apart {S : Setting} {u u' locals params args rs}
    (h : YieldsEach S u locals params args rs u') (hready : Ready S.vocabulary u locals) :
    ∀ r ∈ rs, Apart S.vocabulary locals u u' r.1 := by
  match h with
  | .nil => exact fun r hr => nomatch hr
  | .cons _ he ht hes =>
    have hfirst := (he.apart hready).coerce ht
    have hrest := hes.apart (hready.mono he.subset)
    refine forall_mem_cons.mpr ⟨hfirst.mono (List.Subset.refl u) hes.subset, fun r hr => ?_⟩
    exact (hrest r hr).mono he.subset (List.Subset.refl _)

theorem YieldsArms.apart {S : Setting} {u₀ u u' locals r arms lowered}
    (h : YieldsArms S u locals r arms lowered u') (hready : Ready S.vocabulary u locals)
    (hr : Apart S.vocabulary locals u₀ u r.1) (hu : u₀ ⊆ u) :
    ArmsApart S.vocabulary locals u₀ u' lowered := by
  match h with
  | .last hp hb =>
    have hbody := hr.outside hu (hb.apart (hready.bindPattern hr _))
    intro a ha
    obtain rfl := mem_singleton.mp ha
    exact ⟨by simp, hbody⟩
  | .cons hp hb harms =>
    have hu₁ := hb.subset
    have hbody := hr.outside hu (hb.apart (hready.bindPattern hr _))
    have hrest := harms.apart (hready.mono hu₁) (hr.mono (List.Subset.refl _) hu₁)
      (List.Subset.trans hu hu₁)
    refine forall_mem_cons.mpr ⟨⟨fun c hc => ?_, ?_⟩, hrest⟩
    · exact (hp.apart hr c hc).mono (List.Subset.refl _) (List.Subset.trans hu₁ harms.subset)
    · exact hbody.mono (List.Subset.refl _) harms.subset
  | .guarded hp hg hb harms =>
    have hu₁ := hg.subset
    have hu₂ := List.Subset.trans hu₁ hb.subset
    have hu₃ := List.Subset.trans hu₂ harms.subset
    have hguard := hr.outside hu (hg.apart (hready.bindPattern hr _))
    have hbody := (hr.mono (List.Subset.refl _) hu₁).outside (List.Subset.trans hu hu₁)
      (hb.apart ((hready.bindPattern hr _).mono hu₁))
    have hrest := harms.apart (hready.mono hu₂) (hr.mono (List.Subset.refl _) hu₂)
      (List.Subset.trans hu hu₂)
    refine forall_mem_cons.mpr ⟨⟨apart_bothConditions (fun c hc => ?_) ?_, ?_⟩, hrest⟩
    · exact (hp.apart hr c hc).mono (List.Subset.refl _) hu₃
    · exact hguard.mono (List.Subset.refl _) (List.Subset.trans hb.subset harms.subset)
    · exact hbody.mono (List.Subset.refl _) harms.subset

end

/-!
## Forms
-/

theorem Apart.closed {v u u'} {t : Term} (h : Apart v [] u u' t) : t.Closed v :=
  ⟨fun x hx => (h.free x hx).resolve_left (by simp), h.orderly⟩

/-- What is assumed of constants is closed. -/
theorem Assumed.closed {S : Setting} {names : List String} {t : Term} (h : Assumed S names t)
    (hconstants : ∀ c ∈ S.vocabulary.constants, c.symbol ∈ names) : t.Closed S.vocabulary := by
  cases h with
  | @limits l c g hl hc hg =>
    have hvar : Apart S.vocabulary [] [] [] (.var c.symbol) := .constant hc.mem
    have hcmp (op : Comparison) (a b : Term) (ha : Apart S.vocabulary [] [] [] a)
        (hb : Apart S.vocabulary [] [] [] b) : Apart S.vocabulary [] [] [] (.cmp op a b) :=
      ha.cmp hb
    have hint (n : Int) : Apart S.vocabulary [] [] [] (.int n) :=
      .of_parts trivial (by simp) rfl (by simp [Term.parts])
    generalize c.lower = lower, c.upper = upper at hg
    cases lower <;> cases upper <;> cases hg
    · exact (hcmp _ _ _ hvar (hint _)).closed
    · exact (hcmp _ _ _ (hint _) hvar).closed
    · exact ((hcmp _ _ _ (hint _) hvar).and (hcmp _ _ _ hvar (hint _))).closed
  | value hl hc hu hv ht =>
    have hvalue := hv.apart ⟨fun c hc => hu (hconstants c hc), by simp⟩
    exact ((Apart.constant hc.mem).cmp (hvalue.coerce ht)).closed

/-- Where any struct type may occur, any expression is admitted. -/
theorem admitted_of_forall {S : Setting} (h : ∀ n args, S.Occurs n args) (e : Expr) :
    e.Admitted S := by
  refine Expr.everywhere_of_forall (fun e => ?_) e
  cases e with
  | quantified span q var type body => exact fun ty _ n args _ => h n args
  | _ => trivial

/-- A form comes from a proper draft and its formula from the rules, whatever struct types occur. -/
theorem exists_proper {q : Principle} {f : Form} (hf : cx.lower q = .ok f) :
    ∃ d : Draft, d.Proper cx (fun _ _ => True) [] ∧ f.vocabulary = d.vocabulary ∧
      f.assumptions = d.assumptions ∧
      Yields (cx.setting (fun _ _ => True) f.vocabulary) cx.start.used [] q.body (f.formula, .bool)
        d.used := by
  have hall : ∀ ty, (cx.setting (fun _ _ => True) {}).Admits ty := fun _ _ _ _ => trivial
  have hadmitted := admitted_of_forall (S := cx.setting (fun _ _ => True) {}) fun _ _ => trivial
  have hclosed : Closes cx fun _ _ => True :=
    ⟨fun _ _ _ _ _ _ => hall _, fun _ _ _ _ _ _ => hall _, fun _ _ _ _ => hall _,
      fun _ _ _ _ => hall _⟩
  exact proper_of_lower hclosed (fun l _ => hadmitted l.value) (hadmitted q.body) hf

variable {T : String → List Ty → Prop} {opening : List String} {d : Draft}

/-- Constants bear the names of declared values. -/
theorem Draft.Proper.mem_names (hd : d.Proper cx T opening) :
    ∀ c ∈ d.vocabulary.constants, c.symbol ∈ cx.values.map (·.name.name) := by
  intro c hc
  obtain ⟨l, hl, -⟩ := hd.constants c hc
  have hname : l.name.name = c.symbol := by simpa using find?_some hl
  exact hname ▸ mem_map_of_mem (mem_of_find?_eq_some hl)

/-- Where lowering starts, the constants that it will declare are in use. -/
theorem Draft.Proper.ready (hd : d.Proper cx T opening) : Ready d.vocabulary cx.start.used [] :=
  ⟨fun c hc => mem_eraseDups.mpr (hd.mem_names c hc), by simp⟩

/-- The formula and the assumptions of a form are closed and bind no symbol that is a constant or
bound already, whatever hides what in the program. -/
theorem form_closed (cp : CheckedProgram) (maxDepth : Nat) {q : Principle} {f : Form}
    (hf : (LoweringContext.ofProgram cp maxDepth).lower q = .ok f) :
    ∀ t ∈ f.formula :: f.assumptions, t.Closed f.vocabulary := by
  obtain ⟨d, hd, hvocabulary, hassumptions, hyields⟩ := exists_proper hf
  rw [hvocabulary] at hyields ⊢
  refine forall_mem_cons.mpr ⟨(hyields.apart hd.ready).closed, fun t ht => ?_⟩
  rw [hassumptions] at ht
  exact (hd.assumptions t ht d.vocabulary (.refl _)).closed hd.mem_names

/-!
### Names that hide each other
-/

/-- `x` is one. -/
def hiddenValue : Declaration :=
  ⟨{}, "x", .refine {} (.prim {} .int) (some 1) none, .literal {} (.int 1)⟩

/-- `y`: some `x` is positive. -/
def hidingValue : Declaration :=
  ⟨{}, "y", .prim {} .bool, .quantified {} .some "x" (.prim {} .int)
    (.binary {} .lt (.literal {} (.int 0)) "x")⟩

/-- Declared values, quantified variables and a pattern, all called `x` or `y`. -/
def homonymous : Principle where
  span := {}
  name := "Homonymous"
  body :=
    .binary {} .implies (.binary {} .eq "x" (.literal {} (.int 1))) <|
      .quantified {} .all "x" (.refine {} (.prim {} .int) (some 0) (some 5)) <|
        .binary {} .and
          (.quantified {} .some "x" (.prim {} .int)
            (.binary {} .eq "x" (.literal {} (.int 3))))
          (.select {} {} "x"
            [⟨{}, .binding "x", some "y",
                .binary {} .or
                  (.quantified {} .all "x" (.prim {} .bool) "x")
                  (.binary {} .ge "x" (.literal {} (.int 0)))⟩,
              ⟨{}, .wildcard {}, none,
                .quantified {} .some "y" (.prim {} .int)
                  (.binary {} .eq "y" "x")⟩])

def hidings : Program :=
  ⟨"hidings", [.value hiddenValue, .value hidingValue, .principle homonymous]⟩

def homonymousForm : Form where
  principle := "Homonymous"
  vocabulary :=
    { constants := [⟨"x", "x", .int, some 1, none⟩, ⟨"y", "y", .bool, none, none⟩] }
  assumptions := [.cmp .le (.int 1) (.var "x"), .cmp .eq (.var "x") (.int 1),
    .cmp .eq (.var "y") (.quant .some "x@4" .int (.cmp .lt (.int 0) (.var "x@4")))]
  formula := .implies (.cmp .eq (.var "x") (.int 1)) (.quant .all "x@2" .int (.implies
    (.and [.cmp .le (.int 0) (.var "x@2"), .cmp .le (.var "x@2") (.int 5)])
    (.and [.quant .some "x@3" .int (.cmp .eq (.var "x@3") (.int 3)),
      .ite (.var "y")
        (.or [.quant .all "x@5" .bool (.var "x@5"), .cmp .ge (.var "x@2") (.int 0)])
        (.quant .some "y@2" .int (.cmp .eq (.var "y@2") (.var "x@2")))])))
  warnings := ["`forall x` shadows an outer binding of `x`",
    "`exists x` shadows an outer binding of `x`", "`exists x` shadows an outer binding of `x`",
    "`forall x` shadows an outer binding of `x`", "`exists y` shadows an outer binding of `y`"]

/-- Names that hide each other become different symbols. -/
theorem homonymousForm_closed : ∃ ws,
    hidings.check = .ok ⟨hidings, {}, ws⟩ ∧
    (LoweringContext.ofProgram ⟨hidings, {}, ws⟩).lower homonymous = .ok homonymousForm ∧
    ∀ t ∈ homonymousForm.formula :: homonymousForm.assumptions,
      t.Closed homonymousForm.vocabulary := by
  have hlower (ws : List Finding) :
      (LoweringContext.ofProgram ⟨hidings, {}, ws⟩).lower homonymous = .ok homonymousForm := by
    cbv
  obtain ⟨ws, hcheck⟩ : ∃ ws, hidings.check = .ok ⟨hidings, {}, ws⟩ :=
    ⟨_, check_eq_ok_of_errors rfl rfl⟩
  exact ⟨ws, hcheck, hlower ws, form_closed _ _ (hlower ws)⟩

end Statute
