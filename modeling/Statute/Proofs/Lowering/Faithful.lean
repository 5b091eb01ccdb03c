import Statute.Proofs.Check.Structs
import Statute.Proofs.Lowering.Closed

/-!
# Forms mean what principles say

A principle about whole numbers, truth values, texts, dates and enums that reads no declared values
is true under a structure if and only if its formula is: `formula_means_principle`. Names that hide
each other, arms of a `match` with guards, and limits of quantified variables are all covered.

The formula is made by the rules of lowering, so this is an induction over the rules. The symbols in
use keep what a new symbol stands for apart from all that the terms of locals stand for.
-/

namespace Statute

open Logic List

universe u

variable {r : Lowered} {S : Setting} {c : Option Term}

/-!
## Elementary expressions
-/

def Literal.isElementary : Literal → Bool
  | .int _ | .bool _ | .string _ | .date _ => true
  | _ => false

def Pattern.isElementary : Pattern → Bool
  | .literal _ v => v.isElementary
  | .satisfies _ _ => false
  | .wildcard _ | .variant _ _ _ | .binding _ => true

/-- Whole numbers, truth values, texts, dates and enums. Limits are those of a window of dates, or
stand directly around `int`. -/
def Ty.isElementary : Ty → Bool
  | .prim .int | .prim .bool | .prim .string | .prim .date => true
  | .enum _ => true
  | .refine (.prim .int) _ _ => true
  | .positive (.prim .int) => true
  | .validDate _ _ => true
  | _ => false

/-- The outermost part of the expression is elementary. -/
def Expr.ElementaryHere (env : Env) : Expr → Prop
  | .literal _ v => v.isElementary = true
  | .select _ _ _ arms => ∀ a ∈ arms, a.pattern.isElementary = true
  | .quantified _ _ _ type _ => ∃ ty, Stands env [] type ty ∧ ty.isElementary = true
  | .member _ _ _ | .call _ _ _ | .record _ _ _ | .satisfies _ _ _ => False
  | .name _ _ | .variant _ _ _ | .unary _ _ _ | .binary _ _ _ _ => True

/-- All of the expression is about whole numbers, truth values, texts, dates and enums. -/
def Expr.Elementary (env : Env) : Expr → Prop := Everywhere (ElementaryHere env)

variable {s : SmtSort}

section Types

variable {α : Type u} {M : Structure α}

/-- Quantified variables range over the values of their sort within the limits of their type. -/
theorem Ty.values_eq_of_encoding? {ty : Ty} {limits : Limits} (helementary : ty.isElementary)
    (h : ty.encoding? = some (s, limits)) :
    s ≠ .real ∧ ty.values M = {v | v ∈ M.carrier s ∧ limits.Contain v} := by
  have hfree {s : SmtSort} :
      M.carrier s = {v | v ∈ M.carrier s ∧ Limits.Contain (none, none) v} := by
    simp [Limits.Contain]
  unfold Ty.isElementary at helementary
  split at helementary
  case h_9 => cases helementary
  all_goals cases h
  iterate 5 exact ⟨by simp, hfree⟩
  · exact ⟨by simp, rfl⟩
  · refine ⟨by simp, Set.ext fun v => and_congr_right fun hv => ?_⟩
    obtain ⟨n, rfl⟩ := hv
    simp [Limits.Contain, Ty.limits?, Ty.core, Ty.isInt]
    omega
  next after before =>
    refine ⟨by simp, Set.ext fun v => ⟨fun hv => ?_, fun hv => ?_⟩⟩
    · obtain ⟨n, rfl, hafter, hbefore⟩ := hv
      refine ⟨⟨n, rfl⟩, fun m hm => ?_, fun m hm => ?_⟩
      · obtain ⟨a, ha, rfl⟩ := Option.map_eq_some_iff.mp hm
        exact Datum.atMost_int.mpr (hafter a ha)
      obtain ⟨b, hb, rfl⟩ := Option.map_eq_some_iff.mp hm
      have hlt := hbefore b hb
      exact Datum.atMost_int.mpr (by omega)
    · obtain ⟨⟨n, rfl⟩, hlower, hupper⟩ := hv
      refine ⟨n, rfl, fun a ha => ?_, fun b hb => ?_⟩
      · grind [Logic.Datum.atMost_int]
      · grind [Logic.Datum.atMost_int]

end Types

variable {p : Pattern} {arms : List LoweredArm}

/-!
## Values of lowered terms
-/

section Values

variable {α : Type u} (M : Structure α)

/-- Names in the program have the values `σ` just as the terms of locals have under `ρ`, and as the
symbols of those among `names` have that no local hides. -/
structure Mirrors (names : Set String) (locals : List Local) (σ ρ : Valuation α) : Prop where
  bound : ∀ x l, locals.find? (·.name == x) = some l → M.value ρ l.term = σ x
  declared : ∀ x ∈ names, locals.find? (·.name == x) = none → ρ x = σ x

/-- The body of the first lowered arm that applies. -/
noncomputable def chosenArm (ρ : Valuation α) : List LoweredArm → Datum α
  | [] => default
  | a :: arms => @ite _ (∀ c ∈ a.condition, M.Holds ρ c) (Classical.propDecidable _)
      (M.value ρ a.body) (chosenArm ρ arms)

variable {M} {names : Set String} {locals : List Local} {σ ρ : Valuation α}

theorem Mirrors.bind (h : Mirrors M names locals σ ρ) (n : String) (t : Term) (s : SmtSort) :
    Mirrors M names (⟨n, t, s⟩ :: locals) (Function.update σ n (M.value ρ t)) ρ where
  bound x l hl := by
    by_cases hx : n = x
    · grind
    · rw [Function.update_of_ne (Ne.symm hx)]
      exact h.bound x l (by simpa [hx] using hl)
  declared x hx hnone := by
    have hne : n ≠ x := by
      rintro rfl
      simp at hnone
    rw [Function.update_of_ne (Ne.symm hne)]
    exact h.declared x hx (by simpa [hne] using hnone)

theorem Mirrors.bindPattern (h : Mirrors M names locals σ ρ) (p : Pattern) (r : Lowered) :
    Mirrors M names (p.boundLocals r ++ locals) (p.bind (M.value ρ r.1) σ) ρ := by
  cases p with
  | binding id => exact h.bind id.name r.1 r.2
  | _ => exact h

/-- A symbol that is no declared name and that no local mentions may have any value. -/
theorem Mirrors.update (h : Mirrors M names locals σ ρ) {symbol : String}
    (hlocals : ∀ l ∈ locals, symbol ∉ l.term.free) (hnames : symbol ∉ names) (d : Datum α) :
    Mirrors M names locals σ (Function.update ρ symbol d) where
  bound x l hl := by
    rw [← h.bound x l hl]
    refine M.value_congr fun y hy => ?_
    have hne : y ≠ symbol := fun heq => hlocals l (mem_of_find?_eq_some hl) (heq ▸ hy)
    rw [Function.update_of_ne hne]
  declared x hx hnone := by
    rw [Function.update_of_ne (ne_of_mem_of_not_mem hx hnames)]
    exact h.declared x hx hnone

theorem value_of_encoding? {v : Literal} (hv : v.isElementary) (h : v.encoding? = some r) :
    r.2 ≠ .real ∧ M.value ρ r.1 = v.meaning := by
  cases v with
  | int | bool | string =>
    cases h
    exact ⟨by simp, rfl⟩
  | date text =>
    obtain ⟨d, hd, rfl⟩ := Option.map_eq_some_iff.mp h
    refine ⟨by simp, ?_⟩
    rw [Literal.meaning, hd]
    rfl
  | _ => cases hv

theorem holds_pattern (h : YieldsPattern S r p c) (hp : p.isElementary) (hr : r.2 ≠ .real) :
    (∀ t ∈ c, M.Holds ρ t) ↔ p.Matches (M.value ρ r.1) := by
  cases h with
  | wildcard | binding => simp [Pattern.Matches]
  | literal hv ht =>
    obtain ⟨-, rfl⟩ := eq_of_coerce? hr ht
    simp [Comparison.Holds, Pattern.Matches, (value_of_encoding? (M := M) (ρ := ρ) hp hv).2]
  | variant => simp [Comparison.Holds, Pattern.Matches, Structure.value]
  | satisfies => cases hp

theorem holds_bothConditions {g : Term} :
    (∀ t ∈ bothConditions c (some g), M.Holds ρ t) ↔ (∀ t ∈ c, M.Holds ρ t) ∧ M.Holds ρ g := by
  cases c <;> simp [bothConditions]

theorem Chains.value_eq {t : Term} (h : Chains s arms t) (hs : s ≠ .real) :
    M.value ρ t = chosenArm M ρ arms := by
  induction h with
  | last hnone ht =>
    obtain ⟨-, rfl⟩ := eq_of_coerce? hs ht
    simp [chosenArm, hnone]
  | @cons a c t arms rest hsome ht hrest ih =>
    obtain ⟨-, rfl⟩ := eq_of_coerce? hs ht
    have hcondition : (∀ c ∈ a.condition, M.Holds ρ c) ↔ M.Holds ρ c := by simp [hsome]
    rw [Structure.value, chosenArm, ih]
    by_cases hc : (M.value ρ c).IsTrue
    · rw [if_pos (hcondition.mpr hc), if_pos hc]
    · rw [if_neg (mt hcondition.mp hc), if_neg hc]

end Values

/-!
## Terms that can be searched with
-/

section Searchable

open Search (Searchable)

variable {v : Vocabulary} {bare : Set String} {t : Term}

theorem searchable_of_harmless (h : t.Everywhere HarmlessHere) : Searchable v bare t :=
  h.imp fun _ hu => ⟨hu.1, hu.2.2.2 v, by simp [hu.2.1], by simp [hu.2.2.1]⟩

theorem searchable_of_parts (h : HarmlessHere t) (hparts : ∀ s ∈ t.parts, Searchable v bare s) :
    Searchable v bare t :=
  Term.everywhere_iff.mpr ⟨⟨h.1, h.2.2.2 v, by simp [h.2.1], by simp [h.2.2.1]⟩, hparts⟩

theorem Literal.searchable_encoding {l : Literal} (hl : l.isElementary)
    (h : l.encoding? = some r) : Searchable v bare r.1 := by
  have hleaf {t : Term} (hharmless : HarmlessHere t) (hparts : t.parts = []) :
      Searchable v bare t :=
    searchable_of_parts hharmless (by simp [hparts])
  cases l with
  | int | bool | string =>
    cases h
    exact hleaf ⟨rfl, rfl, rfl, fun _ => trivial⟩ rfl
  | date text =>
    obtain ⟨d, -, rfl⟩ := Option.map_eq_some_iff.mp h
    exact hleaf ⟨rfl, rfl, rfl, fun _ => trivial⟩ rfl
  | _ => cases hl

theorem searchable_cmp {op a b} (ha : Searchable v bare a) (hb : Searchable v bare b) :
    Searchable v bare (.cmp op a b) :=
  searchable_of_parts ⟨rfl, rfl, rfl, fun _ => trivial⟩ (by simpa [Term.parts] using ⟨ha, hb⟩)

theorem searchable_pattern (h : YieldsPattern S r p c) (hp : p.isElementary)
    (hr : r.2 ≠ .real) (hterm : Searchable v bare r.1) : ∀ t ∈ c, Searchable v bare t := by
  intro t ht
  cases h with
  | wildcard | binding => cases ht
  | literal hv ht' =>
    cases ht
    obtain ⟨-, rfl⟩ := eq_of_coerce? hr ht'
    exact searchable_cmp hterm (Literal.searchable_encoding hp hv)
  | variant =>
    cases ht
    refine searchable_cmp hterm (searchable_of_parts ⟨rfl, rfl, rfl, fun _ => trivial⟩ ?_)
    simp [Term.parts]
  | satisfies => cases hp

theorem Chains.searchable (h : Chains s arms t) (hs : s ≠ .real)
    (harms : ∀ a ∈ arms, (∀ c ∈ a.condition, Searchable v bare c) ∧ Searchable v bare a.body) :
    Searchable v bare t := by
  induction h with
  | last hnone ht => grind [eq_of_coerce?]
  | @cons a c t arms rest hsome ht hrest ih =>
    obtain ⟨-, rfl⟩ := eq_of_coerce? hs ht
    obtain ⟨⟨hc, hbody⟩, harms⟩ := forall_mem_cons.mp harms
    exact searchable_of_parts ⟨rfl, rfl, rfl, fun _ => trivial⟩
      (by simpa [Term.parts] using ⟨hc c hsome, hbody, ih harms⟩)

end Searchable

/-!
## Expressions
-/

/-- What is asked of the outermost part of an expression for its term to have its meaning: no real
numbers, no structs and no legal tests, and variables that range over what their guards say. The
functions that are called without arguments are among `bare`, and no symbol for a variable is. -/
def Expr.LegibleHere {α : Type u} (M : Structure α) (S : Setting) (bare : Set String) : Expr → Prop
  | .literal _ v => v.isElementary = true
  | .select _ _ _ arms => ∀ a ∈ arms, a.pattern.isElementary = true
  | .quantified _ _ v type _ => (∀ symbol ∈ symbolsFor v.name, symbol ∉ bare) ∧
      ∃ ty, Stands S.env [] type ty ∧ ∀ s limits, ty.encoding? = some (s, limits) →
        s ≠ .real ∧ ty.values M = {v | v ∈ M.carrier s ∧ limits.Contain v}
  | .call _ f args => (args = [] → f.name ∈ bare) ∧ ∀ sig, S.env.function? f.name = some sig →
      (∀ ty ∈ sig.result :: sig.params.map (·.2), ∀ s limits, ty.encoding? = some (s, limits) →
        s ≠ .real) ∧
      ∀ g, S.vocabulary.function? f.name = some g → g.params.length = sig.params.length
  | .member _ _ _ | .record _ _ _ | .satisfies _ _ _ => False
  | .name _ _ | .variant _ _ _ | .unary _ _ _ | .binary _ _ _ _ => True

/-- All of the expression can be read off its term. -/
def Expr.Legible {α : Type u} (M : Structure α) (S : Setting) (bare : Set String) : Expr → Prop :=
  Everywhere (LegibleHere M S bare)

/-- Names that may be read: they are in use, and the constants that they become bear them. -/
structure Setting.Declares (S : Setting) (names : Set String) (u : List String) : Prop where
  used : ∀ x ∈ names, x ∈ u
  constant : ∀ x ∈ names, ∀ l c, S.resolve x = some l → l.Constant S c →
    c.symbol = x ∧ c.sort ≠ .real

theorem Setting.Declares.mono {names u u'} (h : S.Declares names u) (hu : u ⊆ u') :
    S.Declares names u' :=
  ⟨fun x hx => hu (h.used x hx), h.constant⟩

/-- A term that has the meaning `m`, whatever the locals stand for. -/
structure Conveys {α : Type u} (M : Structure α) (v : Vocabulary) (names bare : Set String)
    (locals : List Local) (m : Valuation α → Datum α) (r : Lowered) : Prop where
  sort : r.2 ≠ .real
  searchable : Search.Searchable v bare r.1
  value : ∀ σ ρ, Mirrors M names locals σ ρ → M.value ρ r.1 = m σ

/-- The term of the local can be searched with. -/
structure Local.Legible (v : Vocabulary) (bare : Set String) (l : Local) : Prop where
  sort : l.sort ≠ .real
  searchable : Search.Searchable v bare l.term

theorem Conveys.locals {α : Type u} {M : Structure α} {v : Vocabulary} {names bare : Set String}
    {locals : List Local} {m : Valuation α → Datum α} (h : Conveys M v names bare locals m r)
    (hlocals : ∀ l ∈ locals, l.Legible v bare) (p : Pattern) :
    ∀ l ∈ p.boundLocals r ++ locals, l.Legible v bare := by
  cases p with
  | binding id => exact forall_mem_cons.mpr ⟨⟨h.sort, h.searchable⟩, hlocals⟩
  | _ => exact hlocals

mutual

/-- The term of a legible expression has the meaning of the expression. -/
theorem Yields.conveys {α : Type u} {M : Structure α} {S : Setting} {names bare : Set String}
    {u u' : List String} {locals : List Local} {e : Expr} {r : Lowered}
    (h : Yields S u locals e r u') (he : e.Legible M S bare)
    (hreads : Unbound (· ∈ names) locals e.reads) (hready : Ready S.vocabulary u locals)
    (hlocals : ∀ l ∈ locals, l.Legible S.vocabulary bare) (hnames : S.Declares names u) :
    Conveys M S.vocabulary names bare locals (fun σ => e.meaning M S.env σ) r := by
  match h with
  | .literal hv =>
    have hliteral := he.here
    exact ⟨(value_of_encoding? (M := M) (ρ := default) hliteral hv).1,
      Literal.searchable_encoding hliteral hv, fun σ ρ _ => (value_of_encoding? hliteral hv).2⟩
  | .bound hl =>
    have hlocal := hlocals _ (mem_of_find?_eq_some hl)
    exact ⟨hlocal.sort, hlocal.searchable, fun σ ρ hmirrors => hmirrors.bound _ _ hl⟩
  | .declared hfree hl hc _ =>
    have hname := hreads _ (mem_singleton_self _) hfree
    obtain ⟨hsymbol, hs⟩ := hnames.constant _ hname _ _ hl hc
    refine ⟨hs, searchable_of_parts ⟨rfl, rfl, rfl, fun _ => trivial⟩ (by simp [Term.parts]),
      fun σ ρ hmirrors => ?_⟩
    rw [Structure.value, hsymbol, hmirrors.declared _ hname hfree]
    rfl
  | .variant _ _ =>
    exact ⟨by simp, searchable_of_parts ⟨rfl, rfl, rfl, fun _ => trivial⟩ (by simp [Term.parts]),
      fun _ _ _ => rfl⟩
  | .not hin =>
    have ht := hin.conveys (Expr.everywhere_unary.mp he).2 hreads hready hlocals hnames
    refine ⟨by simp, searchable_of_parts ⟨rfl, rfl, rfl, fun _ => trivial⟩
      (by simpa [Term.parts] using ht.searchable), fun σ ρ hmirrors => ?_⟩
    rw [Structure.value, ht.value σ ρ hmirrors]
    rfl
  | .neg hin _ =>
    have ht := hin.conveys (Expr.everywhere_unary.mp he).2 hreads hready hlocals hnames
    refine ⟨ht.sort, searchable_of_parts ⟨rfl, rfl, rfl, fun _ => trivial⟩
      (by simpa [Term.parts] using ht.searchable), fun σ ρ hmirrors => ?_⟩
    rw [Structure.value, ht.value σ ρ hmirrors]
    rfl
  | @Yields.logical _ _ _ _ _ _ op _ _ _ _ hop hl hr =>
    obtain ⟨-, hel, her⟩ := Expr.everywhere_binary.mp he
    obtain ⟨hreadsLeft, hreadsRight⟩ := hreads.append
    have ha := hl.conveys hel hreadsLeft hready hlocals hnames
    have hb := hr.conveys her hreadsRight (hready.mono hl.subset) hlocals (hnames.mono hl.subset)
    cases op with
    | and | or | implies =>
      refine ⟨by simp, searchable_of_parts ⟨rfl, rfl, rfl, fun _ => trivial⟩
        (by simpa [connective, Term.parts] using ⟨ha.searchable, hb.searchable⟩),
        fun σ ρ hmirrors => ?_⟩
      simp [connective, Structure.value, Expr.meaning, BinaryOp.meaning, ha.value σ ρ hmirrors,
        hb.value σ ρ hmirrors]
    | _ => cases hop
  | .comparison hop hl hr hjoined ha' hb' _ =>
    obtain ⟨-, hel, her⟩ := Expr.everywhere_binary.mp he
    obtain ⟨hreadsLeft, hreadsRight⟩ := hreads.append
    have ha := hl.conveys hel hreadsLeft hready hlocals hnames
    have hb := hr.conveys her hreadsRight (hready.mono hl.subset) hlocals (hnames.mono hl.subset)
    have hreal := ne_real_of_joinedSort? ha.sort hb.sort hjoined
    obtain ⟨-, rfl⟩ := eq_of_coerce? hreal ha'
    obtain ⟨-, rfl⟩ := eq_of_coerce? hreal hb'
    refine ⟨by simp, searchable_cmp ha.searchable hb.searchable, fun σ ρ hmirrors => ?_⟩
    rw [Expr.meaning, meaning_of_isComparison hop, Structure.value, ha.value σ ρ hmirrors,
      hb.value σ ρ hmirrors]
  | .arithmetic hlogical hcomparison hl hr hjoined ha' hb' _ =>
    obtain ⟨-, hel, her⟩ := Expr.everywhere_binary.mp he
    obtain ⟨hreadsLeft, hreadsRight⟩ := hreads.append
    have ha := hl.conveys hel hreadsLeft hready hlocals hnames
    have hb := hr.conveys her hreadsRight (hready.mono hl.subset) hlocals (hnames.mono hl.subset)
    have hreal := ne_real_of_joinedSort? ha.sort hb.sort hjoined
    obtain ⟨-, rfl⟩ := eq_of_coerce? hreal ha'
    obtain ⟨-, rfl⟩ := eq_of_coerce? hreal hb'
    refine ⟨hreal, searchable_of_parts ⟨by simpa [Term.isReal] using hreal, rfl, rfl,
      fun _ => trivial⟩ (by simpa [Term.parts] using ⟨ha.searchable, hb.searchable⟩),
      fun σ ρ hmirrors => ?_⟩
    rw [Expr.meaning, meaning_of_isArithmetic (by simp [hlogical]) (by simp [hcomparison]),
      Structure.value, ha.value σ ρ hmirrors, hb.value σ ρ hmirrors]
  | .member _ _ _ _ _ | .satisfies _ _ => exact he.here.elim
  | @Yields.call _ _ _ _ _ callee sig args rs s limits hsig hargs hresult hdeclared =>
    obtain ⟨⟨hbare, hsorts⟩, hea⟩ := Expr.everywhere_call.mp he
    obtain ⟨hreal, harity⟩ := hsorts sig hsig
    obtain ⟨hresultReal, hparamsReal⟩ := forall_mem_cons.mp hreal
    obtain ⟨hlengths, hterms, hvalues⟩ := hargs.conveys hparamsReal hea hreads hready hlocals hnames
    obtain ⟨g, hg⟩ := hdeclared
    refine ⟨hresultReal s limits hresult, Term.everywhere_iff.mpr ⟨⟨rfl, ?_, ?_,
      by simp [Term.binder?]⟩, ?_⟩, fun σ ρ hmirrors => ?_⟩
    · exact ⟨g, hg, by simpa [hlengths.1] using harity g hg⟩
    · intro f hf
      cases rs with
      | cons r rs => cases hf
      | nil =>
        cases hf
        exact hbare (length_eq_zero_iff.mp hlengths.2.symm)
    · exact forall_mem_map.mpr hterms
    · rw [Structure.value, Structure.values_eq_map, map_map, Expr.meaning,
        Expr.meanings_eq_map]
      exact congrArg _ (hvalues σ ρ hmirrors)
  | .select hin harms hchain =>
    obtain ⟨hpatterns, hee, hea⟩ := Expr.everywhere_select.mp he
    obtain ⟨hreadsFirst, hreadsArms⟩ := hreads.append
    have hr := hin.conveys hee hreadsFirst hready hlocals hnames
    obtain ⟨hsorts, hterms, hchosen⟩ := harms.conveys hpatterns hea hreadsArms
      (hready.mono hin.subset) hlocals (hnames.mono hin.subset) (hin.apart hready) hr
    have hs := armsSort_ne_real hsorts
    refine ⟨hs, hchain.searchable hs hterms, fun σ ρ hmirrors => ?_⟩
    rw [hchain.value_eq hs, hchosen σ ρ hmirrors, hr.value σ ρ hmirrors, Expr.meaning]
  | @Yields.quantified _ _ _ _ _ q var type ty s limits symbol body t hstands _ hty hnew hfor
      hbody =>
    obtain ⟨⟨hbare, ty', hstands', hlegible⟩, heb⟩ := Expr.everywhere_quantified.mp he
    obtain rfl := hstands.unique hstands'
    obtain ⟨hreal, hvalues⟩ := hlegible s limits hty
    have hrange : type.values M S.env = {v | v ∈ M.carrier s ∧ limits.Contain v} := by
      rw [← hvalues]
      refine Set.ext fun v => ⟨fun hv => ?_, fun hv => ⟨ty, hstands, hv⟩⟩
      obtain ⟨ty', hstands', hv⟩ := hv
      rwa [hstands.unique hstands']
    have hvar : Search.Searchable S.vocabulary bare (.var symbol) :=
      searchable_of_parts ⟨rfl, rfl, rfl, fun _ => trivial⟩ (by simp [Term.parts])
    have hinner := hbody.conveys heb (Unbound.bind hreads) (hready.bindVariable _ _ _)
      (forall_mem_cons.mpr ⟨⟨hreal, hvar⟩, hlocals⟩)
      (hnames.mono (subset_append_left _ _))
    refine ⟨by simp, ⟨⟨by simpa [Term.isReal] using hreal, trivial, by simp [Term.bare?],
      by simpa [Term.binder?] using hbare symbol hfor⟩, ?_⟩, fun σ ρ hmirrors => ?_⟩
    · refine everywhere_guardBody (fun g hg => ⟨?_, ?_, ?_⟩) hinner.searchable
      · exact searchable_of_harmless (withinLimits?_harmless hg).1
      all_goals exact ⟨rfl, trivial, by simp [Term.bare?], by simp [Term.binder?]⟩
    have hfree : ∀ l ∈ locals, symbol ∉ l.term.free :=
      fun l hl hx => hnew ((hready.locals l hl).free _ hx)
    -- the name has any value inside that the new symbol has there
    have hbody (d : Datum α) : M.Holds (Function.update ρ symbol d) t ↔
        (body.meaning M S.env (Function.update σ var.name d)).IsTrue := by
      have hinside := (hmirrors.update hfree (fun hx => hnew (hnames.used _ hx)) d).bind var.name
        (.var symbol) s
      rw [Structure.value, Function.update_self] at hinside
      rw [Structure.Holds, hinner.value _ _ hinside]
    rw [Structure.value, Expr.meaning, hrange]
    refine congrArg Datum.ofProp (propext ?_)
    exact (Structure.holds_quant.symm.trans holds_guarded).trans (ranges_congr fun d _ => hbody d)

/-- The terms of arguments have their meanings. -/
theorem YieldsEach.conveys {α : Type u} {M : Structure α} {S : Setting} {names bare u u' locals}
    {params : List Ty} {args : List Expr} {rs : List Lowered}
    (h : YieldsEach S u locals params args rs u')
    (hparams : ∀ ty ∈ params, ∀ s limits, ty.encoding? = some (s, limits) → s ≠ .real)
    (hargs : ∀ e ∈ args, e.Legible M S bare)
    (hreads : Unbound (· ∈ names) locals (Expr.readsOfArgs args))
    (hready : Ready S.vocabulary u locals) (hlocals : ∀ l ∈ locals, l.Legible S.vocabulary bare)
    (hnames : S.Declares names u) :
    (rs.length = params.length ∧ rs.length = args.length) ∧
      (∀ r ∈ rs, Search.Searchable S.vocabulary bare r.1) ∧
      ∀ σ ρ, Mirrors M names locals σ ρ →
        rs.map (fun r => M.value ρ r.1) = args.map fun e => e.meaning M S.env σ := by
  match h with
  | .nil => exact ⟨⟨rfl, rfl⟩, by simp, fun _ _ _ => rfl⟩
  | .cons hp he ht hes =>
    obtain ⟨hpReal, hparams⟩ := forall_mem_cons.mp hparams
    obtain ⟨hlegible, hargs⟩ := forall_mem_cons.mp hargs
    obtain ⟨hreadsFirst, hreadsRest⟩ := hreads.append
    have hfirst := he.conveys hlegible hreadsFirst hready hlocals hnames
    obtain ⟨-, rfl⟩ := eq_of_coerce? (hpReal _ _ hp) ht
    obtain ⟨hlengths, hterms, hvalues⟩ := hes.conveys hparams hargs hreadsRest
      (hready.mono he.subset) hlocals (hnames.mono he.subset)
    refine ⟨by simpa using hlengths, forall_mem_cons.mpr ⟨hfirst.searchable, hterms⟩,
      fun σ ρ hmirrors => ?_⟩
    rw [map_cons, map_cons, hfirst.value σ ρ hmirrors, hvalues σ ρ hmirrors]

/-- The first lowered arm that applies is that of the first arm that applies. -/
theorem YieldsArms.conveys {α : Type u} {M : Structure α} {S : Setting}
    {names bare u₀ u u' locals r arms lowered} {m : Valuation α → Datum α}
    (h : YieldsArms S u locals r arms lowered u')
    (hpatterns : ∀ a ∈ arms, a.pattern.isElementary)
    (hlegible : ∀ a ∈ arms, (∀ g ∈ a.guard, g.Legible M S bare) ∧ a.body.Legible M S bare)
    (hreads : Unbound (· ∈ names) locals (Expr.readsOfArms arms))
    (hready : Ready S.vocabulary u locals) (hlocals : ∀ l ∈ locals, l.Legible S.vocabulary bare)
    (hnames : S.Declares names u) (hapart : Apart S.vocabulary locals u₀ u r.1)
    (hr : Conveys M S.vocabulary names bare locals m r) :
    (∀ a ∈ lowered, a.sort ≠ .real) ∧
      (∀ a ∈ lowered, (∀ c ∈ a.condition, Search.Searchable S.vocabulary bare c) ∧
        Search.Searchable S.vocabulary bare a.body) ∧
      ∀ σ ρ, Mirrors M names locals σ ρ →
        chosenArm M ρ lowered = Expr.chosen M S.env σ (M.value ρ r.1) arms := by
  match h with
  | @YieldsArms.last _ _ _ _ _ _ p b _ t s hp hb =>
    obtain ⟨hpattern, -⟩ := forall_mem_cons.mp hpatterns
    obtain ⟨⟨-, heb⟩, -⟩ := forall_mem_cons.mp hlegible
    obtain ⟨hreadsBody, -⟩ := hreads.append
    have hbody := hb.conveys heb hreadsBody.bindPattern (hready.bindPattern hapart p)
      (hr.locals hlocals p) hnames
    refine ⟨by simpa using hbody.sort, by simpa using hbody.searchable, fun σ ρ hmirrors => ?_⟩
    have hmatches := (holds_pattern (M := M) (ρ := ρ) hp hpattern hr.sort).mp (by simp)
    rw [Expr.chosen, if_pos hmatches, chosenArm, if_pos (by simp)]
    exact hbody.value _ ρ (hmirrors.bindPattern p r)
  | @YieldsArms.cons _ _ _ _ _ _ _ p b _ c t s lowered hp hb harms =>
    obtain ⟨hpattern, hpatterns'⟩ := forall_mem_cons.mp hpatterns
    obtain ⟨⟨-, heb⟩, hlegible'⟩ := forall_mem_cons.mp hlegible
    obtain ⟨hreadsBody, hreads'⟩ := hreads.append
    have hbody := hb.conveys heb hreadsBody.bindPattern (hready.bindPattern hapart p)
      (hr.locals hlocals p) hnames
    obtain ⟨hsorts, hterms, hrest⟩ := harms.conveys hpatterns' hlegible' hreads'
      (hready.mono hb.subset) hlocals (hnames.mono hb.subset)
      (hapart.mono (List.Subset.refl _) hb.subset) hr
    refine ⟨forall_mem_cons.mpr ⟨hbody.sort, hsorts⟩, forall_mem_cons.mpr
      ⟨⟨searchable_pattern hp hpattern hr.sort hr.searchable, hbody.searchable⟩, hterms⟩,
      fun σ ρ hmirrors => ?_⟩
    have hmatches := holds_pattern (M := M) (ρ := ρ) hp hpattern hr.sort
    rw [chosenArm, Expr.chosen, hbody.value _ ρ (hmirrors.bindPattern p r), hrest σ ρ hmirrors]
    by_cases hc : p.Matches (M.value ρ r.1)
    · rw [if_pos hc, if_pos (hmatches.mpr hc)]
    · rw [if_neg hc, if_neg (mt hmatches.mp hc)]
  | @YieldsArms.guarded _ _ _ _ _ _ _ _ p g b _ c tg t s lowered hp hg hb harms =>
    obtain ⟨hpattern, hpatterns'⟩ := forall_mem_cons.mp hpatterns
    obtain ⟨⟨heg, heb⟩, hlegible'⟩ := forall_mem_cons.mp hlegible
    obtain ⟨hreadsBoth, hreads'⟩ := hreads.append
    obtain ⟨hreadsGuard, hreadsBody⟩ := (hreadsBoth.bindPattern (r := r)).append
    have hinside := hready.bindPattern hapart p
    have hlocals' := hr.locals hlocals p
    have hu₂ := List.Subset.trans hg.subset hb.subset
    have hguard := hg.conveys (heg g rfl) hreadsGuard hinside hlocals' hnames
    have hbody := hb.conveys heb hreadsBody (hinside.mono hg.subset) hlocals'
      (hnames.mono hg.subset)
    obtain ⟨hsorts, hterms, hrest⟩ := harms.conveys hpatterns' hlegible' hreads' (hready.mono hu₂)
      hlocals (hnames.mono hu₂) (hapart.mono (List.Subset.refl _) hu₂) hr
    have hcondition : ∀ t ∈ bothConditions c (some tg), Search.Searchable S.vocabulary bare t := by
      have hc := searchable_pattern hp hpattern hr.sort hr.searchable
      intro t ht
      cases c with
      | none =>
        cases ht
        exact hguard.searchable
      | some c =>
        cases ht
        exact searchable_of_parts ⟨rfl, rfl, rfl, fun _ => trivial⟩
          (by simpa [Term.parts] using ⟨hc c rfl, hguard.searchable⟩)
    refine ⟨forall_mem_cons.mpr ⟨hbody.sort, hsorts⟩, forall_mem_cons.mpr
      ⟨⟨hcondition, hbody.searchable⟩, hterms⟩, fun σ ρ hmirrors => ?_⟩
    have hbound := hmirrors.bindPattern p r
    -- the arm applies if its pattern matches and its guard holds of what the pattern binds
    have happlies : (∀ t ∈ bothConditions c (some tg), M.Holds ρ t) ↔
        p.Matches (M.value ρ r.1) ∧
          (g.meaning M S.env (p.bind (M.value ρ r.1) σ)).IsTrue := by
      rw [holds_bothConditions, holds_pattern hp hpattern hr.sort, Structure.Holds,
        hguard.value _ ρ hbound]
    rw [chosenArm, Expr.chosen, hbody.value _ ρ hbound, hrest σ ρ hmirrors]
    by_cases hc : p.Matches (M.value ρ r.1) ∧
        (g.meaning M S.env (p.bind (M.value ρ r.1) σ)).IsTrue
    · rw [if_pos hc, if_pos (happlies.mpr hc)]
    · rw [if_neg hc, if_neg (mt happlies.mp hc)]

end

/-- Elementary expressions are legible, whatever is declared. -/
theorem Expr.Elementary.legible {α : Type u} {M : Structure α} {e : Expr} (h : e.Elementary S.env) :
    e.Legible M S ∅ := by
  refine h.imp fun e he => ?_
  cases e with
  | quantified span q var type body =>
    obtain ⟨ty, hstands, helementary⟩ := he
    exact ⟨by simp, ty, hstands, fun s limits => Ty.values_eq_of_encoding? helementary⟩
  | call => exact he.elim
  | _ => exact he

/-!
## Principles
-/

/-- An elementary principle of an accepted program that reads no declared values is true exactly if
its formula is. This holds of every structure in which enums have their declared variants; the form
declares the same variants. Division by zero gives what the structure says, on both sides. -/
theorem formula_means_principle {p : Program} {options : CheckOptions} {cp : CheckedProgram}
    (hcheck : p.check options = .ok cp) (maxDepth : Nat) :
    ∀ q ∈ p.principles, q.body.Elementary cp.env → q.body.reads = [] →
      ∀ f, (LoweringContext.ofProgram cp maxDepth).lower q = .ok f →
        ∀ (α : Type u) (M : Structure α),
          (∀ n info, cp.env.enum? n = some info → M.variants n = info.variants) →
            (∀ n vs, .enum n vs ∈ f.vocabulary.sorts → M.variants n = vs) ∧
            ∀ ρ σ, M.Holds ρ f.formula ↔ (q.body.meaning M cp.env σ).IsTrue := by
  intro q _ helementary hreads f hf α M hM
  obtain ⟨-, henum⟩ := enum_name_of_check hcheck
  obtain ⟨d, hd, hvocabulary, -, hyields⟩ := exists_proper hf
  rw [hvocabulary] at hyields ⊢
  refine ⟨fun n vs hn => ?_, fun ρ σ => ?_⟩
  · rcases hd.sorts _ hn with ⟨m, info, hinfo, heq⟩ | ⟨m, args, -, heq⟩
    · cases heq
      rw [henum m info hinfo]
      exact hM m info hinfo
    · cases heq
  · have hmirrors : Mirrors M ∅ [] σ ρ := ⟨by simp, by simp⟩
    have hunread : Unbound (· ∈ (∅ : Set String)) [] q.body.reads := by simp [hreads, Unbound]
    have hconveys := hyields.conveys (M := M) helementary.legible hunread hd.ready (by simp)
      ⟨by simp, by simp⟩
    rw [Structure.Holds, hconveys.value σ ρ hmirrors]
    rfl

/-!
### A law on deadlines
-/

/-- On every day of 2020 after the first: if the offence is minor, some positive number of days is
less than two; if it is major, the year has begun before. -/
def deadline : Principle where
  span := {}
  name := "Deadline"
  body :=
    .quantified {} .all "d" (.validDate {} (some "2020-01-01") (some "2021-01-01")) <|
      .quantified {} .all "g" (.named {} "Grade" []) <|
        .select {} {} "g"
          [⟨{}, .variant {} "Grade" "minor", none,
              .quantified {} .some "d" (.positive {} (.prim {} .int))
                (.binary {} .lt "d" (.literal {} (.int 2)))⟩,
            ⟨{}, .binding "h",
              some (.binary {} .eq "h"
                (.variant {} "Grade" "major")),
              .binary {} .gt "d" (.literal {} (.date "2020-01-01"))⟩,
            ⟨{}, .wildcard {}, none, .literal {} (.bool false)⟩]

def deadlines : Program where
  name := "deadlines"
  items :=
    [.enum ⟨{}, "Grade", ["minor", "major"], false⟩, .principle deadline]

def deadlinesEnv : Env where
  defs := [⟨"Grade", {}, [], .enum ⟨"Grade", ["minor", "major"], false⟩⟩]

def deadlineForm : Form where
  principle := "Deadline"
  vocabulary := { sorts := [.enum "Grade" ["minor", "major"]] }
  assumptions := []
  formula := .quant .all "d" .int (.implies
    (.and [.cmp .le (.int 737426) (.var "d"), .cmp .le (.var "d") (.int 737790)])
    (.quant .all "g" (.enum "Grade") (.ite (.cmp .eq (.var "g") (.variant "Grade" "minor"))
      (.quant .some "d@2" .int (.and [.cmp .le (.int 1) (.var "d@2"),
        .cmp .lt (.var "d@2") (.int 2)]))
      (.ite (.cmp .eq (.var "g") (.variant "Grade" "major"))
        (.cmp .gt (.var "d") (.int 737425)) (.bool false)))))
  warnings := ["`exists d` shadows an outer binding of `d`"]

theorem elementary_deadline : deadline.body.Elementary deadlinesEnv := by
  have hdate : ∃ ty, Stands deadlinesEnv []
      (.validDate {} (some "2020-01-01") (some "2021-01-01")) ty ∧ ty.isElementary = true :=
    ⟨_, .validDate, rfl⟩
  have hgrade : ∃ ty, Stands deadlinesEnv [] (.named {} "Grade" []) ty ∧
      ty.isElementary = true :=
    ⟨.enum "Grade", .enum (by simp) rfl rfl rfl .nil rfl, rfl⟩
  have hpositive : ∃ ty, Stands deadlinesEnv [] (.positive {} (.prim {} .int)) ty ∧
      ty.isElementary = true :=
    ⟨_, .positive .prim, rfl⟩
  simp [deadline, Expr.Elementary, Expr.ElementaryHere, Pattern.isElementary,
    Literal.isElementary, hdate, hgrade, hpositive]

/-- The law on deadlines means what its form says. -/
theorem deadlineForm_means_deadline : ∃ ws,
    deadlines.check = .ok ⟨deadlines, deadlinesEnv, ws⟩ ∧
    deadline.body.Elementary deadlinesEnv ∧ deadline.body.reads = [] ∧
    (LoweringContext.ofProgram ⟨deadlines, deadlinesEnv, ws⟩).lower deadline = .ok deadlineForm ∧
    ∃ M : Structure Unit,
      (∀ n info, deadlinesEnv.enum? n = some info → M.variants n = info.variants) ∧
      ∀ ρ σ, M.Holds ρ deadlineForm.formula ↔
        (deadline.body.meaning M deadlinesEnv σ).IsTrue := by
  have hlower (ws : List Finding) :
      (LoweringContext.ofProgram ⟨deadlines, deadlinesEnv, ws⟩).lower deadline =
        .ok deadlineForm :=
    rfl
  obtain ⟨ws, hcheck⟩ : ∃ ws, deadlines.check = .ok ⟨deadlines, deadlinesEnv, ws⟩ :=
    ⟨_, check_eq_ok_of_errors rfl rfl⟩
  have hreads : deadline.body.reads = [] := by
    simp [deadline, Expr.reads, Expr.readsOfArms, Pattern.unbound]
  let M : Structure Unit :=
    ⟨fun n => ((deadlinesEnv.enum? n).map (·.variants)).getD [], fun _ => ∅, fun _ _ => default,
      fun _ => 0, fun _ => 0, fun _ => 0, fun _ => 0⟩
  have hM : ∀ n info, deadlinesEnv.enum? n = some info → M.variants n = info.variants := by
    intro n info hinfo
    simp [M, hinfo]
  refine ⟨ws, hcheck, elementary_deadline, hreads, hlower ws, M, hM, ?_⟩
  exact (formula_means_principle hcheck defaultMaxDepth deadline (mem_singleton_self _)
    elementary_deadline hreads deadlineForm (hlower ws) Unit M hM).2

end Statute
