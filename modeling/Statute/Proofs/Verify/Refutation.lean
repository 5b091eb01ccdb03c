import Statute.Proofs.Logic.Symbols
import Statute.Proofs.Logic.Vocabulary
import Statute.Verify.Refutation

/-!
# Refutation is faithful

The query that `refutation` makes of a form is satisfied in just those structures in which the
assumptions of the form hold and its formula does not; only the symbols that were lifted out of the
front of the formula get a value of their own. Besides, whatever limits are noted on a constant
follow from the assertions, so a search may keep within them: also those that were noted before a
guard turned out to say more than limits.

Main statements: `refuteGoal_iff` for one structure and valuation, `within_of_refuteGoal` for the
limits, and `refutation_faithful`, which puts them together.
-/

namespace Statute

open Logic List

universe u

variable {α : Type u} {M : Structure α} {x : String} {t : Term} {c c' : ConstDecl} {v : Vocabulary}
  {ts : List Term}

theorem eq_var_of_isSymbol {x t} (h : isSymbol x t) : t = .var x := by
  cases t with
  | var y =>
    simp only [isSymbol, beq_iff_eq] at h
    rw [h]
  | _ => simp [isSymbol] at h

variable {ρ : Valuation α}

/-- A limit that is noted because of a comparison follows from the comparison. -/
theorem within_of_limitOn? {a b : Term} (h : limitOn? x c a b = some c')
    (hab : (M.value ρ a).AtMost (M.value ρ b)) (hc : c.Within (ρ x)) : c'.Within (ρ x) := by
  unfold limitOn? at h
  split at h
  next hb =>
    rw [eq_var_of_isSymbol hb] at hab
    split at h
    next n =>
      cases h
      refine ⟨?_, hc.2⟩
      intro m hm
      cases hm
      exact hab
    · cases h
  · split at h
    next ha =>
      rw [eq_var_of_isSymbol ha] at hab
      split at h
      next n =>
        cases h
        refine ⟨hc.1, ?_⟩
        intro m hm
        cases hm
        exact hab
      · cases h
    · cases h

/-- What each comparison of a guard preserves, the whole guard preserves: `Q` is what is known of
the guard and of its parts, and `P` is the property of the constant on which limits are noted. -/
theorem noteLimits_preserves {P : ConstDecl → Prop} {Q : Term → Prop}
    (part : ∀ ts, Q (.and ts) → ∀ t ∈ ts, Q t)
    (step : ∀ a b c c', Q (.cmp .le a b) → limitOn? x c a b = some c' → P c → P c') (ht : Q t)
    (hc : P c) : P (noteLimits x c t).2 := by
  induction t generalizing c with
  | cmp op a b =>
    cases op with
    | le =>
      rw [noteLimits]
      split
      next c' hl => exact step a b c c' ht hl hc
      · exact hc
    | eq | distinct | lt | gt | ge => exact hc
  | and ts ih =>
    cases ts with
    | nil => exact hc
    | cons t ts =>
      rw [noteLimits]
      have hall := part _ ht
      clear ht
      -- the parts are met one after the other, each with the limits noted so far
      generalize t :: ts = parts at ih hall ⊢
      induction parts generalizing c with
      | nil => exact hc
      | cons p parts ihp =>
        have hp := ih p mem_cons_self (hall p mem_cons_self) hc
        rw [noteAllLimits]
        split
        next c' hn =>
          rw [hn] at hp
          exact ihp hp (fun u hu => ih u (mem_cons_of_mem _ hu))
            (fun u hu => hall u (mem_cons_of_mem _ hu))
        · grind
  | int | real | bool | str | var | variant | not | or | implies | arith | neg | toReal | ite
  | apply | quant => exact hc

/-- All limits that are noted on the way through a guard follow from the guard, whether or not the
guard turns out to state nothing but limits. -/
theorem within_of_noteLimits {only : Bool} (h : noteLimits x c t = (only, c')) (ht : M.Holds ρ t)
    (hc : c.Within (ρ x)) : c'.Within (ρ x) := by
  have hall : (noteLimits x c t).2.Within (ρ x) :=
    noteLimits_preserves (P := fun c => c.Within (ρ x)) (fun _ h => Structure.holds_and.mp h)
      (fun _ _ _ _ hab hl hc => within_of_limitOn? hl (Structure.holds_cmp.mp hab) hc) ht hc
  rw [h] at hall
  exact hall

/-- Noting limits leaves the symbol and the sort of a constant as they are. -/
theorem symbol_sort_of_noteLimits {only : Bool} (h : noteLimits x c t = (only, c')) :
    c'.symbol = c.symbol ∧ c'.sort = c.sort := by
  have hall : (noteLimits x c t).2.symbol = c.symbol ∧ (noteLimits x c t).2.sort = c.sort := by
    refine noteLimits_preserves (P := fun d => d.symbol = c.symbol ∧ d.sort = c.sort)
      (Q := fun _ => True) (fun _ _ _ _ => trivial) ?_ trivial ⟨rfl, rfl⟩
    intro a b d d' _ hl hd
    unfold limitOn? at hl
    split at hl <;> split at hl
    · cases hl; exact hd
    · cases hl
    · split at hl
      · cases hl; exact hd
      · cases hl
    · cases hl
  rw [h] at hall
  exact hall

theorem free_of_limitOn? {y : String} {a b : Term} (h : limitOn? x c a b = some c')
    (hy : y ∈ a.free ++ b.free) : y = x := by
  unfold limitOn? at h
  split at h
  next hb =>
    rw [eq_var_of_isSymbol hb] at hy
    split at h
    · simpa [Term.free] using hy
    · cases h
  · split at h
    next ha =>
      rw [eq_var_of_isSymbol ha] at hy
      split at h
      · simpa [Term.free] using hy
      · cases h
    · cases h

/-- A guard that states nothing but limits on a symbol mentions no other. -/
theorem free_of_noteLimits (h : (noteLimits x c t).1) : ∀ y ∈ t.free, y = x := by
  induction t generalizing c with
  | cmp op a b =>
    cases op with
    | le =>
      rw [noteLimits] at h
      split at h
      next c' hl => exact fun y hy => free_of_limitOn? hl hy
      · cases h
    | eq | distinct | lt | gt | ge => cases h
  | and ts ih =>
    cases ts with
    | nil => cases h
    | cons t ts =>
      rw [noteLimits] at h
      intro y hy
      obtain ⟨u, hu, hyu⟩ := Term.mem_freeIn.mp hy
      clear hy
      generalize t :: ts = parts at ih h hu
      induction parts generalizing c with
      | nil => cases hu
      | cons p parts ihp =>
        rw [noteAllLimits] at h
        split at h
        · grind
        · cases h
  | int | real | bool | str | var | variant | not | or | implies | arith | neg | toReal | ite
  | apply | quant => cases h

/-- The constant that stands for a quantified symbol before limits are noted on it. -/
abbrev liftedConstant (x : String) (s : SmtSort) : ConstDecl := ⟨x, sourceName x, s, none, none⟩

/-- The symbols of the quantifiers in front of a formula that become constants of its query. -/
def liftedSymbols : Term → List String
  | .quant .all x s (.implies guard inner) =>
    if (noteLimits x (liftedConstant x s) guard).1 then x :: liftedSymbols inner else [x]
  | .quant .all x _ body => x :: liftedSymbols body
  | _ => []

/-- The interpretation satisfies the assumptions of a form and makes its formula false. -/
structure Logic.Form.RefutedBy (f : Form) (M : Structure α) (ρ : Valuation α) : Prop where
  interprets : M.Interprets f.vocabulary
  fits : ρ.Fits M f.vocabulary
  assumed : ∀ t ∈ f.assumptions, M.Holds ρ t
  fails : ¬M.Holds ρ f.formula

theorem refuteGoal_sorts_functions (v : Vocabulary) (ts : List Term) (t : Term) :
    (refuteGoal v ts t).vocabulary.sorts = v.sorts ∧
      (refuteGoal v ts t).vocabulary.functions = v.functions := by
  fun_induction refuteGoal v ts t with
  | case1 v ts x s guard inner c hn ih => simpa using ih
  | case2 v ts x s guard inner c hn => simp
  | case3 v ts x s body hb ih => simpa using ih
  | case4 v ts goal => exact ⟨rfl, rfl⟩

/-- A structure serves for the query just if it serves for the vocabulary it was made from. -/
theorem interprets_refuteGoal : M.Interprets (refuteGoal v ts t).vocabulary ↔ M.Interprets v := by
  obtain ⟨hs, hf⟩ := refuteGoal_sorts_functions v ts t
  constructor
  · rintro ⟨he, hn, hr⟩
    rw [hs] at he hn
    rw [hf] at hr
    exact ⟨he, hn, hr⟩
  · rintro ⟨he, hn, hr⟩
    refine ⟨?_, ?_, ?_⟩
    · rwa [hs]
    · rwa [hs]
    · rwa [hf]

theorem mem_refuteGoal :
    (∀ c ∈ v.constants, c ∈ (refuteGoal v ts t).vocabulary.constants) ∧
      ∀ u ∈ ts, u ∈ (refuteGoal v ts t).assertions := by
  fun_induction refuteGoal v ts t with
  | case1 v ts x s guard inner c hn ih => grind [Vocabulary.subset_addConstant]
  | case2 v ts x s guard inner c hn =>
    exact ⟨fun _ hd => Vocabulary.subset_addConstant hd, fun u hu => mem_append_left _ hu⟩
  | case3 v ts x s body hb ih =>
    exact ⟨fun d hd => ih.1 d (Vocabulary.subset_addConstant hd), ih.2⟩
  | case4 v ts goal => exact ⟨fun c hc => hc, fun u hu => mem_append_left _ hu⟩

/-- The query can be satisfied by changing the values of the given symbols only. -/
def Logic.Query.SatisfiedUpTo (q : Query) (symbols : List String) (M : Structure α)
    (ρ : Valuation α) : Prop :=
  ∃ ρ' : Valuation α, (∀ y, y ∉ symbols → ρ' y = ρ y) ∧ ρ'.Fits M q.vocabulary ∧
    ∀ t ∈ q.assertions, M.Holds ρ' t

variable {q : Query}

theorem satisfiedUpTo_nil :
    q.SatisfiedUpTo [] M ρ ↔ ρ.Fits M q.vocabulary ∧ ∀ t ∈ q.assertions, M.Holds ρ t := by
  constructor
  · rintro ⟨ρ', hρ, h⟩
    obtain rfl : ρ' = ρ := funext fun y => hρ y not_mem_nil
    exact h
  · intro h
    exact ⟨ρ, fun _ _ => rfl, h⟩

/-- Leaving one symbol more open is choosing a value for it. -/
theorem satisfiedUpTo_cons {symbols : List String} (hc : c ∈ q.vocabulary.constants) :
    q.SatisfiedUpTo (c.symbol :: symbols) M ρ ↔
      ∃ d ∈ M.carrier c.sort,
        q.SatisfiedUpTo symbols M (Function.update ρ c.symbol d) := by
  constructor
  · rintro ⟨ρ', hρ, hfits, hts⟩
    refine ⟨ρ' c.symbol, hfits c hc, ρ', ?_, hfits, hts⟩
    intro y hy
    by_cases hyc : y = c.symbol
    · rw [hyc, Function.update_self]
    · grind
  · rintro ⟨d, hd, ρ', hρ, h⟩
    refine ⟨ρ', ?_, h⟩
    intro y hy
    rw [hρ y (not_mem_of_not_mem_cons hy),
      Function.update_of_ne (ne_of_not_mem_cons hy)]

/-- A valuation of a new constant. -/
theorem fits_addConstant {d : Datum α} (hc : ∀ e ∈ v.constants, e.symbol ≠ c.symbol)
    (hρ : ρ.Fits M v) (hd : d ∈ M.carrier c.sort) :
    Valuation.Fits (Function.update ρ c.symbol d) M (v.addConstant c) := by
  intro e he
  rw [Vocabulary.constants_addConstant hc] at he
  rcases mem_append.mp he with he | he
  · rw [Function.update_of_ne (hc e he)]
    exact hρ e he
  · grind

/-- Terms that do not mention a symbol hold whatever its value. -/
theorem holds_update {d : Datum α} (hx : ∀ t ∈ ts, x ∉ t.free) :
    (∀ t ∈ ts, M.Holds (Function.update ρ x d) t) ↔ ∀ t ∈ ts, M.Holds ρ t := by
  refine forall₂_congr fun t ht => M.holds_congr fun y hy => ?_
  have hyx : y ≠ x := by
    rintro rfl
    exact hx t ht hy
  rw [Function.update_of_ne hyx]

/-- The symbols are new: they differ from each other and from all constants, and the terms do not
mention them. -/
structure Fresh (symbols : List String) (v : Vocabulary) (ts : List Term) : Prop where
  nodup : symbols.Nodup
  constants : ∀ c ∈ v.constants, c.symbol ∉ symbols
  terms : ∀ t ∈ ts, ∀ y ∈ t.free, y ∉ symbols

namespace Fresh

variable {c : ConstDecl} {symbols : List String} {v : Vocabulary} {ts : List Term}

section

variable (h : Fresh (c.symbol :: symbols) v ts)

include h

theorem head_constants : ∀ e ∈ v.constants, e.symbol ≠ c.symbol :=
  fun e he => ne_of_not_mem_cons (h.constants e he)

theorem head_terms : ∀ t ∈ ts, c.symbol ∉ t.free :=
  fun t ht hc => h.terms t ht c.symbol hc mem_cons_self

/-- The symbols stay new when the first of them becomes a constant. -/
theorem tail : Fresh symbols (v.addConstant c) ts := by
  refine ⟨(nodup_cons.mp h.nodup).2, ?_, ?_⟩
  · intro e he
    rcases Vocabulary.mem_addConstant he with he | rfl
    · exact not_mem_of_not_mem_cons (h.constants e he)
    · exact (nodup_cons.mp h.nodup).1
  · grind [Fresh.terms]

/-- So they do when terms are added that mention no symbol but the first. -/
theorem tail_append (ht : ∀ y ∈ t.free, y = c.symbol) :
    Fresh symbols (v.addConstant c) (ts ++ [t]) := by
  refine ⟨h.tail.nodup, h.tail.constants, ?_⟩
  intro u hu y hy
  rcases mem_append.mp hu with hu | hu
  · exact h.tail.terms u hu y hy
  rw [mem_singleton.mp hu] at hy
  rw [ht y hy]
  exact (nodup_cons.mp h.nodup).1

end

end Fresh

/-- One quantifier is lifted: a query that refutes the body for each value of the symbol refutes the
quantified statement. -/
theorem satisfiedUpTo_lift {symbols body} (hc : c ∈ q.vocabulary.constants)
    (hts : ∀ t ∈ ts, c.symbol ∉ t.free) (hbody : ∀ d ∈ M.carrier c.sort, q.SatisfiedUpTo symbols M
      (Function.update ρ c.symbol d) ↔ (∀ u ∈ ts, M.Holds (Function.update ρ c.symbol d) u) ∧
      ¬M.Holds (Function.update ρ c.symbol d) body) :
    q.SatisfiedUpTo (c.symbol :: symbols) M ρ ↔
      (∀ u ∈ ts, M.Holds ρ u) ∧ ¬M.Holds ρ (.quant .all c.symbol c.sort body) := by
  rw [satisfiedUpTo_cons hc]
  constructor
  · rintro ⟨d, hd, hsat⟩
    obtain ⟨hu, hfail⟩ := (hbody d hd).mp hsat
    refine ⟨(holds_update hts).mp hu, ?_⟩
    intro hall
    exact hfail (Structure.holds_quant.mp hall d hd)
  · rintro ⟨hu, hfail⟩
    rw [Structure.holds_quant, Ranges] at hfail
    push Not at hfail
    obtain ⟨d, hd, hfail⟩ := hfail
    exact ⟨d, hd, (hbody d hd).mpr ⟨(holds_update hts).mpr hu, hfail⟩⟩

/-- The constant of a new symbol is in every query that starts from a vocabulary with it. -/
theorem mem_refuteGoal_addConstant (hc : ∀ e ∈ v.constants, e.symbol ≠ c.symbol) :
    c ∈ (refuteGoal (v.addConstant c) ts t).vocabulary.constants := by
  refine mem_refuteGoal.1 c ?_
  rw [Vocabulary.constants_addConstant hc]
  exact mem_append_right _ (mem_singleton_self c)

/-- The query for a goal is satisfied, up to the values of the lifted symbols, just where the goal
fails under the assertions made so far. -/
theorem refuteGoal_iff (hfresh : Fresh (liftedSymbols t) v ts) (hρ : ρ.Fits M v) :
    (refuteGoal v ts t).SatisfiedUpTo (liftedSymbols t) M ρ ↔
      (∀ u ∈ ts, M.Holds ρ u) ∧ ¬M.Holds ρ t := by
  fun_induction refuteGoal v ts t generalizing ρ with
  | case1 v ts x s guard inner c hn ih =>
    rw [liftedSymbols, if_pos (congrArg Prod.fst hn)] at hfresh ⊢
    have hguard : ∀ y ∈ guard.free, y = x := free_of_noteLimits (congrArg Prod.fst hn)
    obtain ⟨rfl, rfl⟩ : c.symbol = x ∧ c.sort = s := symbol_sort_of_noteLimits hn
    have hnew := hfresh.head_constants
    refine satisfiedUpTo_lift (mem_refuteGoal_addConstant hnew) hfresh.head_terms ?_
    intro d hd
    rw [ih (hfresh.tail_append hguard) (fits_addConstant hnew hρ hd), Structure.holds_implies]
    simp only [forall_mem_append, forall_mem_singleton]
    tauto
  | case2 v ts x s guard inner c hn =>
    have hrejected : ¬(noteLimits x (liftedConstant x s) guard).1 = true := by simp [hn]
    rw [liftedSymbols, if_neg hrejected] at hfresh ⊢
    obtain ⟨rfl, rfl⟩ : c.symbol = x ∧ c.sort = s := symbol_sort_of_noteLimits hn
    have hnew := hfresh.head_constants
    refine satisfiedUpTo_lift ?_ hfresh.head_terms ?_
    · grind [Vocabulary.constants_addConstant]
    intro d hd
    rw [satisfiedUpTo_nil, and_iff_right (fits_addConstant hnew hρ hd)]
    simp only [forall_mem_append, forall_mem_singleton, Structure.holds_not]
  | case3 v ts x s body hb ih =>
    rw [liftedSymbols.eq_2 _ _ _ hb] at hfresh ⊢
    have hnew := hfresh.head_constants (c := liftedConstant x s)
    refine satisfiedUpTo_lift (c := liftedConstant x s) (mem_refuteGoal_addConstant hnew)
      hfresh.head_terms ?_
    intro d hd
    exact ih (hfresh.tail (c := liftedConstant x s)) (fits_addConstant hnew hρ hd)
  | case4 v ts goal hg hg' =>
    rw [liftedSymbols.eq_3 _ hg hg', satisfiedUpTo_nil, and_iff_right hρ]
    simp only [forall_mem_append, forall_mem_singleton, Structure.holds_not]

/-- The limits on a lifted constant hold where its guard does. -/
theorem within_addConstant (hv : ∀ e ∈ v.constants, e.Within (ρ e.symbol))
    (hc : c.Within (ρ c.symbol)) : ∀ e ∈ (v.addConstant c).constants, e.Within (ρ e.symbol) := by
  intro e he
  rcases Vocabulary.mem_addConstant he with he | rfl
  · exact hv e he
  · exact hc

/-- All limits noted in the query for a goal follow from its assertions, if those in the vocabulary
it started from follow from the assertions made so far. -/
theorem within_of_refuteGoal
    (hv : (∀ u ∈ ts, M.Holds ρ u) → ∀ c ∈ v.constants, c.Within (ρ c.symbol))
    (hts : ∀ u ∈ (refuteGoal v ts t).assertions, M.Holds ρ u) :
    ∀ c ∈ (refuteGoal v ts t).vocabulary.constants, c.Within (ρ c.symbol) := by
  have hfree (x name : String) (s : SmtSort) (d : Datum α) :
      (ConstDecl.mk x name s none none).Within d :=
    ⟨(fun _ h => nomatch h), (fun _ h => nomatch h)⟩
  fun_induction refuteGoal v ts t with
  | case1 v ts x s guard inner c hn ih =>
    refine ih ?_ hts
    intro hu
    rw [forall_mem_append, forall_mem_singleton] at hu
    obtain ⟨rfl, -⟩ : c.symbol = x ∧ c.sort = s := symbol_sort_of_noteLimits hn
    exact within_addConstant (hv hu.1) (within_of_noteLimits hn hu.2 (hfree _ _ _ _))
  | case2 v ts x s guard inner c hn =>
    rw [forall_mem_append, forall_mem_singleton] at hts
    -- the guard was rejected, but it still holds where the implication fails
    have hguard : M.Holds ρ guard := by
      grind [Logic.Structure.holds_not, Logic.Structure.holds_implies]
    obtain ⟨rfl, -⟩ : c.symbol = x ∧ c.sort = s := symbol_sort_of_noteLimits hn
    exact within_addConstant (hv hts.1) (within_of_noteLimits hn hguard (hfree _ _ _ _))
  | case3 v ts x s body hb ih =>
    exact ih (fun hu => within_addConstant (hv hu) (hfree _ _ _ _)) hts
  | case4 v ts goal =>
    rw [forall_mem_append] at hts
    exact hv hts.1

/-- The limits noted on the constants of a form follow from its assumptions. -/
def Logic.Form.LimitsFollow (f : Form) : Prop :=
  ∀ (α : Type u) (M : Structure α) (ρ : Valuation α), M.Interprets f.vocabulary →
    ρ.Fits M f.vocabulary → (∀ t ∈ f.assumptions, M.Holds ρ t) →
      ∀ c ∈ f.vocabulary.constants, c.Within (ρ c.symbol)

variable {f : Form}

theorem refutedBy_iff (hfresh : Fresh (liftedSymbols f.formula) f.vocabulary f.assumptions)
    (hM : M.Interprets f.vocabulary) (hρ : ρ.Fits M f.vocabulary) :
    f.RefutedBy M ρ ↔
      ∃ ρ' : Valuation α, (∀ x, x ∉ liftedSymbols f.formula → ρ' x = ρ x) ∧
        (refutation f).SatisfiedBy M ρ' := by
  have hiff := refuteGoal_iff hfresh hρ
  constructor
  · rintro ⟨-, -, hts, hfail⟩
    obtain ⟨ρ', hoff, hfits, hq⟩ := hiff.mpr ⟨hts, hfail⟩
    exact ⟨ρ', hoff, interprets_refuteGoal.mpr hM, hfits, hq⟩
  rintro ⟨ρ', hoff, -, hfits, hq⟩
  obtain ⟨hts, hfail⟩ := hiff.mp ⟨ρ', hoff, hfits, hq⟩
  exact ⟨hM, hρ, hts, hfail⟩

theorem fits_of_refutation (h : ρ.Fits M (refutation f).vocabulary) : ρ.Fits M f.vocabulary :=
  fun c hc => h c (mem_refuteGoal.1 c hc)

/-- The query that refutes a form is faithful to it. It can be satisfied just if some interpretation
satisfies the assumptions of the form and makes its formula false; such an interpretation and one
that satisfies the query differ in the values of the lifted symbols only. And whatever satisfies the
query gives every constant a value within the limits that are noted on it. -/
theorem refutation_faithful (f : Form)
    (hfresh : Fresh (liftedSymbols f.formula) f.vocabulary f.assumptions)
    (hlimits : Form.LimitsFollow.{u} f) :
    ((∃ (α : Type u) (M : Structure α) (ρ : Valuation α), (refutation f).SatisfiedBy M ρ) ↔
      ∃ (α : Type u) (M : Structure α) (ρ : Valuation α), f.RefutedBy M ρ) ∧
    (∀ (α : Type u) (M : Structure α) (ρ : Valuation α), M.Interprets f.vocabulary →
      ρ.Fits M f.vocabulary →
        (f.RefutedBy M ρ ↔
          ∃ ρ' : Valuation α, (∀ x, x ∉ liftedSymbols f.formula → ρ' x = ρ x) ∧
            (refutation f).SatisfiedBy M ρ')) ∧
    ∀ (α : Type u) (M : Structure α) (ρ : Valuation α), (refutation f).SatisfiedBy M ρ →
      ∀ c ∈ (refutation f).vocabulary.constants, c.Within (ρ c.symbol) := by
  refine ⟨⟨?_, ?_⟩, ?_, ?_⟩
  · rintro ⟨α, M, ρ, hq⟩
    have hM := interprets_refuteGoal.mp hq.interprets
    exact ⟨α, M, ρ, (refutedBy_iff hfresh hM (fits_of_refutation hq.fits)).mpr
      ⟨ρ, fun _ _ => rfl, hq⟩⟩
  · rintro ⟨α, M, ρ, hf⟩
    obtain ⟨ρ', -, hq⟩ := (refutedBy_iff hfresh hf.interprets hf.fits).mp hf
    exact ⟨α, M, ρ', hq⟩
  · intro α M ρ hM hρ
    exact refutedBy_iff hfresh hM hρ
  · intro α M ρ hq
    have hM := interprets_refuteGoal.mp hq.interprets
    exact within_of_refuteGoal (hlimits α M ρ hM (fits_of_refutation hq.fits)) hq.holds

/-- Whoever is of age is older than the limit: a form with an assumed limit, a quantifier whose
guard states limits, and one whose guard says more than that. -/
def ageForm : Form where
  principle := "age"
  vocabulary := { constants := [⟨"limit", "limit", .int, some 18, none⟩] }
  assumptions := [.cmp .le (.int 18) (.var "limit")]
  formula :=
    .quant .all "age" .int (.implies
      (.and [.cmp .le (.int 0) (.var "age"), .cmp .le (.var "age") (.int 150)])
      (.quant .all "year" .int (.implies
        (.and [.cmp .le (.int 1900) (.var "year"), .cmp .eq (.var "age") (.int 21)])
        (.cmp .lt (.var "limit") (.var "age")))))

/-- The query of `ageForm` can be satisfied, and only by years that are not before 1900. -/
theorem ageForm_refuted :
    Fresh (liftedSymbols ageForm.formula) ageForm.vocabulary ageForm.assumptions ∧
      Form.LimitsFollow.{0} ageForm ∧
      (∃ (α : Type) (M : Structure α) (ρ : Valuation α), (refutation ageForm).SatisfiedBy M ρ) ∧
      ∀ (α : Type) (M : Structure α) (ρ : Valuation α), (refutation ageForm).SatisfiedBy M ρ →
        (Datum.int 1900).AtMost (ρ "year") := by
  have hfresh : Fresh (liftedSymbols ageForm.formula) ageForm.vocabulary ageForm.assumptions :=
    ⟨by decide, by decide, by decide⟩
  have hlimits : Form.LimitsFollow.{0} ageForm := by
    intro α M ρ _ _ hts c hc
    obtain rfl := mem_singleton.mp hc
    refine ⟨?_, (fun _ h => nomatch h)⟩
    intro n hn
    cases hn
    exact Structure.holds_cmp.mp (hts _ (mem_singleton_self _))
  obtain ⟨hsat, -, hwithin⟩ := refutation_faithful ageForm hfresh hlimits
  refine ⟨hfresh, hlimits, hsat.mpr ?_, ?_⟩
  · refine ⟨Unit, ⟨fun _ => [], fun _ => ∅, fun _ _ => default, fun _ => 0, id, id, id⟩,
      fun _ => .int 30, ⟨by simp [ageForm], by simp [ageForm], by simp [ageForm]⟩, ?_, ?_, ?_⟩
    · intro c hc
      obtain rfl := mem_singleton.mp hc
      exact ⟨30, rfl⟩
    · intro t ht
      obtain rfl := mem_singleton.mp ht
      simp [Comparison.Holds, Structure.value]
    · intro h
      have h21 := Structure.holds_quant.mp h (.int 21) ⟨21, rfl⟩
      have hyear := Structure.holds_implies.mp h21 (by simp [Comparison.Holds, Structure.value])
      have hlimit := Structure.holds_quant.mp hyear (.int 2000) ⟨2000, rfl⟩
      simp [Comparison.Holds, Structure.value, Function.update] at hlimit
  · intro α M ρ hq
    exact (hwithin α M ρ hq ⟨"year", "year", .int, some 1900, none⟩ (by decide)).1 1900 rfl

end Statute
