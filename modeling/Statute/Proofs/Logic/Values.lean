import Statute.Proofs.Logic.Sorting

/-!
# Values of well-sorted terms

A term that has a sort has a value of that sort, `Structure.value_mem_carrier`, in every structure
for its vocabulary and for all values of its variables that are of their sorts.

Some conditions on a term speak about the values that come up in it. `M.Throughout P ρ t` says that
`P` holds of the term and of all terms inside it, whatever values of their sorts the quantifiers in
between give to their variables.
-/

namespace Statute.Logic

universe u

variable {sorts : List (String × SmtSort)}

/-- The variants of a declared enum come from its declaration. -/
theorem Vocabulary.mem_of_variants? {v : Vocabulary} {n vs} (h : v.variants? n = some vs) :
    .enum n vs ∈ v.sorts := by
  obtain ⟨d, hd, hfound⟩ := List.exists_of_findSome?_eq_some h
  cases d with
  | free m => cases hfound
  | enum m ws =>
    dsimp only at hfound
    split at hfound
    next hm =>
      cases hfound
      rwa [← eq_of_beq hm]
    · cases hfound

/-- If terms that have a sort stand in a relation to it, then terms of given sorts do so one by
one. -/
theorem Term.forall₂_of_areSorts {R : Term → SmtSort → Prop} {v ts} {ss : List SmtSort}
    (h : areSorts v sorts ts ss) (hR : ∀ t ∈ ts, ∀ s, t.sort? v sorts = some s → R t s) :
    List.Forall₂ R ts ss := by
  induction ts generalizing ss with
  | nil =>
    cases ss with
    | nil => exact .nil
    | cons s ss => simp [areSorts] at h
  | cons t ts ih =>
    cases ss with
    | nil => simp [areSorts] at h
    | cons s ss =>
      rw [areSorts, Bool.and_eq_true, decide_eq_true_eq] at h
      rw [List.forall_mem_cons] at hR
      exact .cons (hR.1 s h.1) (ih h.2 hR.2)

namespace Structure

variable {α : Type u} {M : Structure α} {v : Vocabulary} {ρ : Valuation α} {s : SmtSort}

/-- Variables and constants have values of their sorts; `sorts` are those of the variables that are
bound, the innermost first. -/
def Sorted (M : Structure α) (v : Vocabulary) (sorts : List (String × SmtSort))
    (ρ : Valuation α) : Prop :=
  ∀ x s, (Term.var x).sort? v sorts = some s → ρ x ∈ M.carrier s

theorem sorted_of_fits (h : ρ.Fits M v) : M.Sorted v [] ρ := by
  intro x s hx
  rw [Term.sort?, List.lookup_nil, Option.none_or, Option.map_eq_some_iff] at hx
  obtain ⟨c, hc, rfl⟩ := hx
  have hsymbol : c.symbol = x := by simpa using List.find?_some hc
  exact hsymbol ▸ h c (List.mem_of_find?_eq_some hc)

theorem Sorted.update (h : M.Sorted v sorts ρ) {x d} (hd : d ∈ M.carrier s) :
    M.Sorted v ((x, s) :: sorts) (Function.update ρ x d) := by
  intro y r hy
  rw [Term.sort?, List.lookup_cons] at hy
  by_cases hyx : y = x
  · grind
  rw [beq_false_of_ne hyx] at hy
  rw [Function.update_of_ne hyx]
  exact h y r hy

theorem arith_mem_carrier (op : Arithmetic) (hs : s.isNumeric) {a b : Datum α}
    (ha : a ∈ M.carrier s) (hb : b ∈ M.carrier s) : M.arith op a b ∈ M.carrier s := by
  cases s with
  | int =>
    obtain ⟨m, rfl⟩ := ha
    obtain ⟨n, rfl⟩ := hb
    exact ⟨_, rfl⟩
  | real =>
    obtain ⟨x, rfl⟩ := ha
    obtain ⟨y, rfl⟩ := hb
    exact ⟨_, rfl⟩
  | bool | string | enum | free => cases hs

theorem negate_mem_carrier (hs : s.isNumeric) {a : Datum α} (ha : a ∈ M.carrier s) :
    negate a ∈ M.carrier s := by
  cases s with
  | int =>
    obtain ⟨m, rfl⟩ := ha
    exact ⟨_, rfl⟩
  | real =>
    obtain ⟨x, rfl⟩ := ha
    exact ⟨_, rfl⟩
  | bool | string | enum | free => cases hs

/-- A term that has a sort has a value of the sort. -/
theorem value_mem_carrier (hM : M.Interprets v) {t : Term} (h : t.sort? v sorts = some s)
    (hρ : M.Sorted v sorts ρ) : M.value ρ t ∈ M.carrier s := by
  induction t generalizing sorts s ρ with
  | int | real | bool | str =>
    cases h
    exact ⟨_, rfl⟩
  | var x => exact hρ x s h
  | variant n w =>
    rw [Term.sort?] at h
    split at h
    next vs hvs =>
      obtain ⟨hw, hs⟩ := Option.ite_none_right_eq_some.mp h
      cases hs
      exact ⟨w, (hM.variants_eq n vs (Vocabulary.mem_of_variants? hvs)) ▸ hw, rfl⟩
    · cases h
  | not | and | or | implies =>
    simp only [Term.sort?, Option.ite_none_right_eq_some] at h
    cases h.2
    exact ⟨_, rfl⟩
  | cmp op a b =>
    rw [Term.sort?] at h
    split at h
    · cases (Option.ite_none_right_eq_some.mp h).2
      exact ⟨_, rfl⟩
    · cases h
  | arith op r a b iha ihb =>
    simp only [Term.sort?, Option.ite_none_right_eq_some] at h
    obtain ⟨⟨ha, hb, hr, -⟩, hs⟩ := h
    cases hs
    exact arith_mem_carrier op hr (iha ha hρ) (ihb hb hρ)
  | neg t ih =>
    rw [Term.sort?] at h
    split at h
    next r ht =>
      obtain ⟨hr, hs⟩ := Option.ite_none_right_eq_some.mp h
      cases hs
      exact negate_mem_carrier hr (ih ht hρ)
    · cases h
  | toReal t ih =>
    simp only [Term.sort?, Option.ite_none_right_eq_some] at h
    obtain ⟨ht, hs⟩ := h
    cases hs
    obtain ⟨n, hn⟩ := ih ht hρ
    rw [value, ← hn]
    exact ⟨_, rfl⟩
  | ite c a b ihc iha ihb =>
    simp only [Term.sort?, Option.ite_none_right_eq_some] at h
    rw [value]
    split
    · exact iha h.2 hρ
    · exact ihb (h.1.2 ▸ h.2) hρ
  | apply f args ih =>
    rw [Term.sort?] at h
    split at h
    next d hd =>
      obtain ⟨hargs, hs⟩ := Option.ite_none_right_eq_some.mp h
      cases hs
      have hname : d.name = f := by simpa using List.find?_some hd
      have hfit : M.Fit (args.map (M.value ρ)) d.params := by
        refine List.forall₂_map_left_iff.mpr ?_
        exact Term.forall₂_of_areSorts hargs fun t ht s hts => ih t ht hts hρ
      rw [value, values_eq_map, ← hname]
      exact hM.result_mem d (List.mem_of_find?_eq_some hd) _ hfit
    · cases h
  | quant q x r body ih =>
    simp only [Term.sort?, Option.ite_none_right_eq_some] at h
    cases h.2
    exact ⟨_, rfl⟩

/-!
## Conditions on values
-/

mutual

/-- The property holds of the term and of all terms inside it, for all values of their sorts that
quantified variables may take. -/
def Throughout (M : Structure α) (P : Valuation α → Term → Prop) (ρ : Valuation α) : Term → Prop
  | .not t => P ρ (.not t) ∧ Throughout M P ρ t
  | .and ts => P ρ (.and ts) ∧ ThroughoutAll M P ρ ts
  | .or ts => P ρ (.or ts) ∧ ThroughoutAll M P ρ ts
  | .implies a b => P ρ (.implies a b) ∧ Throughout M P ρ a ∧ Throughout M P ρ b
  | .cmp op a b => P ρ (.cmp op a b) ∧ Throughout M P ρ a ∧ Throughout M P ρ b
  | .arith op s a b => P ρ (.arith op s a b) ∧ Throughout M P ρ a ∧ Throughout M P ρ b
  | .neg t => P ρ (.neg t) ∧ Throughout M P ρ t
  | .toReal t => P ρ (.toReal t) ∧ Throughout M P ρ t
  | .ite c a b =>
    P ρ (.ite c a b) ∧ Throughout M P ρ c ∧ Throughout M P ρ a ∧ Throughout M P ρ b
  | .apply f args => P ρ (.apply f args) ∧ ThroughoutAll M P ρ args
  | .quant q x s body =>
    P ρ (.quant q x s body) ∧
      ∀ d ∈ M.carrier s, Throughout M P (Function.update ρ x d) body
  | .int n => P ρ (.int n)
  | .real x => P ρ (.real x)
  | .bool b => P ρ (.bool b)
  | .str s => P ρ (.str s)
  | .var x => P ρ (.var x)
  | .variant s w => P ρ (.variant s w)

/-- The property holds throughout several terms. -/
def ThroughoutAll (M : Structure α) (P : Valuation α → Term → Prop) (ρ : Valuation α) :
    List Term → Prop
  | [] => True
  | t :: ts => Throughout M P ρ t ∧ ThroughoutAll M P ρ ts

end

@[simp] theorem throughoutAll_iff {P : Valuation α → Term → Prop} {ts : List Term} :
    M.ThroughoutAll P ρ ts ↔ ∀ t ∈ ts, M.Throughout P ρ t := by
  induction ts with
  | nil => simp [ThroughoutAll]
  | cons t ts ih => simp [ThroughoutAll, ih]

/-- What holds of a term wherever two properties do, holds throughout if they do. -/
theorem Throughout.imp₂ {P P' Q : Valuation α → Term → Prop}
    (hQ : ∀ ρ t, P ρ t → P' ρ t → Q ρ t) {t : Term} (h : M.Throughout P ρ t)
    (h' : M.Throughout P' ρ t) : M.Throughout Q ρ t := by
  induction t generalizing ρ with
  | int | real | bool | str | var | variant => exact hQ _ _ h h'
  | not t ih | neg t ih | toReal t ih => exact ⟨hQ _ _ h.1 h'.1, ih h.2 h'.2⟩
  | and ts ih | or ts ih | apply f ts ih =>
    refine ⟨hQ _ _ h.1 h'.1, throughoutAll_iff.mpr fun t ht => ih t ht ?_ ?_⟩
    · exact throughoutAll_iff.mp h.2 t ht
    · exact throughoutAll_iff.mp h'.2 t ht
  | implies a b iha ihb | cmp op a b iha ihb | arith op s a b iha ihb =>
    exact ⟨hQ _ _ h.1 h'.1, iha h.2.1 h'.2.1, ihb h.2.2 h'.2.2⟩
  | ite c a b ihc iha ihb =>
    exact ⟨hQ _ _ h.1 h'.1, ihc h.2.1 h'.2.1, iha h.2.2.1 h'.2.2.1, ihb h.2.2.2 h'.2.2.2⟩
  | quant q x s body ih => exact ⟨hQ _ _ h.1 h'.1, fun d hd => ih (h.2 d hd) (h'.2 d hd)⟩

end Structure

end Statute.Logic
