import Statute.Proofs.Logic.Values
import Statute.Proofs.Search.Choice

/-!
# The finite fragment

Queries of which all interpretations can be tried: constants have few values, functions take and
give truth values and variants of enums, and so do quantifiers (`Query.Finite`). The number of
interpretations is counted from the declarations alone. The space of such a query covers every
interpretation, has no empty slot, and offers as many choices as there are interpretations:
`exhaustive_of_finite`, `hasEmptySlot_of_finite` and `choices_of_finite`.
-/

namespace Statute.Logic

/-- Truth values, or the variants of an enum. -/
def SmtSort.isFinite : SmtSort → Bool
  | .bool => true
  | .enum _ => true
  | _ => false

/-- The sort that a term quantifies over, if it is a quantifier. -/
def Term.rangeSort? : Term → Option SmtSort
  | .quant _ _ s _ => some s
  | _ => none

/-- The product of numbers. -/
def product : List Nat → Nat
  | [] => 1
  | n :: ns => n * product ns

theorem product_append (l l' : List Nat) : product (l ++ l') = product l * product l' := by
  induction l with
  | nil => rw [List.nil_append, product, Nat.one_mul]
  | cons n l ih => rw [List.cons_append, product, product, ih, Nat.mul_assoc]

namespace Vocabulary

variable (v : Vocabulary)

/-- Number of values of a finite sort. -/
def valueCount : SmtSort → Nat
  | .bool => 2
  | .enum n => ((v.variants? n).getD []).length
  | _ => 0

/-- Number of values of a constant; a whole number needs both limits. -/
def constCount (c : ConstDecl) : Nat :=
  match c.sort, c.lower, c.upper with
  | .int, some lo, some hi => (hi - lo + 1).toNat
  | s, _, _ => v.valueCount s

/-- Number of tuples of values of the given sorts. -/
def tupleCount (sorts : List SmtSort) : Nat := product (sorts.map v.valueCount)

/-- Number of functions that a declaration admits: a result for each tuple of arguments. -/
def functionCount (f : FunDecl) : Nat :=
  product (List.replicate (v.tupleCount f.params) (v.valueCount f.result))

/-- Number of interpretations of all constants and functions. -/
def interpretationCount : Nat :=
  product (v.constants.map v.constCount) * product (v.functions.map v.functionCount)

/-- A truth value, a variant of an enum that has some, or a whole number between limits that are no
farther apart than twice the bound. -/
def Enumerable (bound : Int) (c : ConstDecl) : Prop :=
  match c.sort with
  | .int => ∃ lo ∈ c.lower, ∃ hi ∈ c.upper, lo ≤ hi ∧ hi - lo ≤ 2 * bound
  | s => s.isFinite = true ∧ 0 < v.valueCount s

/-- A function between finite sorts with at most 16 tuples of arguments, and with results. -/
structure Tabular (f : FunDecl) : Prop where
  params : ∀ s ∈ f.params, s.isFinite = true
  tuples : v.tupleCount f.params ≤ 16
  result : f.result.isFinite = true
  inhabited : 0 < v.valueCount f.result

end Vocabulary

namespace Structure

variable (M : Structure Nat)

/-- If the term itself is arithmetic on whole numbers, it does not leave their range and does not
divide by zero. -/
def InRangeAt (ρ : Valuation Nat) : Term → Prop
  | .arith op _ a b => ∀ m n, M.value ρ a = .int m → M.value ρ b = .int n →
      (op = .div ∨ op = .mod → n ≠ 0) ∧ Whole.InRange (M.intArith op m n)
  | .neg t => ∀ n, M.value ρ t = .int n → Whole.InRange (-n)
  | _ => True

/-- If the term itself is a remainder, the quotient that belongs to it is in range. -/
def QuotientAt (ρ : Valuation Nat) : Term → Prop
  | .arith .mod _ a b => ∀ m n, M.value ρ a = .int m → M.value ρ b = .int n →
      Whole.InRange (m / n)
  | _ => True

end Structure

namespace Query

/-- The condition holds throughout the assertions for all interpretations of the declarations. -/
def AllValues (q : Query) (P : Structure Nat → Valuation Nat → Term → Prop) : Prop :=
  ∀ (M : Structure Nat) (ρ : Valuation Nat), M.Interprets q.vocabulary → ρ.Fits M q.vocabulary →
    ρ.Within q.vocabulary → ∀ t ∈ q.assertions, M.Throughout (P M) ρ t

/-- The query is in the finite fragment, and the search may try as many candidates as there are
interpretations. -/
structure Finite (q : Query) (s : BoundedSearch) : Prop where
  sorted : q.WellSorted
  apart : q.NamesApart
  constants : ∀ c ∈ q.vocabulary.constants, q.vocabulary.Enumerable s.bound c
  functions : ∀ f ∈ q.vocabulary.functions, q.vocabulary.Tabular f
  quantifiers : ∀ t ∈ q.assertions, t.Everywhere fun u => ∀ r ∈ u.rangeSort?, r.isFinite = true
  arithmetic : q.AllValues Structure.InRangeAt
  candidates : q.vocabulary.interpretationCount ≤ s.maxCandidates

/-- Everything that the search works with is exact: there are no real numbers, the quotients that
belong to remainders are in range, and tuples of arguments are counted without overflow, from the
first parameter on. -/
structure Exact (q : Query) : Prop where
  realFree : ∀ t ∈ q.assertions, t.RealFree
  quotients : q.AllValues Structure.QuotientAt
  counted : ∀ f ∈ q.vocabulary.functions, ∀ k,
    q.vocabulary.tupleCount (f.params.take k) ≤ Decimal.maxWord

/-- Some structure and valuation within the limits of the constants make all assertions true. -/
def Satisfiable (q : Query) : Prop :=
  ∃ (α : Type) (M : Structure α) (ρ : Valuation α), q.SatisfiedBy M ρ ∧ ρ.Within q.vocabulary

theorem Finite.realFree {q : Query} {s} (h : q.Finite s) : q.vocabulary.RealFree := by
  have hfinite : ∀ r : SmtSort, r.isFinite = true → r ≠ .real := by
    rintro r hr rfl
    cases hr
  refine ⟨fun c hc hreal => ?_, fun f hf => ?_⟩
  · have henum := h.constants c hc
    rw [Vocabulary.Enumerable, hreal] at henum
    exact hfinite _ henum.1 rfl
  · have htab := h.functions f hf
    exact ⟨hfinite _ htab.result, fun r hr => hfinite r (htab.params r hr)⟩

end Query

end Statute.Logic

namespace Statute.Search

open Logic BoundedSearch

/-!
## Domains
-/

section Domains

variable {v : Vocabulary} {bound : Int}

theorem length_around {lo hi center : Int} (hlo : lo ≤ center) (hhi : center ≤ hi) (reach : Nat) :
    (around lo hi center reach).length =
      min reach (hi - center).toNat + min reach (center - lo).toNat := by
  induction reach with
  | zero => simp [around]
  | succ reach ih =>
    unfold around at ih ⊢
    rw [List.range_succ, List.flatMap_append, List.length_append, ih, List.flatMap_singleton]
    have hup : lo ≤ center + ((reach : Int) + 1) := by omega
    have hdown : center - ((reach : Int) + 1) ≤ hi := by omega
    -- each side goes on until its limit is reached
    by_cases hright : center + ((reach : Int) + 1) ≤ hi <;>
      by_cases hleft : lo ≤ center - ((reach : Int) + 1) <;>
      simp only [List.filter_cons, List.filter_nil, hup, hdown, hright, hleft, decide_true,
        decide_false, Bool.and_true, Bool.and_false, if_true, if_false, Bool.false_eq_true,
        List.length_cons, List.length_nil] <;>
      omega

/-- A range that is covered in full is covered once. -/
theorem intDomain_full {lo hi : Int} (hle : lo ≤ hi) (hspan : hi - lo ≤ 2 * bound) :
    (intDomain bound (some lo) (some hi)).extent = .exhaustive ∧
      (intDomain bound (some lo) (some hi)).values.length = (hi - lo + 1).toNat := by
  have hwindow : intWindow bound (some lo) (some hi) =
      (anchor lo hi :: around lo hi (anchor lo hi) (hi - lo).toNat, .exhaustive) := by
    simp [intWindow, Int.not_lt.mpr hle, hspan]
  obtain ⟨hlo, hhi⟩ := anchor_mem hle
  refine ⟨by rw [intDomain, hwindow], ?_⟩
  rw [intDomain, hwindow, List.length_map, List.length_cons, length_around hlo hhi]
  omega

/-- The domain of an enum holds its variants. -/
theorem domain_enum (v : Vocabulary) (bound : Int) (n : String) :
    (Universe.ofVocabulary v bound).domain (.enum n) =
      ((v.variants? n).map fun vs => ⟨vs.map (Value.variant n), .exhaustive⟩).getD {} := by
  show ((v.sorts.map Universe.declaredDomain).lookup (.enum n)).getD {} = _
  congr 1
  unfold Vocabulary.variants?
  induction v.sorts with
  | nil => rfl
  | cons d sorts ih =>
    rw [List.map_cons, List.findSome?_cons, List.lookup_cons]
    cases d with
    | free m => exact ih
    | enum m vs =>
      by_cases hm : m = n
      · subst hm
        simp [Universe.declaredDomain]
      have hne : (SmtSort.enum n == SmtSort.enum m) = false := by
        simp [Ne.symm hm]
      simp only [Universe.declaredDomain, hne, beq_false_of_ne hm]
      exact ih

theorem length_domain {s : SmtSort} (hs : s.isFinite) :
    ((Universe.ofVocabulary v bound).domain s).values.length = v.valueCount s := by
  cases s with
  | bool => rfl
  | enum n =>
    rw [domain_enum, Vocabulary.valueCount]
    cases v.variants? n <;> simp
  | int | real | string | free => cases hs

theorem extent_domain {s : SmtSort} (hs : s.isFinite) (hdecl : v.declares s) :
    ((Universe.ofVocabulary v bound).domain s).extent = .exhaustive := by
  cases s with
  | bool => rfl
  | enum n =>
    obtain ⟨vs, hvs⟩ := Option.isSome_iff_exists.mp hdecl
    rw [domain_enum, hvs]
    rfl
  | int | real | string | free => cases hs

/-- All values of a constant that has few are tried, each once. -/
theorem constDomain_full_of_enumerable {c : ConstDecl} (hc : v.Enumerable bound c)
    (hdecl : v.declares c.sort) :
    (Space.constDomain (Universe.ofVocabulary v bound) bound c).extent = .exhaustive ∧
      (Space.constDomain (Universe.ofVocabulary v bound) bound c).values.length =
        v.constCount c ∧ 0 < v.constCount c := by
  by_cases hint : c.sort = .int
  · rw [Vocabulary.Enumerable, hint] at hc
    obtain ⟨lo, hlo, hi, hhi, hle, hspan⟩ := hc
    obtain ⟨hextent, hlength⟩ := intDomain_full hle hspan
    rw [constDomain_int _ _ hint, Vocabulary.constCount, hint, hlo, hhi]
    exact ⟨hextent, hlength, by dsimp only; omega⟩
  · have hfinite : c.sort.isFinite = true ∧ 0 < v.valueCount c.sort := by
      unfold Vocabulary.Enumerable at hc
      split at hc
      next h => exact absurd h hint
      · exact hc
    have hcount : v.constCount c = v.valueCount c.sort := by
      unfold Vocabulary.constCount
      split
      next h _ _ => exact absurd h hint
      · rfl
    rw [constDomain_of_ne _ _ hint, hcount]
    exact ⟨extent_domain hfinite.1 hdecl, length_domain hfinite.1, hfinite.2⟩

/-- The number of tuples is counted if it never exceeds a word on the way. -/
theorem tupleCount?_eq {domains : List Domain} {count : Nat}
    (h : ∀ k, count * product ((domains.take k).map (·.values.length)) ≤ Decimal.maxWord) :
    Space.tupleCount? count domains =
      some (count * product (domains.map (·.values.length))) := by
  induction domains generalizing count with
  | nil => simp [Space.tupleCount?, product]
  | cons d domains ih =>
    have hfirst : count * d.values.length ≤ Decimal.maxWord := by
      simpa [product] using h 1
    rw [Space.tupleCount?, if_pos hfirst, ih, List.map_cons, product, Nat.mul_assoc]
    intro k
    simpa [product, Nat.mul_assoc] using h (k + 1)

/-- A function with few tuples of arguments has a slot for each. -/
theorem tableSize?_of_tabular (bound : Int) {f : FunDecl} (hf : v.Tabular f)
    (hdecl : ∀ s ∈ f.params, v.declares s)
    (hcounted : ∀ k, v.tupleCount (f.params.take k) ≤ Decimal.maxWord) :
    Space.tableSize? (argDomains (Universe.ofVocabulary v bound) f) =
      some (v.tupleCount f.params) := by
  have hlengths : ∀ sorts : List SmtSort, (∀ s ∈ sorts, s.isFinite = true) →
      product ((sorts.map (Universe.ofVocabulary v bound).domain).map (·.values.length)) =
        v.tupleCount sorts := by
    intro sorts hsorts
    rw [List.map_map]
    exact congrArg product (List.map_congr_left fun s hs => length_domain (hsorts s hs))
  have hcount : Space.tupleCount? 1 (argDomains (Universe.ofVocabulary v bound) f) =
      some (v.tupleCount f.params) := by
    rw [tupleCount?_eq, argDomains, hlengths _ hf.params, Nat.one_mul]
    intro k
    rw [argDomains, ← List.map_take, hlengths _ fun s hs => hf.params s (List.mem_of_mem_take hs),
      Nat.one_mul]
    exact hcounted k
  have htried : (argDomains (Universe.ofVocabulary v bound) f).all
      (fun d => d.extent != .sampled) = true := by
    rw [List.all_eq_true]
    intro d hd
    obtain ⟨s, hs, rfl⟩ := List.mem_map.mp hd
    rw [extent_domain (hf.params s hs) (hdecl s hs)]
    rfl
  have hfew : v.tupleCount f.params ≤ maxTable := hf.tuples
  rw [Space.tableSize?, if_pos htried, hcount]
  simp [hfew]

end Domains

/-!
## Spaces
-/

/-- Number of choices that a space offers. -/
def Space.choices (s : Space) : Nat := product (s.slots.toList.map Array.size)

section Spaces

variable {s : Space} {u : Universe} {bound : Int}

theorem choices_addConstant (s : Space) (bound : Int) (c : ConstDecl) :
    (s.addConstant bound c).choices =
      s.choices * (Space.constDomain s.sorts bound c).values.length := by
  simp [Space.choices, Space.addConstant, product_append, product]

theorem choices_addFunction (s : Space) (f : FunDecl) :
    (s.addFunction f).choices =
      s.choices * product (List.replicate (slotCount s.sorts f)
        (s.sorts.domain f.result).values.length) := by
  simp [Space.choices, Space.addFunction, product_append, slotCount, argDomains]

/-- What adding constants one after the other does to a space. -/
theorem foldl_addConstant (bound : Int) (cs : List ConstDecl) (hs : s.sorts = u) :
    (cs.foldl (Space.addConstant bound) s).sorts = u ∧
      (cs.foldl (Space.addConstant bound) s).choices = s.choices *
        product (cs.map fun c => (Space.constDomain u bound c).values.length) ∧
      (s.exhaustive →
        (∀ c ∈ cs, (Space.constDomain u bound c).extent = .exhaustive) →
          (cs.foldl (Space.addConstant bound) s).exhaustive) := by
  induction cs generalizing s with
  | nil => exact ⟨hs, by simp [product], fun h _ => h⟩
  | cons c cs ih =>
    obtain ⟨hsorts, hchoices, hexh⟩ := ih (s := s.addConstant bound c) hs
    refine ⟨hsorts, ?_, fun h hall => ?_⟩
    · rw [List.foldl_cons, hchoices, choices_addConstant, hs, List.map_cons, product,
        Nat.mul_assoc]
    rw [List.forall_mem_cons] at hall
    refine hexh ?_ hall.2
    simp [Space.addConstant, h, hs, hall.1]

/-- What adding functions one after the other does to a space. -/
theorem foldl_addFunction (fs : List FunDecl) (hs : s.sorts = u) :
    (fs.foldl Space.addFunction s).choices = s.choices *
        product (fs.map fun f =>
          product (List.replicate (slotCount u f) (u.domain f.result).values.length)) ∧
      (s.exhaustive → (∀ f ∈ fs, Exhausts u f) →
        (fs.foldl Space.addFunction s).exhaustive) := by
  induction fs generalizing s with
  | nil => exact ⟨by simp [product], fun h _ => h⟩
  | cons f fs ih =>
    obtain ⟨hchoices, hexh⟩ := ih (s := s.addFunction f) hs
    refine ⟨?_, fun h hall => ?_⟩
    · rw [List.foldl_cons, hchoices, choices_addFunction, hs, List.map_cons, product,
        Nat.mul_assoc]
    rw [List.forall_mem_cons] at hall
    obtain ⟨hf, hfs⟩ := hall
    refine hexh ?_ hfs
    have hargs : ∀ p ∈ f.params, (u.domain p).extent = .exhaustive := fun p hp =>
      hf.args _ (List.mem_map_of_mem hp)
    have htable := hf.table
    rw [argDomains] at htable
    simpa [Space.addFunction, h, hs, hf.result, htable] using hargs

end Spaces

section Finite

variable {q : Query} {s : BoundedSearch}

theorem exhausts_of_finite (h : q.Finite s) (hexact : q.Exact) {f : FunDecl}
    (hf : f ∈ q.vocabulary.functions) :
    Exhausts (Universe.ofVocabulary q.vocabulary s.bound) f := by
  have htab := h.functions f hf
  obtain ⟨hresult, hparams⟩ := h.sorted.functions f hf
  refine ⟨extent_domain htab.result hresult, ?_, fun D hD => ?_⟩
  · rw [tableSize?_of_tabular s.bound htab hparams (hexact.counted f hf)]
    rfl
  · obtain ⟨p, hp, rfl⟩ := List.mem_map.mp hD
    exact extent_domain (htab.params p hp) (hparams p hp)

/-- The space covers every interpretation. -/
theorem exhaustive_of_finite (h : q.Finite s) (hexact : q.Exact) :
    (Space.ofVocabulary q.vocabulary s.bound).exhaustive := by
  obtain ⟨hsorts, -, hconstants⟩ := foldl_addConstant s.bound
    (s := { sorts := Universe.ofVocabulary q.vocabulary s.bound }) q.vocabulary.constants rfl
  refine (foldl_addFunction q.vocabulary.functions hsorts).2 (hconstants rfl fun c hc => ?_)
    fun f hf => exhausts_of_finite h hexact hf
  exact (constDomain_full_of_enumerable (h.constants c hc) (h.sorted.constants c hc)).1

/-- There are as many choices as interpretations. -/
theorem choices_of_finite (h : q.Finite s) (hexact : q.Exact) :
    (Space.ofVocabulary q.vocabulary s.bound).choices = q.vocabulary.interpretationCount := by
  obtain ⟨hsorts, hconstants, -⟩ := foldl_addConstant s.bound
    (s := { sorts := Universe.ofVocabulary q.vocabulary s.bound }) q.vocabulary.constants rfl
  have hfunctions := (foldl_addFunction q.vocabulary.functions hsorts).1
  have hempty : Space.choices { sorts := Universe.ofVocabulary q.vocabulary s.bound } = 1 := rfl
  rw [Space.ofVocabulary, hfunctions, hconstants, hempty, Nat.one_mul,
    Vocabulary.interpretationCount]
  congr 2
  · refine List.map_congr_left fun c hc => ?_
    exact (constDomain_full_of_enumerable (h.constants c hc) (h.sorted.constants c hc)).2.1
  refine List.map_congr_left fun f hf => ?_
  have htab := h.functions f hf
  have hsize := tableSize?_of_tabular s.bound htab (h.sorted.functions f hf).2
    (hexact.counted f hf)
  rw [slotCount, hsize, Option.getD_some, length_domain htab.result, Vocabulary.functionCount]

/-- Every slot has a value. -/
theorem hasEmptySlot_of_finite (h : q.Finite s) :
    (Space.ofVocabulary q.vocabulary s.bound).hasEmptySlot = false := by
  obtain ⟨owners, hlaid⟩ := laid_ofVocabulary q.vocabulary s.bound
  rw [hasEmptySlot_eq, hlaid.slots_eq, List.any_map, List.any_eq_false]
  intro o ho
  have hpos :
      0 < (o.domain (Universe.ofVocabulary q.vocabulary s.bound) s.bound).values.length := by
    rcases hlaid.owners_mem o ho with ⟨c, hc, rfl⟩ | ⟨f, hf, k, -, rfl⟩
    · obtain ⟨-, hlength, hpos⟩ :=
        constDomain_full_of_enumerable (h.constants c hc) (h.sorted.constants c hc)
      exact hlength ▸ hpos
    have htab := h.functions f hf
    rw [Owner.domain, length_domain htab.result]
    exact htab.inhabited
  simpa [List.isEmpty_iff, List.length_pos_iff] using hpos

end Finite

end Statute.Search
