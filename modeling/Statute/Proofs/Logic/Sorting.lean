import Mathlib.Data.List.Nodup
import Statute.Proofs.Logic.Symbols

/-!
# Well-sorted queries

`Term.sort?` computes the sort of a term, if it has one. A query is well-sorted when its assertions
are truth values and all sorts that its declarations mention are declared. In a well-sorted term
every symbol is bound or a declared constant, and every function is applied as declared.
-/

namespace Statute.Logic

open List

variable {v : Vocabulary}

namespace Vocabulary

/-- The sort is built in or declared. -/
def declares (v : Vocabulary) : SmtSort → Bool
  | .enum n => (v.variants? n).isSome
  | .free n => v.sorts.contains (.free n)
  | _ => true

/-- The constant of a symbol. -/
def constant? (v : Vocabulary) (symbol : String) : Option ConstDecl :=
  v.constants.find? fun c => c.symbol == symbol

/-- Sorts, functions and constants are each declared once. -/
structure Distinct (v : Vocabulary) : Prop where
  sorts : (v.sorts.map SortDecl.name).Nodup
  functions : (v.functions.map FunDecl.name).Nodup
  constants : (v.constants.map ConstDecl.symbol).Nodup

/-- A declared function is found under its name. -/
theorem Distinct.function?_eq (hv : v.Distinct) {f : FunDecl} (hf : f ∈ v.functions) :
    v.function? f.name = some f := by
  have hnodup := hv.functions
  unfold function?
  generalize v.functions = functions at hf hnodup
  induction functions with
  | nil => cases hf
  | cons g functions ih =>
    rw [map_cons, nodup_cons] at hnodup
    rcases mem_cons.mp hf with rfl | hf'
    · simp
    have hne : (g.name == f.name) = false := by
      rw [beq_eq_false_iff_ne]
      intro heq
      exact hnodup.1 (heq ▸ mem_map_of_mem hf')
    rw [find?_cons, hne]
    exact ih hf' hnodup.2

/-- The variants of a declared enum are found under its name. -/
theorem Distinct.variants?_eq (hv : v.Distinct) {n vs} (hn : .enum n vs ∈ v.sorts) :
    v.variants? n = some vs := by
  have hnodup := hv.sorts
  unfold variants?
  generalize v.sorts = sorts at hn hnodup
  induction sorts with
  | nil => cases hn
  | cons d sorts ih =>
    rw [map_cons, nodup_cons] at hnodup
    rcases mem_cons.mp hn with rfl | hn'
    · simp
    have hne : d.name ≠ n := by
      rintro rfl
      exact hnodup.1 (mem_map.mpr ⟨_, hn', rfl⟩)
    rw [findSome?_cons]
    cases d with
    | free m => exact ih hn' hnodup.2
    | enum m ws =>
      have hm : (m == n) = false := by simpa [SortDecl.name] using hne
      simp only [hm]
      exact ih hn' hnodup.2

end Vocabulary

namespace Term

mutual

/-- The sort of a term, given the sorts of the bound variables, the innermost first. -/
def sort? (v : Vocabulary) (bound : List (String × SmtSort)) : Term → Option SmtSort
  | .int _ => some .int
  | .real _ => some .real
  | .bool _ => some .bool
  | .str _ => some .string
  | .var x => (bound.lookup x).or ((v.constant? x).map (·.sort))
  | .variant s w =>
    match v.variants? s with
    | some vs => if w ∈ vs then some (.enum s) else none
    | none => none
  | .not t => if sort? v bound t = some .bool then some .bool else none
  | .and ts => if areBool v bound ts then some .bool else none
  | .or ts => if areBool v bound ts then some .bool else none
  | .implies a b =>
    if sort? v bound a = some .bool ∧ sort? v bound b = some .bool then some .bool else none
  | .cmp op a b =>
    match sort? v bound a, sort? v bound b with
    | some s, some t =>
      if s = t ∧ (op = .eq ∨ op = .distinct ∨ s.isNumeric) then some .bool else none
    | _, _ => none
  | .arith op s a b =>
    if sort? v bound a = some s ∧ sort? v bound b = some s ∧ s.isNumeric ∧
        (op = .mod → s = .int) then some s
    else none
  | .neg t =>
    match sort? v bound t with
    | some s => if s.isNumeric then some s else none
    | none => none
  | .toReal t => if sort? v bound t = some .int then some .real else none
  | .ite c a b =>
    if sort? v bound c = some .bool ∧ sort? v bound a = sort? v bound b then sort? v bound a
    else none
  | .apply f args =>
    match v.function? f with
    | some d => if areSorts v bound args d.params then some d.result else none
    | none => none
  | .quant _ x s body =>
    if v.declares s ∧ sort? v ((x, s) :: bound) body = some .bool then some .bool else none

/-- The terms are truth values. -/
def areBool (v : Vocabulary) (bound : List (String × SmtSort)) : List Term → Bool
  | [] => true
  | t :: ts => sort? v bound t = some .bool && areBool v bound ts

/-- The terms have the given sorts, one for each. -/
def areSorts (v : Vocabulary) (bound : List (String × SmtSort)) :
    List Term → List SmtSort → Bool
  | [], [] => true
  | t :: ts, s :: ss => sort? v bound t = some s && areSorts v bound ts ss
  | _, _ => false

end

end Term

/-- All assertions are truth values, the sorts of constants and functions are declared, and nothing
is declared twice. -/
structure Query.WellSorted (q : Query) : Prop where
  distinct : q.vocabulary.Distinct
  constants : ∀ c ∈ q.vocabulary.constants, q.vocabulary.declares c.sort
  functions : ∀ f ∈ q.vocabulary.functions,
    q.vocabulary.declares f.result ∧ ∀ s ∈ f.params, q.vocabulary.declares s
  assertions : ∀ t ∈ q.assertions, t.sort? q.vocabulary [] = some .bool

/-- No constant is a real number, and no function takes or gives one. -/
structure Vocabulary.RealFree (v : Vocabulary) : Prop where
  constants : ∀ c ∈ v.constants, c.sort ≠ .real
  functions : ∀ f ∈ v.functions, f.result ≠ .real ∧ ∀ s ∈ f.params, s ≠ .real

/-- No real numbers occur in the declarations and assertions. -/
structure Query.RealFree (q : Query) : Prop where
  vocabulary : q.vocabulary.RealFree
  assertions : ∀ t ∈ q.assertions, t.RealFree

/-- No function has the name of a constant or of a bound variable. -/
structure Query.NamesApart (q : Query) : Prop where
  constants : ∀ f ∈ q.vocabulary.functions, ∀ c ∈ q.vocabulary.constants, f.name ≠ c.symbol
  binders : ∀ t ∈ q.assertions, t.Binders fun x => ∀ f ∈ q.vocabulary.functions, f.name ≠ x

variable {ts : List Term} {t u : Term} {s : SmtSort}

namespace Term

attribute [local simp] sort? areBool areSorts

variable {bound : List (String × SmtSort)}

theorem sort?_of_areBool {bound : List (String × SmtSort)} (h : areBool v bound ts) :
    ∀ t ∈ ts, t.sort? v bound = some .bool := by
  induction ts with
  | nil => intro t ht; cases ht
  | cons t ts ih =>
    rw [areBool, Bool.and_eq_true, decide_eq_true_eq] at h
    intro u hu
    rcases mem_cons.mp hu with rfl | hu
    · exact h.1
    · exact ih h.2 u hu

theorem sort?_of_areSorts {ss : List SmtSort} (h : areSorts v bound ts ss) :
    ss.length = ts.length ∧ ∀ t ∈ ts, ∃ s, t.sort? v bound = some s := by
  induction ts generalizing ss with
  | nil =>
    cases ss with
    | nil => exact ⟨rfl, fun t ht => by cases ht⟩
    | cons s ss => simp at h
  | cons t ts ih =>
    cases ss with
    | nil => simp at h
    | cons s ss =>
      rw [areSorts, Bool.and_eq_true, decide_eq_true_eq] at h
      obtain ⟨hlen, hts⟩ := ih h.2
      refine ⟨congrArg (· + 1) hlen, ?_⟩
      intro u hu
      rcases mem_cons.mp hu with rfl | hu
      · exact ⟨s, h.1⟩
      · exact hts u hu

/-- The variable that a term binds, with its sort. -/
def binding : Term → List (String × SmtSort)
  | .quant _ x s _ => [(x, s)]
  | _ => []

/-- The terms inside a term that has a sort have one. -/
theorem sort?_of_mem_parts (h : t.sort? v bound = some s) (hu : u ∈ t.parts) :
    ∃ r, u.sort? v (t.binding ++ bound) = some r := by
  cases t with
  | int | real | bool | str | var | variant => cases hu
  | and ts | or ts =>
    simp only [sort?, Option.ite_none_right_eq_some] at h
    exact ⟨_, sort?_of_areBool h.1 u hu⟩
  | apply f args =>
    rw [sort?] at h
    split at h
    next d hd => exact (sort?_of_areSorts (Option.ite_none_right_eq_some.mp h).1).2 u hu
    · cases h
  | not | implies | cmp | arith | neg | toReal | ite | quant =>
    grind [sort?, parts, binding]

/-- In a term that has a sort, functions are applied as declared. -/
theorem appliesIn_of_sort? (h : t.sort? v bound = some s) : t.AppliesIn v := by
  induction t using parts_induction generalizing bound s with
  | h t ih =>
    refine everywhere_iff.mpr ⟨?_, fun u hu => ?_⟩
    · cases t with
      | apply f args =>
        rw [sort?] at h
        split at h
        next d hd =>
          exact ⟨d, hd, (sort?_of_areSorts (Option.ite_none_right_eq_some.mp h).1).1⟩
        · cases h
      | _ => trivial
    · obtain ⟨r, hr⟩ := sort?_of_mem_parts h hu
      exact ih u hu hr

/-- In a term that has a sort, every free symbol is a bound variable or a declared constant. -/
theorem free_of_sort? (h : t.sort? v bound = some s) {x : String} (hx : x ∈ t.free) :
    (bound.lookup x).isSome ∨ ∃ c ∈ v.constants, c.symbol = x := by
  induction t using parts_induction generalizing bound s with
  | h t ih =>
    rcases mem_parts_of_mem_free hx with rfl | ⟨u, hu, hxu⟩
    · rw [sort?] at h
      cases hb : bound.lookup x with
      | some r => exact .inl rfl
      | none =>
        rw [hb, Option.none_or, Option.map_eq_some_iff] at h
        obtain ⟨c, hc, -⟩ := h
        exact .inr ⟨c, mem_of_find?_eq_some hc, by simpa using find?_some hc⟩
    · obtain ⟨r, hr⟩ := sort?_of_mem_parts h hu
      refine (ih u hu hr hxu).imp_left fun hb => ?_
      cases t with
      | quant q y r body =>
        -- the variable of the quantifier is not free
        have hxy : (x == y) = false := by simpa using (mem_filter.mp hx).2
        rwa [binding, singleton_append, lookup_cons, hxy] at hb
      | _ => exact hb

end Term

end Statute.Logic
