import Mathlib.Data.List.Forall2
import Statute.Proofs.Logic.Symbols
import Statute.Proofs.Search.Domain
import Statute.Search.Eval

/-!
# Evaluation is sound

If evaluation in a chosen interpretation comes to a value, the value stands for the value that the
term has in the structure. Each rule of the three-valued evaluation is justified on its own
(`Outcome.Sound`, `Truth.Sound`), and `eval_sound` puts them together over all terms. Quantifiers
over free sorts are decided in the model at hand; such outcomes are sound under a condition `F`,
which says that the structure has no other elements.
-/

namespace Statute.Search

open Logic List

universe u

variable {α : Type u} {e : Elements α} {F : Prop} {w : Value} {q : Quantifier}
  {body : Value → Truth} {bound : List (String × Value)}

/-- A value that is found stands for the given one. -/
def Outcome.Sound (e : Elements α) (F : Prop) (o : Outcome) (d : Datum α) : Prop :=
  (o.inModel = true → F) → ∀ w, o.value = some w → Denotes e w d

/-- A statement that is decided is decided correctly. -/
def Truth.Sound (F : Prop) (t : Truth) (p : Prop) : Prop :=
  (t.inModel = true → F) → ∀ b, t.truth = some b → (p ↔ b = true)

variable {d : Datum α}

theorem Outcome.sound_value {inModel : Bool} (h : Denotes e w d) :
    Outcome.Sound e F ⟨some w, inModel⟩ d := by
  intro _ w' hw
  cases hw
  exact h

theorem Outcome.Sound.truth {o : Outcome} {d : Datum α} (h : o.Sound e F d) :
    o.truth.Sound F d.IsTrue := by
  obtain ⟨value, inModel⟩ := o
  intro hf b hb
  unfold Outcome.truth at hf hb
  split at hb
  next c hv =>
    cases hb
    subst hv
    have hd := denotes_bool.mp (h hf _ rfl)
    rw [hd, Datum.isTrue_bool]
  · cases hb

theorem Truth.Sound.outcome {t : Truth} {p : Prop} (h : t.Sound F p) :
    t.outcome.Sound e F (.ofProp p) := by
  intro hf w hw
  obtain ⟨b, hb, rfl⟩ := Option.map_eq_some_iff.mp hw
  exact denotes_bool.mpr (Datum.ofProp_eq_bool.mpr (h hf b hb))

theorem Outcome.Sound.bindValue {o : Outcome} {d' : Datum α} {f : Value → Option Value}
    (h : o.Sound e F d) (hf : ∀ w, Denotes e w d → ∀ w', f w = some w' → Denotes e w' d') :
    (o.bindValue f).Sound e F d' := by
  intro hF w' hw'
  obtain ⟨w, hw, hfw⟩ := Option.bind_eq_some_iff.mp hw'
  exact hf w (h hF w hw) w' hfw

theorem Outcome.Sound.andThen {o : Outcome} {d d' : Datum α} {f : Value → Outcome}
    (h : o.Sound e F d) (hf : ∀ w, Denotes e w d → (f w).Sound e F d') :
    (o.andThen f).Sound e F d' := by
  obtain ⟨value, inModel⟩ := o
  intro hF w' hw'
  cases value with
  | none => cases hw'
  | some w =>
    simp only [Outcome.andThen, Bool.or_eq_true] at hF
    have hw : Denotes e w d := h (fun hm => hF (Or.inl hm)) w rfl
    exact hf w hw (fun hm => hF (Or.inr hm)) w' hw'

/-- A wider flag only makes an outcome weaker. -/
theorem Outcome.Sound.orModel {o : Outcome} (h : o.Sound e F d) (m : Bool) :
    Outcome.Sound e F ⟨o.value, m || o.inModel⟩ d :=
  fun hF => h fun hm => hF (by simp [hm])

variable {b : Bool} {op : Arithmetic} {r : Value}

section Operators

variable {w w' : Value} {d d' : Datum α}

/-- Only numbers have an order, and it is the order of the numbers they stand for. -/
theorem orderOf?_eq_some {o : Ordering} (h : Denotes e w d) (h' : Denotes e w' d')
    (ho : orderOf? w w' = some o) : ∃ m n, (d = .int m ∧ d' = .int n) ∧ o = compare m n := by
  cases w with
  | int m =>
    cases w' with
    | int n =>
      cases ho
      exact ⟨m, n, ⟨denotes_int.mp h, denotes_int.mp h'⟩, rfl⟩
    | real x => exact absurd h' not_denotes_real
    | bool | str | variant | element | raw => simp [orderOf?, asFloat?] at ho
  | real x => exact absurd h not_denotes_real
  | bool | str | variant | element | raw => simp [orderOf?, asFloat?] at ho

/-- Values are equal just if they stand for the same. -/
theorem beq_iff_denotes (he : Separates e) (h : Denotes e w d) (h' : Denotes e w' d') :
    (w == w') ↔ d = d' := by
  rw [beq_iff_of_denotes h]
  constructor
  · rintro rfl
    exact h.unique h'
  · rintro rfl
    exact h.injective he h'

theorem compareValues_sound (he : Separates e) (h : Denotes e w d) (h' : Denotes e w' d')
    {op : Comparison} (hb : compareValues op w w' = some b) : op.Holds d d' ↔ b := by
  unfold compareValues at hb
  cases ho : orderOf? w w' with
  | none =>
    rw [ho] at hb
    have heq := beq_iff_denotes he h h'
    cases op with
    | eq =>
      cases hb
      exact heq.symm
    | distinct =>
      cases hb
      simp only [Comparison.Holds, Option.map_none, Option.getD_none, bne, Bool.not_eq_true', ne_eq,
        ← heq, Bool.not_eq_true]
    | lt | gt | le | ge => cases hb
  | some o =>
    obtain ⟨m, n, ⟨rfl, rfl⟩, rfl⟩ := orderOf?_eq_some h h' ho
    rw [ho] at hb
    cases op with
    | eq | distinct | lt | gt | le | ge =>
      cases hb
      simp [Comparison.Holds, Int.compare_eq_lt, Int.compare_eq_gt]

/-- Where bounded arithmetic has a result, it is the exact one. -/
theorem intArithmetic_sound (M : Structure α) {m n k : Int} (h : intArithmetic op m n = some k) :
    M.intArith op m n = k := by
  cases op with
  | add | sub | mul => exact (Whole.fit_eq_some_iff.mp h).2
  | div =>
    simp only [intArithmetic, Whole.div?] at h
    split at h
    · cases h
    next hn =>
      rw [Structure.intArith, if_neg hn]
      exact (Whole.fit_eq_some_iff.mp h).2
  | mod =>
    obtain ⟨_, hdiv, rfl⟩ := Option.map_eq_some_iff.mp h
    unfold Whole.div? at hdiv
    split at hdiv
    · cases hdiv
    next hn => rw [Structure.intArith, if_neg hn]

theorem arithmetic_sound (M : Structure α) (h : Denotes e w d) (h' : Denotes e w' d')
    (hr : arithmetic op w w' = some r) : Denotes e r (M.arith op d d') := by
  cases w with
  | int m =>
    cases w' with
    | int n =>
      obtain ⟨k, hk, rfl⟩ := Option.map_eq_some_iff.mp hr
      rw [denotes_int.mp h, denotes_int.mp h', Structure.arith, intArithmetic_sound M hk]
      exact denotes_int.mpr rfl
    | real x => exact absurd h' not_denotes_real
    | bool | str | variant | element | raw => simp [arithmetic, asFloat?] at hr
  | real x => exact absurd h not_denotes_real
  | bool | str | variant | element | raw => simp [arithmetic, asFloat?] at hr

theorem negateValue_sound (h : Denotes e w d) (hr : negateValue w = some r) :
    Denotes e r (Structure.negate d) := by
  cases w with
  | int m =>
    obtain ⟨k, hk, rfl⟩ := Option.map_eq_some_iff.mp hr
    rw [denotes_int.mp h, Structure.negate, (Whole.fit_eq_some_iff.mp hk).2]
    exact denotes_int.mpr rfl
  | real x => exact absurd h not_denotes_real
  | bool | str | variant | element | raw => cases hr

end Operators

section Instances

variable {ι : Type} {body : ι → Truth} {vs : List ι}

/-- A statement about all or some of a list: an instance that is true for an existential quantifier
or false for a universal one settles it. -/
def settle (q : Quantifier) (body : ι → Truth) (undecided inModel : Bool) : List ι → Truth
  | [] => ⟨if undecided then none else some (q == .all), inModel⟩
  | v :: vs =>
    match (body v).truth with
    | some b =>
      if b = (q == .some) then ⟨some b, inModel || (body v).inModel⟩
      else settle q body undecided (inModel || (body v).inModel) vs
    | none => settle q body true (inModel || (body v).inModel) vs

/-- The note that a free sort was met is never lost. -/
theorem inModel_settle {undecided : Bool} : (settle q body undecided true vs).inModel := by
  induction vs generalizing undecided with
  | nil => rfl
  | cons v vs ih =>
    rw [settle]
    split
    · split
      · rfl
      · exact ih
    · exact ih

/-- If some instance settled the statement, that instance is as the answer says; else nothing was
left out, and all instances are as the answer says. -/
theorem settle_sound {undecided inModel : Bool} {p : ι → Prop}
    (hbody : ∀ v ∈ vs, (body v).Sound F (p v))
    (hF : (settle q body undecided inModel vs).inModel → F)
    (hb : (settle q body undecided inModel vs).truth = some b) :
    if b = (q == .some) then ∃ v ∈ vs, (p v ↔ b)
    else undecided = false ∧ ∀ v ∈ vs, (p v ↔ b) := by
  induction vs generalizing undecided inModel with
  | nil =>
    cases undecided with
    | true => cases hb
    | false =>
      cases hb
      cases q <;> simp
  | cons v vs ih =>
    have hv := hbody v mem_cons_self
    have hvs : ∀ u ∈ vs, (body u).Sound F (p u) := fun u hu => hbody u (mem_cons_of_mem _ hu)
    rw [settle] at hF hb
    cases ht : (body v).truth with
    | none =>
      rw [ht] at hF hb
      have hrest := ih hvs hF hb
      split at hrest
      · grind
      · cases hrest.1
    | some c =>
      simp only [ht] at hF hb
      split at hb
      next hset =>
        rw [if_pos hset] at hF
        cases hb
        rw [if_pos hset]
        exact ⟨v, mem_cons_self, hv (fun h => hF (by simp [h])) b ht⟩
      next hset =>
        rw [if_neg hset] at hF
        have hrest := ih hvs hF hb
        split at hrest
        · grind
        next hb' =>
          rw [if_neg hb']
          refine ⟨hrest.1, fun u hu => ?_⟩
          rcases mem_cons.mp hu with rfl | hu
          · -- an instance that did not settle it is as the answer says
            have hc : c = b := by
              cases c <;> cases b <;> cases q <;> simp_all
            rw [← hc]
            refine hv (fun h => hF ?_) c ht
            rw [h, Bool.or_true]
            exact inModel_settle
          · exact hrest.2 u hu

end Instances

theorem quantify_eq (vs : List Value) (undecided inModel : Bool) :
    quantify q body undecided inModel vs = settle q body undecided inModel vs := by
  induction vs generalizing undecided inModel with
  | nil => rfl
  | cons v vs ih =>
    unfold quantify settle
    dsimp only
    cases q <;> rcases (body v).truth with _ | _ | _ <;> first | rfl | exact ih _ _

variable {P : Datum α → Prop}

theorem exists_denotes_iff (h : Denotes e w d) : (∃ d', Denotes e w d' ∧ P d') ↔ P d := by
  constructor
  · rintro ⟨d', h', hP⟩
    exact h.unique h' ▸ hP
  · exact fun hP => ⟨d, h, hP⟩

/-- A quantifier over a domain that keeps its word is decided correctly. -/
theorem quantify_domain {D : Domain} {s : Set (Datum α)} (hD : D.Faithful e F s)
    (hbody : ∀ w d, Denotes e w d → (body w).Sound F (P d)) :
    (quantify q body (D.extent == .sampled) (D.extent == .inModel) D.values).Sound F
      (Ranges q s P) := by
  rw [quantify_eq]
  intro hF b hb
  have hf : D.extent = .inModel → F := by grind [inModel_settle]
  have hsound := hD.sound hf
  have hinst : ∀ w ∈ D.values, (body w).Sound F (∃ d, Denotes e w d ∧ P d) := by
    intro w hw hm c hc
    obtain ⟨d, -, hwd⟩ := hsound w hw
    rw [exists_denotes_iff hwd]
    exact hbody w d hwd hm c hc
  have hall := settle_sound hinst hF hb
  split at hall
  next hset =>
    obtain ⟨w, hw, hiff⟩ := hall
    obtain ⟨d, hd, hwd⟩ := hsound w hw
    rw [exists_denotes_iff hwd] at hiff
    subst hset
    cases q with
    | all =>
      have hnot : ¬P d := by simpa using hiff
      simpa [Ranges] using ⟨d, hd, hnot⟩
    | some =>
      have hyes : P d := by simpa using hiff
      simpa [Ranges] using ⟨d, hd, hyes⟩
  next hset =>
    obtain ⟨hun, hall⟩ := hall
    have hfull := hD.full hf (by simpa using hun)
    have hP : ∀ d ∈ s, (P d ↔ b = true) := by
      intro d hd
      obtain ⟨w, hw, hwd⟩ := hfull d hd
      rw [← hall w hw, exists_denotes_iff hwd]
    cases q with
    | all =>
      obtain rfl : b = true := Bool.eq_true_of_not_eq_false hset
      simpa [Ranges] using hP
    | some =>
      obtain rfl : b = false := Bool.eq_false_of_not_eq_true hset
      simpa [Ranges] using hP

section Lists

variable {i : Interpretation} {bound : List (String × Value)} {M : Structure α} {ρ : Valuation α}
  {ts : List Term}

/-- A conjunction is a statement about all of its parts. -/
theorem evalAll_eq (ts : List Term) (undecided inModel : Bool) :
    evalAll i bound (if undecided then none else some true) inModel ts =
      settle .all (fun t => (eval i bound t).truth) undecided inModel ts := by
  induction ts generalizing undecided inModel with
  | nil => rw [evalAll, settle]; rfl
  | cons t ts ih =>
    rw [evalAll, settle]
    rcases (eval i bound t).truth.truth with _ | _ | _
    · exact ih true _
    · rfl
    · exact ih undecided _

/-- A disjunction is one about some of them. -/
theorem evalAny_eq (ts : List Term) (undecided inModel : Bool) :
    evalAny i bound (if undecided then none else some false) inModel ts =
      settle .some (fun t => (eval i bound t).truth) undecided inModel ts := by
  induction ts generalizing undecided inModel with
  | nil => rw [evalAny, settle]; rfl
  | cons t ts ih =>
    rw [evalAny, settle]
    rcases (eval i bound t).truth.truth with _ | _ | _
    · exact ih true _
    · exact ih undecided _
    · rfl

section

variable (hts : ∀ t ∈ ts, (eval i bound t).Sound e F (M.value ρ t))

include hts

theorem evalAll_sound : (evalAll i bound (some true) false ts).Sound F (∀ t ∈ ts, M.Holds ρ t) := by
  intro hF b hb
  rw [show some true = if false then none else some true from rfl, evalAll_eq] at hF hb
  have hall := settle_sound (fun t ht => (hts t ht).truth) hF hb
  cases b <;> simpa [Structure.Holds] using hall

theorem evalAny_sound : (evalAny i bound (some false) false ts).Sound F (∃ t ∈ ts, M.Holds ρ t) := by
  intro hF b hb
  rw [show some false = if false then none else some false from rfl, evalAny_eq] at hF hb
  have hall := settle_sound (fun t ht => (hts t ht).truth) hF hb
  cases b <;> simpa [Structure.Holds] using hall

end

/-- A function is applied correctly if its arguments are evaluated correctly. `ds` is what earlier
arguments stand for. -/
theorem evalArgs_sound {f : String} {n : Nat} (hf : ∀ args ds w, args.length = n → List.Forall₂
      (Denotes e) args ds → i.result? f args = some w → Denotes e w (M.function f ds))
    (hts : ∀ t ∈ ts, (eval i bound t).Sound e F (M.value ρ t)) {values : List Value}
    {ds : List (Datum α)} {inModel : Bool}
    (hvs : (inModel → F) → List.Forall₂ (Denotes e) values.reverse ds)
    (hn : values.length + ts.length = n) :
    (evalArgs i bound f values inModel ts).Sound e F
      (M.function f (ds ++ ts.map (M.value ρ))) := by
  induction ts generalizing values ds inModel with
  | nil =>
    rw [evalArgs, map_nil, append_nil]
    intro hF w hw
    exact hf _ _ _ (by simpa using hn) (hvs hF) hw
  | cons t ts ih =>
    have ht := hts t mem_cons_self
    rw [evalArgs]
    generalize eval i bound t = o at ht
    obtain ⟨value, flag⟩ := o
    cases value with
    | none => exact fun _ w hw => nomatch hw
    | some v =>
      have hstep := @ih (fun u hu => hts u (mem_cons_of_mem _ hu)) (v :: values)
        (ds ++ [M.value ρ t]) (inModel || flag) ?_ ?_
      · rwa [append_assoc, singleton_append] at hstep
      · intro hF
        rw [reverse_cons]
        refine rel_append (hvs fun h => hF (by simp [h])) (.cons ?_ .nil)
        exact ht (fun h => hF (by simp [show flag = true from h])) v rfl
      · rw [length_cons] at hn ⊢
        omega

end Lists

/-- The interpretation that is chosen agrees with a structure: constants and functions have the same
values wherever they have one, and domains keep their word. -/
structure Interpretation.Realizes (i : Interpretation) (e : Elements α) (F : Prop) (v : Vocabulary)
    (M : Structure α) (ρ : Valuation α) : Prop where
  declared : ∀ c ∈ v.constants, (i.space.constants.lookup c.symbol).isSome
  constant : ∀ x k w, i.space.constants.lookup x = some k → i.chosen.value? k = some w →
    Denotes e w (ρ x)
  function : ∀ f d, v.function? f = some d → ∀ args ds w, args.length = d.params.length →
    List.Forall₂ (Denotes e) args ds → i.result? f args = some w → Denotes e w (M.function f ds)
  domain : ∀ s, s ≠ .real → (i.space.sorts.domain s).Faithful e F (M.carrier s)

/-- The term can be evaluated in a vocabulary without confusion: it has no real numbers, applies
functions as they are declared, and no bound variable has the name of a function that is applied to
nothing; such functions have their names in `S`. -/
def Searchable (v : Vocabulary) (S : Set String) : Term → Prop :=
  Term.Everywhere fun t =>
    t.isReal = false ∧ t.Applies v ∧ (∀ f ∈ t.bare?, f ∈ S) ∧ ∀ x ∈ t.binder?, x ∉ S

theorem Searchable.mono {v v' : Vocabulary} {S : Set String} {t : Term} (h : Searchable v S t)
    (hfun : ∀ f d, v.function? f = some d → v'.function? f = some d) : Searchable v' S t :=
  h.imp fun _ hu => ⟨hu.1, hu.2.1.mono hfun, hu.2.2⟩

/-- The term can be evaluated without confusion, and its symbols are declared. -/
structure Answerable (v : Vocabulary) (S : Set String) (t : Term) : Prop where
  searchable : Searchable v S t
  free : ∀ x ∈ t.free, ∃ c ∈ v.constants, c.symbol = x

/-- What can be evaluated can still be when functions and constants are added. -/
theorem Answerable.mono {v v' : Vocabulary} {S : Set String} {t : Term} (h : Answerable v S t)
    (hfun : ∀ f d, v.function? f = some d → v'.function? f = some d)
    (hconstants : v.constants ⊆ v'.constants) : Answerable v' S t := by
  refine ⟨h.searchable.mono hfun, fun x hx => ?_⟩
  obtain ⟨c, hc, hcx⟩ := h.free x hx
  exact ⟨c, hconstants hc, hcx⟩

/-- The values of bound variables stand for those in the valuation, which is otherwise the one
outside. -/
structure Binds (e : Elements α) (bound : List (String × Value)) (ρ ρ' : Valuation α) : Prop where
  inside : ∀ x w, bound.lookup x = some w → Denotes e w (ρ' x)
  outside : ∀ x, bound.lookup x = none → ρ' x = ρ x

theorem Binds.nil (ρ : Valuation α) : Binds e [] ρ ρ :=
  ⟨(fun _ _ h => nomatch h), (fun _ _ => rfl)⟩

variable {ρ ρ' : Valuation α} {x : String}

theorem Binds.cons (h : Binds e bound ρ ρ') (hw : Denotes e w d) :
    Binds e ((x, w) :: bound) ρ (Function.update ρ' x d) := by
  constructor
  · intro y w' hy
    rw [lookup_cons] at hy
    cases hyx : y == x with
    | true => grind
    | false =>
      rw [hyx] at hy
      rw [Function.update_of_ne (by simpa using hyx)]
      exact h.inside y w' hy
  · intro y hy
    rw [lookup_cons] at hy
    cases hyx : y == x with
    | true =>
      rw [hyx] at hy
      cases hy
    | false =>
      rw [hyx] at hy
      rw [Function.update_of_ne (by simpa using hyx)]
      exact h.outside y hy

/-- An implication is true if the premise is false or the conclusion is true; it takes both to be
decided to be false. -/
theorem implies_sound {l r : Truth} {p p' : Prop} (hl : l.Sound F p) (hr : r.Sound F p') :
    Outcome.Sound e F
      (match l.truth with
        | some false => ⟨some (.bool true), l.inModel⟩
        | some true => Truth.outcome ⟨r.truth, l.inModel || r.inModel⟩
        | none =>
          Truth.outcome ⟨if r.truth == some true then some true else none, l.inModel || r.inModel⟩)
      (.ofProp (p → p')) := by
  obtain ⟨truth, flag⟩ := l
  obtain ⟨truth', flag'⟩ := r
  rcases truth with _ | b
  · -- only a true conclusion decides it
    refine Truth.Sound.outcome ?_
    intro hF b hb
    split at hb
    next htrue =>
      cases hb
      have hp' := hr (fun h => hF (by simp [show flag' = true from h])) true (eq_of_beq htrue)
      exact iff_of_true (fun _ => hp'.mpr rfl) rfl
    · cases hb
  · cases b with
    | false =>
      intro hF w hw
      cases hw
      have hp := hl hF false rfl
      refine denotes_bool.mpr (Datum.ofProp_of_true fun h => ?_)
      exact absurd (hp.mp h) (by simp)
    | true =>
      refine Truth.Sound.outcome ?_
      intro hF b hb
      have hp := hl (fun h => hF (by simp [show flag = true from h])) true rfl
      rw [← hr (fun h => hF (by simp [show flag' = true from h])) b hb]
      exact ⟨fun h => h (hp.mpr rfl), fun h _ => h⟩

/-- A choice with an undecided condition has a value if both branches have the same. -/
theorem ite_sound {c : Truth} {o o' : Outcome} {p : Prop} {d' : Datum α} (hc : c.Sound F p)
    (ho : o.Sound e F d) (ho' : o'.Sound e F d') :
    Outcome.Sound e F
      (match c.truth with
        | some true => ⟨o.value, c.inModel || o.inModel⟩
        | some false => ⟨o'.value, c.inModel || o'.inModel⟩
        | none =>
          let r := o.andThen fun x => o'.bindValue fun y => if x == y then some x else none
          ⟨r.value, c.inModel || r.inModel⟩)
      (@ite _ p (Classical.propDecidable p) d d') := by
  obtain ⟨truth, flag⟩ := c
  rcases truth with _ | b
  · -- the branches stand for the same, so it does not matter which one it is
    refine Outcome.Sound.orModel ?_ flag
    refine ho.andThen fun x hx => ho'.bindValue fun y hy w hw => ?_
    split at hw
    · grind [beq_iff_of_denotes]
    · cases hw
  · intro hF w hw
    have hflag : flag = true → F := fun h => hF (by cases b <;> simp [h])
    have hp := hc hflag b rfl
    cases b with
    | true =>
      rw [if_pos (hp.mpr rfl)]
      exact (ho.orModel flag) hF w hw
    | false =>
      rw [if_neg (by simpa using hp)]
      exact (ho'.orModel flag) hF w hw

section Eval

variable {i : Interpretation} {v : Vocabulary} {S : Set String} {M : Structure α} {ρ : Valuation α}

/-- A symbol that is bound or a constant. -/
theorem symbol?_sound (hi : i.Realizes e F v M ρ) (hbound : Binds e bound ρ ρ')
    (hx : (bound.lookup x).isSome ∨ ∃ c ∈ v.constants, c.symbol = x)
    (hw : i.symbol? bound x = some w) : Denotes e w (ρ' x) := by
  unfold Interpretation.symbol? at hw
  split at hw
  next w' hb =>
    cases hw
    exact hbound.inside x w hb
  next hb =>
    rw [hbound.outside x hb]
    obtain ⟨c, hc, rfl⟩ : ∃ c ∈ v.constants, c.symbol = x := by grind
    obtain ⟨k, hk⟩ := Option.isSome_iff_exists.mp (hi.declared c hc)
    rw [hk] at hw
    exact hi.constant _ k w hk hw

/-- A function without arguments, if its name is neither bound nor a constant. -/
theorem symbol?_eq_result? {f : String} (hb : bound.lookup f = none)
    (hc : i.space.constants.lookup f = none) : i.symbol? bound f = i.result? f [] := by
  rw [Interpretation.symbol?, hb, hc]
  rfl

/-- The value found for a term stands for the value of the term in the structure. -/
theorem eval_sound (he : Separates e) (hi : i.Realizes e F v M ρ)
    (hS : ∀ f ∈ S, i.space.constants.lookup f = none) {t : Term} (ht : Searchable v S t)
    (hbound : Binds e bound ρ ρ') (hfresh : ∀ f ∈ S, bound.lookup f = none)
    (hfree : ∀ x ∈ t.free, (bound.lookup x).isSome ∨ ∃ c ∈ v.constants, c.symbol = x) :
    (eval i bound t).Sound e F (M.value ρ' t) := by
  induction t generalizing bound ρ' with
  | int n => exact Outcome.sound_value (denotes_int.mpr rfl)
  | bool b => exact Outcome.sound_value (denotes_bool.mpr rfl)
  | str s => exact Outcome.sound_value (denotes_str.mpr rfl)
  | variant s w => exact Outcome.sound_value (denotes_variant.mpr rfl)
  | real x => exact absurd ht.1 (by simp [Term.isReal])
  | var x =>
    intro _ w hw
    exact symbol?_sound hi hbound (hfree x (mem_singleton_self x)) hw
  | not t ih =>
    have h := (ih ht.2 hbound hfresh hfree).truth
    refine Truth.Sound.outcome ?_
    intro hF b hb
    obtain ⟨c, hc, rfl⟩ := Option.map_eq_some_iff.mp hb
    rw [h hF c hc]
    cases c <;> simp
  | and ts ih =>
    have hts : ∀ t ∈ ts, (eval i bound t).Sound e F (M.value ρ' t) := fun t h =>
      ih t h (Term.everywhereIn_iff.mp ht.2 t h) hbound hfresh fun x hx =>
        hfree x (Term.mem_freeIn.mpr ⟨t, h, hx⟩)
    rw [eval, Structure.value]
    simpa [Structure.Holds] using (evalAll_sound hts).outcome (e := e)
  | or ts ih =>
    have hts : ∀ t ∈ ts, (eval i bound t).Sound e F (M.value ρ' t) := fun t h =>
      ih t h (Term.everywhereIn_iff.mp ht.2 t h) hbound hfresh fun x hx =>
        hfree x (Term.mem_freeIn.mpr ⟨t, h, hx⟩)
    rw [eval, Structure.value]
    simpa [Structure.Holds] using (evalAny_sound hts).outcome (e := e)
  | implies a b iha ihb =>
    have ha := (iha ht.2.1 hbound hfresh fun x hx => hfree x (mem_append_left _ hx)).truth
    have hb := (ihb ht.2.2 hbound hfresh fun x hx => hfree x (mem_append_right _ hx)).truth
    exact implies_sound ha hb
  | cmp op a b iha ihb =>
    have ha := iha ht.2.1 hbound hfresh fun x hx => hfree x (mem_append_left _ hx)
    have hb := ihb ht.2.2 hbound hfresh fun x hx => hfree x (mem_append_right _ hx)
    refine ha.andThen fun w hw => hb.bindValue fun w' hw' r hr => ?_
    obtain ⟨c, hc, rfl⟩ := Option.map_eq_some_iff.mp hr
    exact denotes_bool.mpr (Datum.ofProp_eq_bool.mpr (compareValues_sound he hw hw' hc))
  | arith op s a b iha ihb =>
    have ha := iha ht.2.1 hbound hfresh fun x hx => hfree x (mem_append_left _ hx)
    have hb := ihb ht.2.2 hbound hfresh fun x hx => hfree x (mem_append_right _ hx)
    exact ha.andThen fun w hw => hb.bindValue fun w' hw' r hr => arithmetic_sound M hw hw' hr
  | neg t ih =>
    exact (ih ht.2 hbound hfresh hfree).bindValue fun w hw r hr => negateValue_sound hw hr
  | toReal t => exact absurd ht.1.1 (by simp [Term.isReal])
  | ite c a b ihc iha ihb =>
    have hc := (ihc ht.2.1 hbound hfresh fun x hx =>
      hfree x (mem_append_left _ (mem_append_left _ hx))).truth
    have ha := iha ht.2.2.1 hbound hfresh fun x hx =>
      hfree x (mem_append_left _ (mem_append_right _ hx))
    have hb := ihb ht.2.2.2 hbound hfresh fun x hx => hfree x (mem_append_right _ hx)
    exact ite_sound hc ha hb
  | apply f args ih =>
    obtain ⟨d, hd, hlen⟩ := ht.1.2.1
    have hf := hi.function f d hd
    have hargs : ∀ t ∈ args, (eval i bound t).Sound e F (M.value ρ' t) := fun t h =>
      ih t h (Term.everywhereIn_iff.mp ht.2 t h) hbound hfresh fun x hx =>
        hfree x (Term.mem_freeIn.mpr ⟨t, h, hx⟩)
    rw [Structure.value, Structure.values_eq_map]
    cases args with
    | nil =>
      -- the name is neither bound nor a constant, so it is the function that is looked up
      have hfS : f ∈ S := ht.1.2.2.1 f rfl
      rw [eval, symbol?_eq_result? (hfresh f hfS) (hS f hfS)]
      intro _ w hw
      exact hf [] [] w hlen.symm .nil hw
    | cons a args =>
      rw [eval]
      have hnone : (false = true → F) → List.Forall₂ (Denotes e) [].reverse [] := fun _ => .nil
      simpa using evalArgs_sound hf hargs hnone (by simpa using hlen.symm)
  | quant q x s body ih =>
    have hs : s ≠ .real := by
      rintro rfl
      exact absurd ht.1.1 (by simp [Term.isReal])
    have hx : x ∉ S := ht.1.2.2.2 x rfl
    refine Truth.Sound.outcome (quantify_domain (hi.domain s hs) fun w d hw => ?_)
    refine (ih ht.2 (hbound.cons hw) ?_ ?_).truth
    · grind
    intro y hy
    rw [lookup_cons]
    cases hyx : y == x with
    | true => exact Or.inl rfl
    | false =>
      refine hfree y (mem_filter.mpr ⟨hy, ?_⟩)
      simpa using hyx

end Eval

end Statute.Search
