import Statute.Proofs.Logic.Structure
import Statute.Search.Space

/-!
# Domains cover what they say

The values that a search tries stand for values of a structure. This module says which
(`Denotes`), and that the domain of a sort keeps its word: its values stand for values of the sort,
and unless it is only a sample, each value of the sort is among them. The window of whole numbers
between two limits is `intWindow`; `within_of_mem_intWindow` and `mem_intWindow` say that it holds
numbers within the limits only, and all of them if it claims so.
-/

namespace Statute.Search

open Logic List

universe u

section Window

theorem anchor_mem {lo hi : Int} (h : lo ≤ hi) : lo ≤ anchor lo hi ∧ anchor lo hi ≤ hi := by
  unfold anchor
  split
  · exact ⟨h, Int.le_refl hi⟩
  · split <;> omega

theorem mem_around {lo hi center n : Int} {reach : Nat} :
    n ∈ around lo hi center reach ↔
      (lo ≤ n ∧ n ≤ hi) ∧ ∃ k < reach, n = center + (k + 1) ∨ n = center - (k + 1) := by
  simp only [around, mem_flatMap, mem_range, mem_filter, mem_cons,
    not_mem_nil, or_false, Bool.and_eq_true, decide_eq_true_eq]
  constructor
  · grind
  · grind

/-- The numbers of a window are within the limits. -/
theorem within_of_mem_intWindow {bound n lower upper} (hn : n ∈ (intWindow bound lower upper).1) :
    (∀ l, lower = some l → l ≤ n) ∧ ∀ h, upper = some h → n ≤ h := by
  have hlim : lower.getD Whole.least ≤ n ∧ n ≤ upper.getD Whole.greatest := by
    unfold intWindow at hn
    dsimp only at hn
    split at hn
    · cases hn
    next hle =>
      rcases mem_cons.mp hn with rfl | hn
      · exact anchor_mem (Int.not_lt.mp hle)
      · exact (mem_around.mp hn).1
  constructor
  · rintro l rfl
    exact hlim.1
  · rintro h rfl
    exact hlim.2

/-- A window that claims to be full is: it has both limits, and all numbers between them. -/
theorem mem_intWindow {bound n lower upper} (hfull : (intWindow bound lower upper).2 = .exhaustive)
    (hne : (intWindow bound lower upper).1 ≠ []) (hlower : ∀ l, lower = some l → l ≤ n)
    (hupper : ∀ h, upper = some h → n ≤ h) : n ∈ (intWindow bound lower upper).1 := by
  unfold intWindow at hfull hne ⊢
  dsimp only at hfull hne ⊢
  split at hfull
  next h => exact absurd (by rw [if_pos h]) hne
  next hle =>
    rw [if_neg hle]
    split at hfull
    next hboth =>
      rw [if_pos hboth]
      obtain ⟨⟨hl, hu⟩, -⟩ : (lower.isSome = true ∧ upper.isSome = true) ∧ _ := by
        simpa only [Bool.and_eq_true] using hboth
      obtain ⟨lo, rfl⟩ := Option.isSome_iff_exists.mp hl
      obtain ⟨hi, rfl⟩ := Option.isSome_iff_exists.mp hu
      have hlo := hlower lo rfl
      have hhi := hupper hi rfl
      have hanchor := anchor_mem (Int.not_lt.mp hle)
      simp only [Option.getD_some] at hanchor ⊢
      -- a number other than the anchor is at a distance that is reached
      rcases Int.lt_trichotomy n (anchor lo hi) with hlt | heq | hgt
      · refine mem_cons_of_mem _ (mem_around.mpr ⟨⟨hlo, hhi⟩, ?_⟩)
        exact ⟨(anchor lo hi - n - 1).toNat, by omega, Or.inr (by omega)⟩
      · rw [heq]
        exact mem_cons_self
      · refine mem_cons_of_mem _ (mem_around.mpr ⟨⟨hlo, hhi⟩, ?_⟩)
        exact ⟨(n - anchor lo hi - 1).toNat, by omega, Or.inl (by omega)⟩
    · cases hfull

/-- Without limits a window is a sample. -/
theorem intWindow_sampled (bound : Int) : (intWindow bound none none).2 = .sampled := rfl

end Window

/-- The elements that stand behind the numbered values of free sorts, as far as there are such. -/
abbrev Elements (α : Type u) := String → Nat → Option α

variable {α : Type u}

/-- The value of a structure that a value of the search stands for. Numbers that are only
approximations stand for nothing. -/
def datum? (e : Elements α) : Value → Option (Datum α)
  | .int n => some (.int n)
  | .bool b => some (.bool b)
  | .str s => some (.str s)
  | .variant s v => some (.variant s v)
  | .element s k => (e s k).map (.element s)
  | .real _ => none
  | .raw _ => none

/-- The value stands for the value of the structure. -/
def Denotes (e : Elements α) (w : Value) (d : Datum α) : Prop := datum? e w = some d

/-- Different numbers stand for different elements. -/
def Separates (e : Elements α) : Prop :=
  ∀ s k l x, e s k = some x → e s l = some x → k = l

variable {w w' : Value} {d d' : Datum α} {s t : String}

section Denotes

variable {e : Elements α} {w : Value}

attribute [local simp] datum? instBEqValue.beq

theorem Denotes.unique (h : Denotes e w d) (h' : Denotes e w d') : d = d' :=
  Option.some.inj (h.symm.trans h')

@[simp] theorem denotes_int {n : Int} : Denotes e (.int n) d ↔ d = .int n := by
  simp [Denotes, eq_comm]

@[simp] theorem denotes_bool {b : Bool} : Denotes e (.bool b) d ↔ d = .bool b := by
  simp [Denotes, eq_comm]

@[simp] theorem denotes_str : Denotes e (.str s) d ↔ d = .str s := by
  simp [Denotes, eq_comm]

@[simp] theorem denotes_variant {v : String} : Denotes e (.variant s v) d ↔ d = .variant s v := by
  simp [Denotes, eq_comm]

@[simp] theorem denotes_element {k : Nat} :
    Denotes e (.element s k) d ↔ ∃ x, e s k = some x ∧ d = .element s x := by
  simp [Denotes, eq_comm]

@[simp] theorem not_denotes_real {x : Float} : ¬Denotes e (.real x) d := by
  simp [Denotes]

@[simp] theorem not_denotes_raw : ¬Denotes e (.raw t) d := by
  simp [Denotes]

/-- Values that stand for something are equal just if the test says so. -/
theorem beq_iff_of_denotes (h : Denotes e w d) : (w == w') ↔ w = w' := by
  cases w with
  | real x => exact absurd h not_denotes_real
  | raw t => exact absurd h not_denotes_raw
  | int | bool | str | variant | element =>
    cases w' <;> simp [BEq.beq]

theorem eq_of_beq_of_denotes (h : Denotes e w' d) (heq : (w == w')) : w = w' := by
  cases w' with
  | real x => exact absurd h not_denotes_real
  | raw t => exact absurd h not_denotes_raw
  | int | bool | str | variant | element =>
    cases w <;> simp_all [BEq.beq]

/-- Values that stand for the same are the same. -/
theorem Denotes.injective (he : Separates e) (h : Denotes e w d) (h' : Denotes e w' d) :
    w = w' := by
  cases w with
  | real x => exact absurd h not_denotes_real
  | raw t => exact absurd h not_denotes_raw
  | element s k =>
    obtain ⟨x, hx, rfl⟩ := denotes_element.mp h
    cases w' with
    | element s' k' =>
      obtain ⟨x', hx', heq⟩ := denotes_element.mp h'
      cases heq
      rw [he s k k' x hx hx']
    | real | raw | int | bool | str | variant => simp at h'
  | int | bool | str | variant =>
    cases w' <;> simp_all

end Denotes

/-- The numbered elements of the free sorts of a vocabulary are all elements of the structure. -/
def ElementsAre (e : Elements α) (M : Structure α) (v : Vocabulary) : Prop :=
  ∀ n, .free n ∈ v.sorts →
    (∀ k < freeSize, ∃ x ∈ M.elements n, e n k = some x) ∧
      ∀ x ∈ M.elements n, ∃ k < freeSize, e n k = some x

/-- The enums of a vocabulary have the variants they are declared with. -/
def VariantsAre (M : Structure α) (v : Vocabulary) : Prop :=
  ∀ n vs, .enum n vs ∈ v.sorts → M.variants n = vs

/-- The domain keeps its word about a set: its values stand for members of the set, and unless it is
a sample, every member is among them. A domain that is complete in the model at hand only is
believed if `F` holds. -/
structure Domain.Faithful (e : Elements α) (F : Prop) (D : Domain) (s : Set (Datum α)) : Prop where
  sound : (D.extent = .inModel → F) → ∀ w ∈ D.values, ∃ d ∈ s, Denotes e w d
  full : (D.extent = .inModel → F) → D.extent ≠ .sampled → ∀ d ∈ s, ∃ w ∈ D.values, Denotes e w d

theorem mem_of_lookup {β γ : Type} [BEq β] [LawfulBEq β] {l : List (β × γ)} {k : β} {x : γ}
    (h : l.lookup k = some x) : (k, x) ∈ l := by
  obtain ⟨l₁, l₂, rfl, -⟩ := List.lookup_eq_some_iff.mp h
  exact mem_append_right _ mem_cons_self

/-- The domain of a declared sort comes from its declaration. -/
theorem domain_of_lookup {v : Vocabulary} {s : SmtSort} {D : Domain}
    (h : (v.sorts.map Universe.declaredDomain).lookup s = some D) :
    (∃ n vs, .enum n vs ∈ v.sorts ∧ s = .enum n ∧ D = ⟨vs.map (Value.variant n), .exhaustive⟩) ∨
      ∃ n, .free n ∈ v.sorts ∧ s = .free n ∧
        D = ⟨(List.range freeSize).map (Value.element n), .inModel⟩ := by
  obtain ⟨decl, hmem, hdecl⟩ := mem_map.mp (mem_of_lookup h)
  cases decl with
  | enum n vs =>
    cases hdecl
    exact Or.inl ⟨n, vs, hmem, rfl, rfl⟩
  | free n =>
    cases hdecl
    exact Or.inr ⟨n, hmem, rfl, rfl⟩

section Universe

variable {e : Elements α} {F : Prop} {M : Structure α} {v : Vocabulary} {c : ConstDecl}

/-- A domain without values that claims nothing. -/
theorem faithful_empty (s : Set (Datum α)) : Domain.Faithful e F {} s :=
  ⟨fun _ _ hw => (not_mem_nil hw).elim, fun _ h => absurd rfl h⟩

theorem faithful_declared (hM : VariantsAre M v) (hF : F → ElementsAre e M v) (s : SmtSort) :
    Domain.Faithful e F (((v.sorts.map Universe.declaredDomain).lookup s).getD {})
      (M.carrier s) := by
  cases h : (v.sorts.map Universe.declaredDomain).lookup s with
  | none => exact faithful_empty _
  | some D =>
    rcases domain_of_lookup h with ⟨n, vs, hn, rfl, rfl⟩ | ⟨n, hn, rfl, rfl⟩
    · have hvs := hM n vs hn
      refine ⟨?_, ?_⟩
      · intro _ w hw
        obtain ⟨x, hx, rfl⟩ := mem_map.mp hw
        exact ⟨.variant n x, ⟨x, hvs ▸ hx, rfl⟩, denotes_variant.mpr rfl⟩
      · rintro _ _ d ⟨x, hx, rfl⟩
        exact ⟨.variant n x, mem_map_of_mem (hvs ▸ hx), denotes_variant.mpr rfl⟩
    · refine ⟨?_, ?_⟩
      · intro hf w hw
        obtain ⟨k, hk, rfl⟩ := mem_map.mp hw
        obtain ⟨x, hx, he⟩ := (hF (hf rfl) n hn).1 k (mem_range.mp hk)
        exact ⟨.element n x, ⟨x, hx, rfl⟩, denotes_element.mpr ⟨x, he, rfl⟩⟩
      · rintro hf _ d ⟨x, hx, rfl⟩
        obtain ⟨k, hk, he⟩ := (hF (hf rfl) n hn).2 x hx
        exact ⟨.element n k, mem_map_of_mem (mem_range.mpr hk),
          denotes_element.mpr ⟨x, he, rfl⟩⟩

/-- The domain of each sort but that of real numbers keeps its word. -/
theorem faithful_domain (hM : VariantsAre M v) (hF : F → ElementsAre e M v) (bound : Int)
    {s : SmtSort} (hs : s ≠ .real) :
    Domain.Faithful e F ((Universe.ofVocabulary v bound).domain s) (M.carrier s) := by
  cases s with
  | real => exact absurd rfl hs
  | enum n => exact faithful_declared hM hF (.enum n)
  | free n => exact faithful_declared hM hF (.free n)
  | bool =>
    refine ⟨?_, ?_⟩
    · intro _ w hw
      obtain ⟨b, rfl⟩ : ∃ b, w = .bool b := by
        rcases mem_cons.mp hw with rfl | hw
        · exact ⟨false, rfl⟩
        · exact ⟨true, mem_singleton.mp hw⟩
      exact ⟨.bool b, ⟨b, rfl⟩, denotes_bool.mpr rfl⟩
    · rintro _ _ d ⟨b, rfl⟩
      refine ⟨.bool b, ?_, denotes_bool.mpr rfl⟩
      cases b
      · exact mem_cons_self
      · exact mem_cons_of_mem _ mem_cons_self
  | int =>
    refine ⟨?_, fun _ h => absurd (intWindow_sampled bound) h⟩
    intro _ w hw
    obtain ⟨n, -, rfl⟩ := mem_map.mp hw
    exact ⟨.int n, ⟨n, rfl⟩, denotes_int.mpr rfl⟩
  | string =>
    refine ⟨?_, fun _ h => absurd rfl h⟩
    intro _ w hw
    obtain ⟨t, -, rfl⟩ := mem_map.mp hw
    exact ⟨.str t, ⟨t, rfl⟩, denotes_str.mpr rfl⟩

theorem constDomain_int (u : Universe) (bound : Int) (hc : c.sort = .int) :
    Space.constDomain u bound c = intDomain bound c.lower c.upper := by
  rw [Space.constDomain, hc]

theorem constDomain_of_ne (u : Universe) (bound : Int) (hc : c.sort ≠ .int) :
    Space.constDomain u bound c = u.domain c.sort := by
  unfold Space.constDomain
  split
  next h => exact absurd h hc
  · rfl

/-- The values tried for a constant are of its sort and within its limits. -/
theorem constDomain_sound (hM : VariantsAre M v) (hF : F → ElementsAre e M v) (bound : Int)
    (hc : c.sort ≠ .real)
    (hf : (Space.constDomain (Universe.ofVocabulary v bound) bound c).extent = .inModel → F) :
    ∀ w ∈ (Space.constDomain (Universe.ofVocabulary v bound) bound c).values,
      ∃ d ∈ M.carrier c.sort, Denotes e w d ∧ (c.sort = .int → c.Within d) := by
  intro w hw
  by_cases hint : c.sort = .int
  · rw [constDomain_int _ _ hint] at hw
    obtain ⟨n, hn, rfl⟩ := mem_map.mp hw
    obtain ⟨hl, hu⟩ := within_of_mem_intWindow hn
    rw [hint]
    refine ⟨.int n, ⟨n, rfl⟩, denotes_int.mpr rfl, fun _ => ⟨?_, ?_⟩⟩
    · intro l h
      exact Datum.atMost_int.mpr (hl l h)
    · intro l h
      exact Datum.atMost_int.mpr (hu l h)
  · rw [constDomain_of_ne _ _ hint] at hw hf
    obtain ⟨d, hd, hwd⟩ := (faithful_domain hM hF bound hc).sound hf w hw
    exact ⟨d, hd, hwd, fun h => absurd h hint⟩

/-- If the values tried for a constant are all, each value within its limits is among them. -/
theorem constDomain_full (hM : VariantsAre M v) (hF : F → ElementsAre e M v) (bound : Int)
    (hc : c.sort ≠ .real)
    (hall : (Space.constDomain (Universe.ofVocabulary v bound) bound c).extent = .exhaustive)
    (hne : (Space.constDomain (Universe.ofVocabulary v bound) bound c).values ≠ [])
    (hd : d ∈ M.carrier c.sort) (hlim : c.sort = .int → c.Within d) :
    ∃ w ∈ (Space.constDomain (Universe.ofVocabulary v bound) bound c).values, Denotes e w d := by
  by_cases hint : c.sort = .int
  · rw [constDomain_int _ _ hint] at hall hne ⊢
    rw [hint] at hd
    obtain ⟨n, rfl⟩ := hd
    obtain ⟨hl, hu⟩ := hlim hint
    have hne' : (intWindow bound c.lower c.upper).1 ≠ [] := by
      intro h
      exact hne (by simp [intDomain, h])
    refine ⟨.int n, mem_map_of_mem (mem_intWindow hall hne' ?_ ?_), denotes_int.mpr rfl⟩
    · intro l h
      exact Datum.atMost_int.mp (hl l h)
    · intro l h
      exact Datum.atMost_int.mp (hu l h)
  · rw [constDomain_of_ne _ _ hint] at hall ⊢
    exact (faithful_domain hM hF bound hc).full (by rw [hall]; intro h; cases h)
      (by rw [hall]; intro h; cases h) d hd

end Universe

end Statute.Search
