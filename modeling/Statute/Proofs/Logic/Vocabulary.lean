import Statute.Logic.Vocabulary

/-!
# Growing vocabularies

What a declaration adds to a vocabulary. What is declared stays, and a second declaration of a name
changes nothing.
-/

namespace Statute.Logic.Vocabulary

open List

variable {v : Vocabulary}

section addSort

variable {d : SortDecl}

@[simp] theorem functions_addSort : (v.addSort d).functions = v.functions := by
  unfold addSort
  split <;> rfl

@[simp] theorem constants_addSort : (v.addSort d).constants = v.constants := by
  unfold addSort
  split <;> rfl

theorem mem_addSort {s : SortDecl} (h : s ∈ (v.addSort d).sorts) : s ∈ v.sorts ∨ s = d := by
  unfold addSort at h
  split at h
  · exact .inl h
  · exact (mem_append.mp h).imp id mem_singleton.mp

end addSort

section addFunction

variable {d : FunDecl}

@[simp] theorem sorts_addFunction : (v.addFunction d).sorts = v.sorts := by
  unfold addFunction
  split <;> rfl

@[simp] theorem constants_addFunction : (v.addFunction d).constants = v.constants := by
  unfold addFunction
  split <;> rfl

theorem mem_addFunction {f : FunDecl} (h : f ∈ (v.addFunction d).functions) :
    f ∈ v.functions ∨ f = d := by
  unfold addFunction at h
  split at h
  · exact .inl h
  · exact (mem_append.mp h).imp id mem_singleton.mp

theorem function?_of_function? {name f} (h : v.function? name = some f) :
    (v.addFunction d).function? name = some f := by
  unfold addFunction
  split
  · exact h
  · grind [function?]

/-- After its declaration there is a function of the name: the one declared first. -/
theorem exists_function?_addFunction :
    ∃ f ∈ (v.addFunction d).functions, (v.addFunction d).function? d.name = some f := by
  cases hf : v.function? d.name with
  | some f =>
    have hfound := function?_of_function? (d := d) hf
    exact ⟨f, mem_of_find?_eq_some hfound, hfound⟩
  | none =>
    have hfound : (v.addFunction d).function? d.name = some d := by grind [function?, addFunction]
    exact ⟨d, mem_of_find?_eq_some hfound, hfound⟩

end addFunction

section addConstant

variable {c : ConstDecl}

@[simp] theorem sorts_addConstant : (v.addConstant c).sorts = v.sorts := by
  unfold addConstant
  split <;> rfl

@[simp] theorem functions_addConstant : (v.addConstant c).functions = v.functions := by
  unfold addConstant
  split <;> rfl

theorem mem_addConstant {d : ConstDecl} (h : d ∈ (v.addConstant c).constants) :
    d ∈ v.constants ∨ d = c := by
  unfold addConstant at h
  split at h
  · exact .inl h
  · exact (mem_append.mp h).imp id mem_singleton.mp

theorem subset_addConstant : v.constants ⊆ (v.addConstant c).constants := by
  intro d hd
  unfold addConstant
  split
  · exact hd
  · exact mem_append_left _ hd

theorem constants_addConstant (hc : ∀ d ∈ v.constants, d.symbol ≠ c.symbol) :
    (v.addConstant c).constants = v.constants ++ [c] := by
  unfold addConstant
  rw [if_neg]
  intro h
  obtain ⟨d, hd, he⟩ := any_eq_true.mp h
  exact hc d hd (by simpa using he)

/-- After its declaration there is a constant of the symbol. -/
theorem exists_mem_addConstant : ∃ d ∈ (v.addConstant c).constants, d.symbol = c.symbol := by
  unfold addConstant
  split
  next h => grind
  · exact ⟨c, mem_append_right _ (mem_singleton_self c), rfl⟩

end addConstant

end Statute.Logic.Vocabulary
