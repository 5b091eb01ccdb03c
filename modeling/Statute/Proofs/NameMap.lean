import Mathlib.Data.List.Induction
import Mathlib.Data.List.Nodup
import Mathlib.Data.String.Basic
import Statute.NameMap

/-!
# Names in maps

What is found in a map under a name after pairs have been entered: the value that was entered last,
`get?_ofList`. The entries stand in rising order, `sorted_ofList`, so there is one for each name, and
going through the entries is the same as looking up names, `Sorted.get?_eq_some_iff`.
-/

namespace Statute.NameMap

open List

variable {α : Type} {m : NameMap α} {name n : String} {value v : α}

/-!
## Looking up
-/

theorem lookup_insertInto (l : List (String × α)) :
    (insertInto name value l).lookup n = if n = name then some value else l.lookup n := by
  by_cases hn : n = name
  · rw [if_pos hn, hn]
    induction l with
    | nil => simp [insertInto]
    | cons p l ih =>
      obtain ⟨k, w⟩ := p
      rw [insertInto]
      split
      · exact lookup_cons_self
      next hne =>
        split
        · exact lookup_cons_self
        have hne : (name == k) = false := by simpa using hne
        rw [lookup_cons, hne]
        exact ih
  · rw [if_neg hn]
    have hother : (n == name) = false := by simpa using hn
    induction l with
    | nil => rw [insertInto, lookup_cons, hother]
    | cons p l ih =>
      obtain ⟨k, w⟩ := p
      rw [insertInto]
      split
      next heq =>
        have heq : name = k := by simpa using heq
        rw [lookup_cons, lookup_cons, ← heq, hother]
      · split
        · rw [lookup_cons, hother]
        · rw [lookup_cons, lookup_cons, ih]

theorem get?_insert : (m.insert name value).get? n = if n = name then some value else m.get? n :=
  lookup_insertInto m.entries

theorem ofList_concat (pairs : List (String × α)) (p : String × α) :
    ofList (pairs ++ [p]) = (ofList pairs).insert p.1 p.2 := by
  unfold ofList
  rw [foldl_append]
  rfl

/-- Of several values for one name the last one stays. -/
theorem get?_ofList (pairs : List (String × α)) (n : String) :
    (ofList pairs).get? n = pairs.reverse.lookup n := by
  induction pairs using List.reverseRecOn with
  | nil => rfl
  | append_singleton pairs p ih => grind [ofList_concat, get?_insert]

/-- In a list with one pair for each name, a pair is found by its name. -/
theorem lookup_eq_some_iff {l : List (String × α)} (hl : (l.map Prod.fst).Nodup) :
    l.lookup n = some v ↔ (n, v) ∈ l := by
  induction l with
  | nil => simp
  | cons p l ih => grind

variable {pairs : List (String × α)}

/-- Pairs under different names are all in the map, and no others. -/
theorem get?_ofList_eq_some_iff (hpairs : (pairs.map Prod.fst).Nodup) :
    (ofList pairs).get? n = some v ↔ (n, v) ∈ pairs := by
  have hreverse : (pairs.reverse.map Prod.fst).Nodup := by grind
  rw [get?_ofList, lookup_eq_some_iff hreverse, mem_reverse]

/-!
## The order of the entries
-/

/-- The names rise from entry to entry. -/
def Sorted (m : NameMap α) : Prop := m.keys.Pairwise (· < ·)

theorem mem_keys_insertInto {l : List (String × α)} :
    n ∈ (insertInto name value l).map Prod.fst ↔ n = name ∨ n ∈ l.map Prod.fst := by
  induction l with
  | nil => simp [insertInto]
  | cons p l ih =>
    obtain ⟨k, w⟩ := p
    rw [insertInto]
    split
    next heq =>
      have heq : name = k := by simpa using heq
      simp [heq]
    · split
      · simp
      · grind

theorem mem_keys_insert : n ∈ (m.insert name value).keys ↔ n = name ∨ n ∈ m.keys :=
  mem_keys_insertInto

theorem isEmpty_eq_false_iff : m.isEmpty = false ↔ ∃ n, n ∈ m.keys := by
  unfold isEmpty keys
  rw [isEmpty_eq_false_iff_exists_mem]
  simp

theorem contains_iff : m.contains n ↔ n ∈ m.keys := by
  obtain ⟨l⟩ := m
  unfold contains get? keys
  induction l with
  | nil => simp
  | cons p l ih => grind

theorem mem_keys_insertIfNew : n ∈ (m.insertIfNew name value).keys ↔ n = name ∨ n ∈ m.keys := by
  unfold insertIfNew
  split
  next h =>
    have hname := contains_iff.mp h
    exact ⟨.inr, fun h => h.elim (fun hn => hn ▸ hname) id⟩
  · exact mem_keys_insert

theorem mem_keys_union {a b : NameMap α} : n ∈ (a.union b).keys ↔ n ∈ a.keys ∨ n ∈ b.keys := by
  obtain ⟨l⟩ := b
  unfold union
  induction l generalizing a with
  | nil => simp [keys]
  | cons p l ih =>
    rw [foldl_cons, ih, mem_keys_insertIfNew]
    simp only [keys, map_cons, mem_cons]
    rw [or_assoc]
    exact or_left_comm

theorem Sorted.insert (h : m.Sorted) (name : String) (value : α) : (m.insert name value).Sorted := by
  obtain ⟨l⟩ := m
  unfold Sorted keys NameMap.insert at *
  induction l with
  | nil => exact pairwise_singleton _ _
  | cons p l ih =>
    obtain ⟨k, w⟩ := p
    rw [map_cons, pairwise_cons] at h
    rw [insertInto]
    split
    next heq =>
      have heq : name = k := by simpa using heq
      rw [map_cons, pairwise_cons]
      exact ⟨fun n hn => heq ▸ h.1 n hn, h.2⟩
    next hne =>
      split
      next hlt =>
        rw [map_cons, map_cons, pairwise_cons, pairwise_cons]
        refine ⟨forall_mem_cons.mpr ⟨hlt, fun n hn => lt_trans hlt (h.1 n hn)⟩, h⟩
      next hlt =>
        have hne : name ≠ k := by simpa using hne
        rw [map_cons, pairwise_cons]
        refine ⟨fun n hn => ?_, ih h.2⟩
        rcases mem_keys_insertInto.mp hn with rfl | hn
        · exact lt_of_le_of_ne (not_lt.mp hlt) hne.symm
        · exact h.1 n hn

theorem Sorted.insertIfNew (h : m.Sorted) (name : String) (value : α) :
    (m.insertIfNew name value).Sorted := by
  unfold NameMap.insertIfNew
  split
  · exact h
  · exact h.insert name value

theorem Sorted.union {a : NameMap α} (h : a.Sorted) (b : NameMap α) : (a.union b).Sorted := by
  obtain ⟨l⟩ := b
  unfold NameMap.union
  induction l generalizing a with
  | nil => exact h
  | cons p l ih => exact ih (h.insertIfNew p.1 p.2)

theorem sorted_ofList (pairs : List (String × α)) : (ofList pairs).Sorted := by
  induction pairs using List.reverseRecOn with
  | nil => exact .nil
  | append_singleton pairs p ih =>
    rw [ofList_concat]
    exact ih.insert p.1 p.2

/-- Entries in rising order can be entered in any order, for example the last one first. -/
theorem Sorted.ofList_reverse (h : m.Sorted) : ofList m.entries.reverse = m := by
  obtain ⟨l⟩ := m
  induction l with
  | nil => rfl
  | cons p l ih =>
    obtain ⟨hlt, h⟩ := pairwise_cons.mp h
    rw [reverse_cons, ofList_concat, ih h, NameMap.insert]
    cases l with
    | nil => rfl
    | cons q l =>
      have hpq : p.1 < q.1 := hlt q.1 mem_cons_self
      rw [insertInto, if_neg (by simpa using hpq.ne), if_pos hpq]

theorem Sorted.map {β : Type} (h : m.Sorted) (f : α → β) : (m.map f).Sorted := by
  have hkeys : (m.map f).keys = m.keys := by simp [keys, NameMap.map]
  rw [Sorted, hkeys]
  exact h

theorem map_eq_self_iff {f : α → α} : m.map f = m ↔ ∀ p ∈ m.entries, f p.2 = p.2 := by
  obtain ⟨l⟩ := m
  rw [map, mk.injEq]
  induction l with
  | nil => simp
  | cons p l ih =>
    rw [map_cons, List.cons.injEq, ih, forall_mem_cons]
    simp [Prod.ext_iff]

theorem Sorted.nodup (h : m.Sorted) : m.keys.Nodup := h.imp fun hlt => hlt.ne

theorem Sorted.get?_eq_some_iff (h : m.Sorted) : m.get? n = some v ↔ (n, v) ∈ m.entries :=
  lookup_eq_some_iff h.nodup

theorem mem_ofList (hpairs : (pairs.map Prod.fst).Nodup) (p : String × α) :
    p ∈ (ofList pairs).entries ↔ p ∈ pairs := by
  rw [← (sorted_ofList pairs).get?_eq_some_iff, get?_ofList_eq_some_iff hpairs]

end Statute.NameMap
