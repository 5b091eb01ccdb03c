import Mathlib
import Statute.Citation

/-!
# The grammar of citations

A citation has no problem exactly if it has the form that `WellFormed` describes.
-/

namespace Statute.Citation

open List

/-- One or more characters of a kind. -/
def Run (kind : Char → Bool) (cs : List Char) : Prop := cs ≠ [] ∧ ∀ c ∈ cs, kind c

/-- A section starts with a number in range, however long it is written. -/
inductive IsSection : List Char → Prop
  | intro {digits rest : List Char} (run : Run Char.isDigit digits)
      (ends : ∀ c ∈ rest.head?, ¬ c.isDigit) (low : 1 ≤ Nat.ofDigitChars 10 digits 0)
      (high : Nat.ofDigitChars 10 digits 0 ≤ 10000) : IsSection (digits ++ rest)

/-- A subsection is a number, a word, or a number followed by letters. -/
inductive IsSubsection : List Char → Prop
  | number {digits : List Char} (run : Run Char.isDigit digits) : IsSubsection digits
  | word {letters : List Char} (run : Run Char.isAlpha letters) : IsSubsection letters
  | both {digits letters : List Char} (number : Run Char.isDigit digits)
      (word : Run Char.isAlpha letters) : IsSubsection (digits ++ letters)

/-- The form of a citation. -/
structure WellFormed (c : Citation) : Prop where
  section_form : IsSection c.sectionText.toList
  subsection_form : IsSubsection c.subsection.toList
  act_form : ∃ a ∈ c.act.toList, ¬ Text.isBlank a

theorem Run.exists {kind : Char → Bool} {cs : List Char} (h : Run kind cs) : ∃ c ∈ cs, kind c := by
  obtain ⟨c, hc⟩ := exists_mem_of_ne_nil cs h.1
  exact ⟨c, hc, h.2 c hc⟩

section Characters

variable {c : Char} {cs : List Char} {s : String}

theorem isDigit_eq : Decimal.isDigit = Char.isDigit := by
  funext c
  simp [Decimal.isDigit, Char.isDigit, Char.le_def]

theorem isLetter_eq : isLetter = Char.isAlpha := by
  funext c
  simp [isLetter, Char.isAlpha, Char.isUpper, Char.isLower, Char.le_def, Bool.or_comm]

theorem not_isBlank (h : c.isDigit ∨ c.isAlpha) : ¬ Text.isBlank c := by
  have hnat : c.toNat = c.val.toNat := rfl
  simp [Char.isDigit, Char.isAlpha, Char.isUpper, Char.isLower, UInt32.le_iff_toNat_le] at h
  simp [Text.isBlank]
  omega

theorem not_isDigit (h : c.isAlpha) : ¬ c.isDigit := by
  simp [Char.isDigit, Char.isAlpha, Char.isUpper, Char.isLower, UInt32.le_iff_toNat_le] at h ⊢
  omega

theorem isBlankText_iff : isBlankText s ↔ ∀ c ∈ s.toList, Text.isBlank c := by
  rw [isBlankText, List.isEmpty_iff, Text.trimmed, reverse_eq_nil_iff, dropWhile_eq_nil_iff]
  constructor
  · intro h c hc
    rw [← takeWhile_append_dropWhile (p := Text.isBlank) (l := s.toList), mem_append] at hc
    rcases hc with hc | hc
    · exact mem_takeWhile_imp hc
    · exact h c (mem_reverse.mpr hc)
  · intro h c hc
    exact h c ((dropWhile_suffix _).mem (mem_reverse.mp hc))

theorem not_isBlankText (h : ∃ c ∈ s.toList, c.isDigit ∨ c.isAlpha) : ¬ isBlankText s := by
  obtain ⟨c, hc, hkind⟩ := h
  exact fun hblank => not_isBlank hkind (isBlankText_iff.mp hblank c hc)

end Characters

section Sections

variable {s : String} {cs : List Char} {n : Nat}

theorem run_takeWhile (h : cs.takeWhile Char.isDigit ≠ []) :
    Run Char.isDigit (cs.takeWhile Char.isDigit) :=
  ⟨h, fun _ => mem_takeWhile_imp⟩

/-- The digits in front are all that come before something else. -/
theorem span_digits {digits rest : List Char} (run : Run Char.isDigit digits)
    (ends : ∀ c ∈ rest.head?, ¬ c.isDigit) :
    (digits ++ rest).takeWhile Char.isDigit = digits ∧
      (digits ++ rest).dropWhile Char.isDigit = rest := by
  rw [takeWhile_append_of_pos run.2, dropWhile_append_of_pos run.2]
  cases rest with
  | nil => exact ⟨append_nil _, rfl⟩
  | cons c rest =>
    rw [takeWhile_cons_of_neg (ends c rfl), dropWhile_cons_of_neg (ends c rfl), append_nil]
    exact ⟨rfl, rfl⟩

/-- A number in front is read, unless it is too large to be. -/
theorem sectionNumber?_eq_some :
    sectionNumber? s = some n ↔
      s.toList.takeWhile Char.isDigit ≠ [] ∧ n ≤ maxReadable ∧
        Nat.ofDigitChars 10 (s.toList.takeWhile Char.isDigit) 0 = n := by
  have hsign (rest : List Char) (h : s.toList.takeWhile Char.isDigit = '+' :: rest) : False := by
    have hplus : '+' ∈ s.toList.takeWhile Char.isDigit := h ▸ mem_cons_self
    exact absurd (mem_takeWhile_imp hplus) (by decide)
  rw [sectionNumber?, isDigit_eq, Decimal.natUpTo?.eq_2 _ _ hsign]
  simp only [Decimal.natural?, isDigit_eq, all_takeWhile, Bool.and_true]
  grind [Decimal.digitsValue, Nat.ofDigitChars]

theorem isSection_iff :
    IsSection s.toList ↔ ∃ n, sectionNumber? s = some n ∧ 1 ≤ n ∧ n ≤ maxSection := by
  simp only [sectionNumber?_eq_some]
  constructor
  · generalize s.toList = cs
    rintro @⟨digits, rest, run, ends, low, high⟩
    rw [(span_digits run ends).1]
    exact ⟨_, ⟨run.1, high.trans (by decide), rfl⟩, low, high⟩
  · rintro ⟨_, ⟨hne, -, rfl⟩, low, high⟩
    rw [← takeWhile_append_dropWhile (p := Char.isDigit) (l := s.toList)]
    refine ⟨run_takeWhile hne, fun c hc => ?_, low, high⟩
    have hhead := head?_dropWhile_not Char.isDigit s.toList
    rw [hc] at hhead
    simp [hhead]

theorem IsSection.exists (h : IsSection cs) : ∃ c ∈ cs, c.isDigit ∨ c.isAlpha := by
  obtain ⟨run, -, -, -⟩ := h
  obtain ⟨c, hc, hdigit⟩ := run.exists
  exact ⟨c, mem_append_left _ hc, .inl hdigit⟩

end Sections

section Subsections

variable {s : String} {cs : List Char}

theorem IsSubsection.exists (h : IsSubsection cs) : ∃ c ∈ cs, c.isDigit ∨ c.isAlpha := by
  rcases h with run | run | ⟨run, -⟩
  · exact run.exists.imp fun c h => ⟨h.1, .inl h.2⟩
  · exact run.exists.imp fun c h => ⟨h.1, .inr h.2⟩
  · exact run.exists.imp fun c h => ⟨mem_append_left _ h.1, .inl h.2⟩

theorem isSubsection_iff (h : ¬ isBlankText s) : isSubsection s ↔ IsSubsection s.toList := by
  have hne : s.toList ≠ [] := fun hnil => h (isBlankText_iff.mpr (by simp [hnil]))
  simp only [isSubsection, isDigit_eq, isLetter_eq, Bool.or_eq_true, Bool.and_eq_true,
    Bool.not_eq_true', isEmpty_eq_false_iff, all_eq_true]
  constructor
  · rintro ((hall | hall) | ⟨⟨hdigits, hne⟩, hrest⟩)
    · exact .number ⟨hne, hall⟩
    · exact .word ⟨hne, hall⟩
    · rw [← takeWhile_append_dropWhile (p := Char.isDigit) (l := s.toList)]
      exact .both (run_takeWhile hdigits) ⟨hne, hrest⟩
  · generalize s.toList = cs
    rintro (run | run | ⟨number, word⟩)
    · exact .inl (.inl run.2)
    · exact .inl (.inr run.2)
    obtain ⟨htake, hdrop⟩ := span_digits number fun c hc =>
      not_isDigit (word.2 c (mem_of_mem_head? hc))
    rw [htake, hdrop]
    exact .inr ⟨⟨number.1, word.1⟩, word.2⟩

end Subsections

/-- A citation has no problem exactly if it is well formed. -/
theorem problem?_eq_none_iff (c : Citation) : c.problem? = none ↔ WellFormed c := by
  have hchecks : c.problem? = none ↔ ¬ isBlankText c.sectionText ∧ ¬ isBlankText c.subsection ∧
      ¬ isBlankText c.act ∧ IsSection c.sectionText.toList ∧ isSubsection c.subsection := by
    rw [isSection_iff, problem?]
    grind
  rw [hchecks]
  constructor
  · rintro ⟨-, hsub, hact, hsection, hsubsection⟩
    refine ⟨hsection, (isSubsection_iff hsub).mp hsubsection, ?_⟩
    simpa [isBlankText_iff] using hact
  rintro ⟨hsection, hsubsection, a, ha, hblank⟩
  have hsub := not_isBlankText hsubsection.exists
  exact ⟨not_isBlankText hsection.exists, hsub, fun h => hblank (isBlankText_iff.mp h a ha),
    hsection, (isSubsection_iff hsub).mpr hsubsection⟩

end Statute.Citation
