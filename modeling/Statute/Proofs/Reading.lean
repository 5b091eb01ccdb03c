import Mathlib.Data.List.Basic
import Statute.Types.Ty

/-!
# Texts that can be read back

A text is read from left to right. A word ends where one of some marks comes that it does not
contain, `wordBefore`, so words before marks can be told apart, `eq_of_words`. Numbers, dates and
what may stand in their place can be told from their texts, `limitText_injective` and
`dateText_injective`.
-/

namespace Statute

open List

variable {marks rest cs ds rest' : List Char} {c : Char} {n : Nat} {s t : String}

/-!
## Words and lists
-/

/-- What follows starts with one of the marks, if there is anything. -/
def StopsAt (marks rest : List Char) : Prop := ∀ c ∈ rest.head?, c ∈ marks

theorem stopsAt_nil (marks : List Char) : StopsAt marks [] := by
  intro c hc
  cases hc

theorem stopsAt_cons (hc : c ∈ marks) (rest : List Char) : StopsAt marks (c :: rest) := by
  intro d hd
  cases hd
  exact hc

theorem StopsAt.mono {marks' : List Char} (h : StopsAt marks rest) (hsub : marks ⊆ marks') :
    StopsAt marks' rest :=
  fun c hc => hsub (h c hc)

/-- The word at the start of a text, up to the first mark, and the rest. -/
def wordBefore (marks cs : List Char) : String × List Char :=
  (String.ofList (cs.takeWhile fun c => !marks.contains c),
    cs.dropWhile fun c => !marks.contains c)

theorem wordBefore_append (hs : ∀ c ∈ s.toList, c ∉ marks) (hrest : StopsAt marks rest) :
    wordBefore marks (s.toList ++ rest) = (s, rest) := by
  have hfree : ∀ c ∈ s.toList, (!marks.contains c) = true := by simpa using hs
  unfold wordBefore
  rw [takeWhile_append_of_pos hfree, dropWhile_append_of_pos hfree]
  cases rest with
  | nil => simp
  | cons c rest => simp [hrest c rfl]

/-- Two words without marks are the same, if marks follow and the texts are the same. -/
theorem eq_of_words (hs : ∀ c ∈ s.toList, c ∉ marks) (ht : ∀ c ∈ t.toList, c ∉ marks)
    (hrest : StopsAt marks rest) (hrest' : StopsAt marks rest')
    (h : s.toList ++ rest = t.toList ++ rest') : s = t ∧ rest = rest' := by
  have hread := wordBefore_append hs hrest
  rw [h, wordBefore_append ht hrest'] at hread
  exact Prod.mk.inj hread.symm

/-- The word up to a mark, and what comes after the mark. -/
def before? (mark : Char) (cs : List Char) : Option (String × List Char) :=
  match wordBefore [mark] cs with
  | (w, _ :: rest) => some (w, rest)
  | _ => none

theorem before?_append {mark : Char} (hs : mark ∉ s.toList) (rest : List Char) :
    before? mark (s.toList ++ mark :: rest) = some (s, rest) := by
  rw [before?, wordBefore_append (by grind) (stopsAt_cons mem_cons_self rest)]

/-- A word ends at a mark that is in neither. -/
theorem eq_of_mark {mark : Char} (hs : mark ∉ s.toList) (ht : mark ∉ t.toList)
    (h : s.toList ++ mark :: rest = t.toList ++ mark :: rest') : s = t ∧ rest = rest' := by
  have hread := before?_append hs rest
  rw [h, before?_append ht rest'] at hread
  exact Prod.mk.inj (Option.some.inj hread.symm)

/-- What comes after a mark for the last time is the same. -/
theorem eq_of_last_mark {mark : Char} (hrest : mark ∉ rest) (hrest' : mark ∉ rest')
    (h : s.toList ++ mark :: rest = t.toList ++ mark :: rest') : s = t ∧ rest = rest' := by
  have hreversed : (String.ofList rest.reverse).toList ++ mark :: s.toList.reverse =
      (String.ofList rest'.reverse).toList ++ mark :: t.toList.reverse := by
    simpa using congrArg List.reverse h
  obtain ⟨hlast, hfirst⟩ := eq_of_mark (by simpa using hrest) (by simpa using hrest') hreversed
  exact ⟨String.toList_injective (reverse_inj.mp hfirst), reverse_inj.mp (String.ofList_inj.mp hlast)⟩

/-- What comes after a text that stands at the start. -/
def after? (s : String) (cs : List Char) : Option (List Char) := s.toList.isPrefixOf? cs

theorem after?_append (s : String) (rest : List Char) : after? s (s.toList ++ rest) = some rest :=
  isPrefixOf?_eq_some_iff_append_eq.mpr rfl

/-- Texts after the first of a list, with commas in front. -/
def laterTexts (ss : List String) : List Char := ss.flatMap fun s => ',' :: ' ' :: s.toList

theorem laterTexts_cons (s : String) (ss : List String) :
    laterTexts (s :: ss) = ',' :: ' ' :: (s.toList ++ laterTexts ss) :=
  rfl

theorem stopsAt_laterTexts (hcomma : ',' ∈ marks) (hrest : StopsAt marks rest) (ss : List String) :
    StopsAt marks (laterTexts ss ++ rest) := by
  cases ss with
  | nil => exact hrest
  | cons s ss => exact stopsAt_cons hcomma _

/-- Words without commas can be told from their texts. -/
theorem eq_of_laterTexts {ss ts : List String} (hss : ∀ s ∈ ss, ',' ∉ s.toList)
    (hts : ∀ t ∈ ts, ',' ∉ t.toList) (h : laterTexts ss = laterTexts ts) : ss = ts := by
  induction ss generalizing ts with
  | nil =>
    cases ts with
    | nil => rfl
    | cons => cases h
  | cons s ss ih =>
    cases ts with
    | nil => cases h
    | cons t ts =>
      obtain ⟨hs, hss⟩ := forall_mem_cons.mp hss
      obtain ⟨ht, hts⟩ := forall_mem_cons.mp hts
      have hstops (ss : List String) : StopsAt [','] (laterTexts ss) := by
        simpa using stopsAt_laterTexts mem_cons_self (stopsAt_nil [',']) ss
      obtain ⟨hfirst, hlater⟩ := eq_of_words (by grind) (by grind) (hstops ss) (hstops ts)
        (List.cons.inj (List.cons.inj h).2).2
      rw [hfirst, ih hss hts hlater]

theorem toList_comma_intercalate (s : String) (ss : List String) :
    (", ".intercalate (s :: ss)).toList = s.toList ++ laterTexts ss := by
  induction ss generalizing s with
  | nil => exact (append_nil _).symm
  | cons t ss ih =>
    rw [String.intercalate_cons_cons, String.toList_append, String.toList_append, ih, append_assoc]
    rfl

/-!
## Numbers
-/

/-- The marks that numbers and dates are made of, besides digits. -/
def IsNumberMark (c : Char) : Prop := c.isDigit = true ∨ c ∈ ['-', '+', '_']

theorem isNumberMark_of_mem_toDigits (h : c ∈ Nat.toDigits 10 n) : IsNumberMark c :=
  .inl (Nat.isDigit_of_mem_toDigits (by omega) (by omega) h)

theorem not_isNumberMark (hc : c ∈ [' ', ',', '.', ':', '<', '>', '[', ']']) : ¬IsNumberMark c := by
  have hmarks : ([' ', ',', '.', ':', '<', '>', '[', ']'].all fun c =>
      !(c.isDigit || ['-', '+', '_'].contains c)) = true := by decide
  simpa [IsNumberMark] using all_eq_true.mp hmarks c hc

theorem toDigits_injective {m : Nat} (h : Nat.toDigits 10 m = Nat.toDigits 10 n) : m = n := by
  have hvalue := congrArg (Nat.ofDigitChars 10 · 0) h
  simpa only [Nat.ofDigitChars_ten_toDigits] using hvalue

/-- A number without sign starts with a digit. -/
theorem toDigits_ne_cons (hc : c.isDigit = false) : Nat.toDigits 10 n ≠ c :: cs := by
  intro heq
  have hmem : c ∈ Nat.toDigits 10 n := heq ▸ mem_cons_self
  rw [Nat.isDigit_of_mem_toDigits (by omega) (by omega) hmem] at hc
  cases hc

theorem toList_toString_int (n : Int) : (toString n).toList =
    if 0 ≤ n then Nat.toDigits 10 n.toNat else '-' :: Nat.toDigits 10 (-n).toNat := by
  rw [Int.toString_eq_repr, Int.repr_eq_if]
  split
  · exact Nat.toList_repr
  · rw [String.toList_append, Nat.toList_repr]
    rfl

theorem toString_int_injective {m n : Int} (h : toString m = toString n) : m = n := by
  have hlists := congrArg String.toList h
  rw [toList_toString_int, toList_toString_int] at hlists
  by_cases hm : 0 ≤ m
  · grind [toDigits_injective, toDigits_ne_cons]
  · grind [toDigits_ne_cons, toDigits_injective]

/-- A missing limit is not taken for a number. -/
theorem toString_int_ne (n : Int) : toString n ≠ "_" := by
  intro h
  have hlist := congrArg String.toList h
  rw [toList_toString_int] at hlist
  split at hlist
  · exact toDigits_ne_cons rfl hlist
  · exact absurd (List.cons.inj hlist).1 (by decide)

/-- A limit can be told from its text. -/
theorem limitText_injective {m n : Option Int}
    (h : TypeExpr.limitText m = TypeExpr.limitText n) : m = n := by
  cases m with
  | none =>
    cases n with
    | none => rfl
    | some n => exact absurd h.symm (toString_int_ne n)
  | some m =>
    cases n with
    | none => exact absurd h (toString_int_ne m)
    | some n => rw [toString_int_injective h]

theorem isNumberMark_of_mem_limitText {n : Option Int} (h : c ∈ (TypeExpr.limitText n).toList) :
    IsNumberMark c := by
  cases n with
  | none =>
    obtain rfl : c = '_' := by simpa [TypeExpr.limitText] using h
    exact .inr (by decide)
  | some n =>
    replace h : c ∈ (toString n).toList := h
    rw [toList_toString_int] at h
    split at h
    · exact isNumberMark_of_mem_toDigits h
    rcases mem_cons.mp h with rfl | h
    · exact .inr (by decide)
    · exact isNumberMark_of_mem_toDigits h

/-!
## Dates
-/

namespace Date

theorem toList_padded (width n : Nat) : (padded width n).toList =
    List.replicate (width - (Nat.toDigits 10 n).length) '0' ++ Nat.toDigits 10 n :=
  String.toList_ofList

theorem padded_injective {width m : Nat} (h : (padded width m).toList = (padded width n).toList) :
    m = n := by
  rw [toList_padded, toList_padded] at h
  have hvalue := congrArg (Nat.ofDigitChars 10 · 0) h
  simpa only [Nat.ofDigitChars_append, Nat.ofDigitChars_replicate_zero, Nat.mul_zero,
    Nat.ofDigitChars_ten_toDigits] using hvalue

/-- Months and days are written with two digits. -/
theorem length_padded_two (hn : n < 100) : (padded 2 n).toList.length = 2 := by
  have hdigits : (Nat.toDigits 10 n).length ≤ 2 :=
    (Nat.length_toDigits_le_iff (by omega) (by omega)).mpr hn
  rw [toList_padded, length_append, length_replicate]
  omega

theorem isDigit_of_mem_padded {width : Nat} (h : c ∈ (padded width n).toList) :
    c.isDigit := by
  rw [toList_padded] at h
  rcases mem_append.mp h with h | h
  · rw [eq_of_mem_replicate h]
    rfl
  · exact Nat.isDigit_of_mem_toDigits (by omega) (by omega) h

/-- A year is written with or without a sign. -/
theorem toList_yearText (y : Int) : ∃ sign, (yearText y).toList = sign ++ (padded 4 y.natAbs).toList ∧
    (∀ c ∈ sign, c ∈ ['-', '+']) ∧ (sign = ['-'] ↔ y < 0) := by
  unfold yearText
  by_cases hneg : y < 0
  · rw [if_pos hneg, String.toList_append]
    exact ⟨_, rfl, by simp, iff_of_true rfl hneg⟩
  rw [if_neg hneg]
  by_cases hle : y ≤ 9999
  · rw [if_pos hle]
    exact ⟨[], rfl, by simp, iff_of_false (by simp) hneg⟩
  · rw [if_neg hle, String.toList_append]
    exact ⟨_, rfl, by simp, iff_of_false (by simp) hneg⟩

theorem yearText_injective {y z : Int} (h : (yearText y).toList = (yearText z).toList) :
    y = z := by
  have hdigits {sign : List Char} (hsign : ∀ c ∈ sign, c ∈ ['-', '+']) (n : Nat) :
      (sign ++ (padded 4 n).toList).filter Char.isDigit = (padded 4 n).toList := by
    have hnone : sign.filter Char.isDigit = [] := by
      have hmarks : (['-', '+'].all fun c => !c.isDigit) = true := rfl
      exact filter_eq_nil_iff.mpr fun c hc => by
        simpa using all_eq_true.mp hmarks c (hsign c hc)
    rw [filter_append, hnone, nil_append]
    exact filter_eq_self.mpr fun c => isDigit_of_mem_padded
  obtain ⟨sign, hy, hsign, hneg⟩ := toList_yearText y
  obtain ⟨sign', hz, hsign', hneg'⟩ := toList_yearText z
  rw [hy, hz] at h
  have hsame := congrArg (List.filter Char.isDigit) h
  rw [hdigits hsign, hdigits hsign'] at hsame
  rw [hsame] at h
  obtain rfl := append_cancel_right h
  have hboth := hneg.symm.trans hneg'
  have habs := padded_injective hsame
  omega

theorem daysInMonth_le (year : Int) (month : Nat) : daysInMonth year month ≤ 31 := by
  unfold daysInMonth
  split
  case h_12 => split <;> omega
  all_goals omega

theorem month_le_of_isDay {year : Int} {month day : Nat} (h : isDay year month day) :
    month ≤ 12 ∧ day ≤ 31 := by
  unfold isDay at h
  simp only [Bool.and_eq_true, decide_eq_true_eq] at h
  obtain ⟨⟨⟨-, -⟩, hpos⟩, hday⟩ := h
  refine ⟨?_, Nat.le_trans hday (daysInMonth_le year month)⟩
  by_contra hmonth
  have hnone : daysInMonth year month = 0 := by
    unfold daysInMonth
    split <;> omega
  omega

/-- Day and month are written with two digits each, so the year is what is left in front. -/
theorem text_injective {d e : Date} (h : d.text = e.text) : d = e := by
  have hlists := congrArg String.toList h
  unfold text at hlists
  simp only [String.toList_append] at hlists
  obtain ⟨hdm, hdd⟩ := month_le_of_isDay d.valid
  obtain ⟨hem, hed⟩ := month_le_of_isDay e.valid
  have hlength {m n : Nat} (hm : m ≤ 31) (hn : n ≤ 31) :
      (padded 2 m).toList.length = (padded 2 n).toList.length := by
    rw [length_padded_two (by omega), length_padded_two (by omega)]
  obtain ⟨hfront, hday⟩ := append_inj' hlists (hlength hdd hed)
  have hfront := append_cancel_right hfront
  obtain ⟨hyear, hmonth⟩ := append_inj' hfront (hlength (by omega) (by omega))
  obtain ⟨year, month, day, hvalid⟩ := d
  obtain ⟨year', month', day', hvalid'⟩ := e
  obtain rfl : year = year' := yearText_injective (append_cancel_right hyear)
  obtain rfl : month = month' := padded_injective hmonth
  obtain rfl : day = day' := padded_injective hday
  rfl

theorem isNumberMark_of_mem_text {d : Date} (h : c ∈ d.text.toList) : IsNumberMark c := by
  have hpadded {width n : Nat} (hc : c ∈ (padded width n).toList) : IsNumberMark c :=
    .inl (isDigit_of_mem_padded hc)
  have hyear (hc : c ∈ (yearText d.year).toList) : IsNumberMark c := by
    obtain ⟨sign, htext, hsign, -⟩ := toList_yearText d.year
    rw [htext] at hc
    rcases mem_append.mp hc with hc | hc
    · exact .inr ((by decide : ['-', '+'] ⊆ ['-', '+', '_']) (hsign c hc))
    · exact hpadded hc
  have hhyphen (hc : c ∈ "-".toList) : IsNumberMark c := .inr (by
    obtain rfl : c = '-' := by simpa using hc
    decide)
  unfold text at h
  simp only [String.toList_append, mem_append] at h
  rcases h with (((h | h) | h) | h) | h
  · exact hyear h
  · exact hhyphen h
  · exact hpadded h
  · exact hhyphen h
  · exact hpadded h

/-- A missing date is not taken for a date. -/
theorem text_ne (d : Date) : d.text ≠ "_" := by
  intro h
  have hlength := congrArg (fun s => s.toList.length) h
  unfold text at hlength
  simp only [String.toList_append, length_append] at hlength
  have : "-".toList.length = 1 := rfl
  have : "_".toList.length = 1 := rfl
  omega

end Date

/-- A date or a missing one can be told from its text. -/
theorem dateText_injective {d e : Option Date} (h : Ty.dateText d = Ty.dateText e) : d = e := by
  cases d with
  | none =>
    cases e with
    | none => rfl
    | some e => exact absurd h.symm e.text_ne
  | some d =>
    cases e with
    | none => exact absurd h d.text_ne
    | some e => rw [Date.text_injective h]

theorem isNumberMark_of_mem_dateText {d : Option Date} (h : c ∈ (Ty.dateText d).toList) :
    IsNumberMark c := by
  cases d with
  | none =>
    obtain rfl : c = '_' := by simpa [Ty.dateText] using h
    exact .inr (by decide)
  | some d => exact Date.isNumberMark_of_mem_text h

end Statute
