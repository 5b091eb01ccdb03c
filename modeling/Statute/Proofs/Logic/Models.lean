import Statute.Logic.Model
import Statute.Proofs.Logic.Sexpr
import Statute.Proofs.NameMap
import Statute.Proofs.Reading

/-!
# Printed models that are read back

An assignment is printed as a list of definitions, each with the sort and the term of a value, and a
solver may put them in a list of their own. The definitions are found again, `readModel_text`, and a
value is read from the text of its term, `Value.read_text`, with one exception: the digits of the
least whole number are no whole number without the minus in front of them.
-/

namespace Statute.Logic

open List

variable {cs : List Char} {s : String}

theorem dropWhile_of_head {p : Char → Bool} {cs : List Char} (h : ∀ c ∈ cs.head?, p c = false) :
    cs.dropWhile p = cs := by
  cases cs with
  | nil => rfl
  | cons c cs => exact dropWhile_cons_of_neg (by simp [h c rfl])

theorem trimmed_of_ends (hhead : ∀ c ∈ cs.head?, Text.isBlank c = false)
    (hlast : ∀ c ∈ cs.getLast?, Text.isBlank c = false) : Text.trimmed cs = cs := by
  have hreverse : ∀ c ∈ cs.reverse.head?, Text.isBlank c = false := by simpa using hlast
  rw [Text.trimmed, dropWhile_of_head hhead, dropWhile_of_head hreverse, reverse_reverse]

theorem trimmed_enclosed {c d : Char} (hc : Text.isBlank c = false) (hd : Text.isBlank d = false)
    (cs : List Char) : Text.trimmed (c :: (cs ++ [d])) = c :: (cs ++ [d]) := by
  refine trimmed_of_ends (by simpa using hc) ?_
  rw [← cons_append, getLast?_concat]
  simpa using hd

theorem trimmed_of_marks (hcs : ∀ c ∈ cs, isMark c = false) : Text.trimmed cs = cs := by
  have hblank (c : Char) (hc : c ∈ cs) : Text.isBlank c = false :=
    (Bool.or_eq_false_iff.mp (hcs c hc)).1
  exact trimmed_of_ends (fun c hc => hblank c (mem_of_mem_head? hc))
    fun c hc => hblank c (mem_of_mem_getLast? hc)

theorem unbar_of_isPlain (hs : isPlain s) : unbar s = s := by
  have hbar (c : Char) (hc : c ∈ s.toList) : (c == '|') = false := by
    have hmark := (isPlain_iff.mp hs).2 c hc
    simp [isMark] at hmark
    simp [hmark]
  have hreverse : ∀ c ∈ s.toList.reverse.head?, (c == '|') = false := fun c hc =>
    hbar c (mem_reverse.mp (mem_of_mem_head? hc))
  rw [unbar, dropWhile_of_head fun c hc => hbar c (mem_of_mem_head? hc),
    dropWhile_of_head hreverse, reverse_reverse, String.ofList_toList]

variable {v : Value}

/-!
## Values
-/

namespace Value

/-- The sort of a value; a text that could not be read has none. -/
def sort : Value → SmtSort
  | .int _ => .int
  | .real _ => .real
  | .bool _ => .bool
  | .str _ => .string
  | .variant s _ => .enum s
  | .element s _ => .free s
  | .raw _ => .free ""

/-- The term that stands for a value. -/
def term : Value → Term
  | .int n => .int n
  | .real x => .real x
  | .bool b => .bool b
  | .str s => .str s
  | .variant s v => .variant s v
  | .element s i => .var (s ++ "!val!" ++ toString i)
  | .raw t => .var t

/-- A whole number in range, a truth value, any text, or a variant with plain names. -/
def Printable : Value → Prop
  | .int n => Whole.InRange n
  | .bool _ => True
  | .str _ => True
  | .variant s v => isPlain s = true ∧ isPlain v = true
  | _ => False

/-- What is read from the text of a value: the value, but for the least whole number. -/
def readBack : Value → Value
  | .int n => if n = Whole.least then .raw (Term.int n).text else .int n
  | v => v

theorem readBack_eq_self_iff : v.readBack = v ↔ v ≠ .int Whole.least := by
  cases v with
  | int n =>
    rw [readBack]
    split <;> simp_all
  | _ => simp [readBack]

theorem whole?_digits (n : Nat) : Decimal.whole? (Nat.toDigits 10 n) = Whole.fit n := by
  have hdigits : ((Nat.toDigits 10 n).all Decimal.isDigit) = true :=
    all_eq_true.mpr fun c hc => Nat.isDigit_of_mem_toDigits (by omega) (by omega) hc
  have hvalue : Decimal.digitsValue (Nat.toDigits 10 n) = n := Nat.ofDigitChars_ten_toDigits
  have hnatural : Decimal.natural? (Nat.toDigits 10 n) = some n := by
    simp [Decimal.natural?, hdigits, hvalue, Nat.toDigits_ne_nil]
  unfold Decimal.whole?
  split
  next h => exact absurd h (toDigits_ne_cons rfl)
  next h => exact absurd h (toDigits_ne_cons rfl)
  · rw [hnatural, Option.bind_some]

theorem between?_append (first inner last : List Char) :
    between? first last (first ++ (inner ++ last)) = some inner := by
  have hlength : (first ++ (inner ++ last)).length - first.length - last.length = inner.length := by
    simp only [length_append]
    omega
  rw [between?, drop_left, hlength, take_left]
  simp

theorem undouble_doubled (cs : List Char) : undouble (Sexpr.doubled cs) = cs := by
  induction cs with
  | nil => rfl
  | cons c cs ih =>
    have hcons : Sexpr.doubled (c :: cs) =
        (if c == '"' then [c, c] else [c]) ++ Sexpr.doubled cs := rfl
    by_cases hc : c = '"'
    · subst hc
      simpa [hcons, undouble] using ih
    · simpa [hcons, undouble, hc] using ih

/-- A minus in parentheses with a number without sign, which reaches to the greatest. -/
theorem readInt?_negated (n : Nat) :
    readInt? (['(', '-'] ++ ((' ' :: Nat.toDigits 10 n) ++ [')'])) =
      (Whole.fit n).map negative := by
  have hdigits : Text.trimmed (Nat.toDigits 10 n) = Nat.toDigits 10 n :=
    trimmed_of_marks fun c hc => isMark_of_mem_toDigits hc
  have hopening : "(-".toList = ['(', '-'] := rfl
  rw [readInt?, negated?, hopening, between?_append]
  change (Decimal.whole? (Text.trimmed (Nat.toDigits 10 n))).map negative = _
  rw [hdigits, whole?_digits]

theorem readInt?_digits (n : Nat) : readInt? (Nat.toDigits 10 n) = Whole.fit n := by
  have hopening : "(-".toList.isPrefixOf (Nat.toDigits 10 n) = false := by
    rw [← Bool.not_eq_true, isPrefixOf_iff_prefix]
    rintro ⟨rest, hrest⟩
    exact toDigits_ne_cons rfl hrest.symm
  rw [readInt?, negated?, between?, hopening]
  exact whole?_digits n

theorem read_int {n : Int} (hn : Whole.InRange n) :
    read (Term.int n).text .int = readBack (.int n) := by
  obtain ⟨hleast, hgreatest⟩ := hn
  have hread {cs : List Char} (hcs : (Term.int n).text.toList = cs)
      (htrimmed : Text.trimmed cs = cs) :
      read (Term.int n).text .int = ((readInt? cs).map Value.int).getD (.raw (Term.int n).text) := by
    rw [read, hcs, htrimmed, ← hcs, String.ofList_toList]
  rw [readBack]
  by_cases hneg : n < 0
  · have hlist : (Term.int n).text.toList =
        ['(', '-'] ++ ((' ' :: Nat.toDigits 10 n.natAbs) ++ [')']) := by
      rw [Term.text, Term.sexpr, Term.intSexpr, if_pos hneg, Sexpr.app, Sexpr.toList_text_cons]
      simp [Sexpr.text]
    rw [hread hlist (trimmed_enclosed rfl rfl ('-' :: ' ' :: Nat.toDigits 10 n.natAbs)),
      readInt?_negated]
    by_cases hn : n = Whole.least
    · subst hn
      rfl
    have habs : (n.natAbs : Int) = -n := by omega
    have hrange : Whole.InRange (-n) := by
      simp only [Whole.InRange, Whole.least, Whole.greatest] at *
      omega
    have hne : -n ≠ Whole.least := by
      omega
    rw [habs, Whole.fit_eq_some_iff.mpr ⟨hrange, rfl⟩, if_neg hn, Option.map_some, negative,
      if_neg hne, Int.neg_neg]
    rfl
  · have hlist : (Term.int n).text.toList = Nat.toDigits 10 n.toNat := by
      rw [Term.text, Term.sexpr, Term.intSexpr, if_neg hneg, Sexpr.text, toList_toString_int,
        if_pos (Int.not_lt.mp hneg)]
    have hnat : (n.toNat : Int) = n := Int.toNat_of_nonneg (Int.not_lt.mp hneg)
    have hfit : Whole.fit n = some n := Whole.fit_eq_some_iff.mpr ⟨⟨hleast, hgreatest⟩, rfl⟩
    have hne : n ≠ Whole.least := by
      rintro rfl
      exact hneg (by decide)
    have htrimmed : Text.trimmed (Nat.toDigits 10 n.toNat) = Nat.toDigits 10 n.toNat :=
      trimmed_of_marks fun c hc => isMark_of_mem_toDigits hc
    rw [hread hlist htrimmed, readInt?_digits, hnat, hfit, if_neg hne]
    rfl

theorem read_str (s : String) : read (Term.strText s) .string = .str s := by
  have hlist : (Term.strText s).toList = ['"'] ++ (Sexpr.doubled s.toList ++ ['"']) :=
    String.toList_ofList
  have htrimmed : Text.trimmed (['"'] ++ (Sexpr.doubled s.toList ++ ['"'])) =
      ['"'] ++ (Sexpr.doubled s.toList ++ ['"']) := trimmed_enclosed rfl rfl _
  rw [read, hlist, htrimmed, between?_append]
  dsimp only
  rw [undouble_doubled, String.ofList_toList]

theorem read_variant {v : String} (hs : isPlain s) (hv : isPlain v) :
    read (Term.constructor s v) (.enum s) = .variant s v := by
  have hmarks := (isPlain_iff.mp (Term.isPlain_constructor hs hv)).2
  have hlist : (Term.constructor s v).toList = (s ++ ".").toList ++ v.toList := String.toList_append
  rw [read, trimmed_of_marks hmarks, hlist]
  simp

/-- A value is read from the text of its term. -/
theorem read_text (hv : v.Printable) : read v.term.text v.sort = v.readBack := by
  cases v with
  | int n => exact read_int hv
  | bool b => cases b <;> rfl
  | str s => exact read_str s
  | variant s v => exact read_variant hv.1 hv.2
  | real | element | raw => exact hv.elim

theorem Printable.plain (hv : v.Printable) : isPlain v.sort.text ∧ v.term.Plain := by
  cases v with
  | int n => exact ⟨(rfl : isPlain "Int" = true), by simp [Term.names], by simp⟩
  | bool b => exact ⟨(rfl : isPlain "Bool" = true), by simp [Term.names], by simp⟩
  | str s => exact ⟨(rfl : isPlain "String" = true), by simp [Term.names], by simp⟩
  | variant s v =>
    refine ⟨hv.1, forall_mem_cons.mpr ⟨hv.1, ?_⟩, by simp⟩
    exact forall_mem_cons.mpr ⟨hv.2, by simp⟩
  | real | element | raw => exact hv.elim

end Value

/-!
## Models
-/

/-- The definition of a constant: its symbol, no arguments, the sort and the term of its value. -/
def definitionText (p : String × Value) : String :=
  "(define-fun " ++ p.1 ++ " () " ++ p.2.sort.text ++ " " ++ p.2.term.text ++ ")"

/-- The definitions of an assignment one after the other, each with blanks behind it. -/
def modelText (gap : String) (m : Assignment) : String :=
  String.join (m.entries.map fun p => definitionText p ++ gap)

/-- The definitions of an assignment in a list. -/
def wrappedText (gap : String) (m : Assignment) : String :=
  "(model " ++ gap ++ modelText gap m ++ ")"

/-- The assignment that a printed model spells, if the constants have the given sorts. -/
def readAssignment (sorts : String → SmtSort) (s : String) : Assignment :=
  ⟨(readModel s).entries.map fun (n, text) => (n, Value.read text (sorts n))⟩

def definitionSexpr (p : String × Value) : Sexpr :=
  .list [.atom "define-fun", .atom p.1, .list [], .atom p.2.sort.text, p.2.term.sexpr]

theorem text_definitionSexpr (p : String × Value) :
    (definitionSexpr p).text = definitionText p := by
  apply String.toList_inj.mp
  unfold definitionText
  rw [definitionSexpr, Sexpr.toList_text_cons]
  simp [Sexpr.text, Sexpr.texts, Term.text]

/-- A symbol and its value can be printed in a model. -/
def Definable (p : String × Value) : Prop := isPlain p.1 = true ∧ p.2.Printable

theorem readFrom_blanks {gap : List Char} (hgap : ∀ c ∈ gap, Text.isBlank c)
    (l : Sexpr.Levels) (cs : List Char) : Sexpr.readFrom l (gap ++ cs) = Sexpr.readFrom l cs := by
  induction gap with
  | nil => rfl
  | cons c gap ih => grind [Sexpr.readFrom_blank]

variable {p : String × Value}

theorem readable_definition (hp : Definable p) : (definitionSexpr p).Readable := by
  obtain ⟨hsort, hterm⟩ := hp.2.plain
  exact .app rfl (by simp [Sexpr.Readable.word hp.1, Sexpr.Readable.list, Sexpr.Readable.word hsort,
    Term.readable_sexpr hterm])

/-- A definition is read up to its closing parenthesis, whatever follows. -/
theorem readFrom_definition (hp : Definable p) (l : Sexpr.Levels) (rest : List Char) :
    Sexpr.readFrom l ((definitionSexpr p).text.toList ++ rest) =
      Sexpr.readFrom (l.add (definitionSexpr p)) rest := by
  cases readable_definition hp with
  | list hes => exact Sexpr.readFrom_list (fun e he l _ h => Sexpr.readFrom_text (hes e he) h l) l rest

section Models

variable {gap : String} {m : Assignment}

/-- Reading definitions adds each of them to what has been read, whatever follows. -/
theorem readFrom_definitions (hgap : ∀ c ∈ gap.toList, Text.isBlank c)
    {l : List (String × Value)} (hl : ∀ p ∈ l, Definable p) (levels : Sexpr.Levels)
    (rest : List Char) :
    Sexpr.readFrom levels ((String.join (l.map fun p => definitionText p ++ gap)).toList ++ rest) =
      Sexpr.readFrom ⟨(l.map definitionSexpr).reverse ++ levels.inner, levels.outer⟩ rest := by
  induction l generalizing levels with
  | nil => rfl
  | cons p l ih =>
    obtain ⟨hp, hl⟩ := forall_mem_cons.mp hl
    have htext : ((String.join ((p :: l).map fun p => definitionText p ++ gap)).toList ++ rest) =
        (definitionSexpr p).text.toList ++ (gap.toList ++
          ((String.join (l.map fun p => definitionText p ++ gap)).toList ++ rest)) := by
      simp [text_definitionSexpr]
    rw [htext, readFrom_definition hp, readFrom_blanks hgap, ih hl]
    simp [Sexpr.Levels.add]

/-- The definitions come out as they were put in. -/
theorem definitionsOf_map (l : List (String × Value)) :
    definitionsOf (l.map definitionSexpr) = l.map fun p => (p.1, p.2.term.sexpr) := by
  induction l with
  | nil => rfl
  | cons p l ih => rw [map_cons, definitionsOf, ih, map_cons]; rfl

theorem definitionsOf_wrapped (l : List (String × Value)) :
    definitionsOf [.list (.atom "model" :: l.map definitionSexpr)] =
      definitionsOf (l.map definitionSexpr) := by
  have hnone : definition? (.atom "model" :: l.map definitionSexpr) = none := by
    cases l <;> rfl
  rw [definitionsOf, definitions, hnone, definitionsOf, append_nil]
  exact nil_append _

/-- The definitions are found with or without a list around them. -/
theorem definitionsOf_readAll (hgap : ∀ c ∈ gap.toList, Text.isBlank c)
    (hentries : ∀ p ∈ m.entries, Definable p) (hs : s ∈ [modelText gap m, wrappedText gap m]) :
    definitionsOf (Sexpr.readAll s) = m.entries.map fun p => (p.1, p.2.term.sexpr) := by
  have hread (levels : Sexpr.Levels) (rest : List Char) :
      Sexpr.readFrom levels ((modelText gap m).toList ++ rest) = _ :=
    readFrom_definitions hgap hentries levels rest
  rw [← definitionsOf_map]
  rcases mem_cons.mp hs with rfl | hs
  · refine congrArg definitionsOf (Sexpr.readAll_of_readFrom ?_)
    rw [← append_nil (modelText gap m).toList, hread, append_nil]
    rfl
  obtain rfl := mem_singleton.mp hs
  have hlist : (wrappedText gap m).toList =
      '(' :: ("model".toList ++ ' ' :: (gap.toList ++ ((modelText gap m).toList ++ [')']))) := by
    simp [wrappedText]
  rw [← definitionsOf_wrapped]
  refine congrArg definitionsOf (Sexpr.readAll_of_readFrom ?_)
  rw [hlist]
  change Sexpr.readFrom (Sexpr.Levels.enter {}) _ = _
  rw [Sexpr.readFrom_word rfl (Sexpr.bounded_cons (.inl rfl) _), Sexpr.readFrom_blank rfl,
    readFrom_blanks hgap, hread]
  change Sexpr.Levels.leave ⟨_ ++ [.atom "model"], [[]]⟩ = _
  rw [Sexpr.Levels.leave, reverse_append, reverse_reverse]
  rfl

/-- Of an assignment with definable entries the texts of the values are read. -/
theorem readModel_text (hgap : ∀ c ∈ gap.toList, Text.isBlank c) (hm : m.Sorted)
    (hentries : ∀ p ∈ m.entries, Definable p) (hs : s ∈ [modelText gap m, wrappedText gap m]) :
    readModel s = m.map fun v => v.term.text := by
  have hpairs : (m.entries.map fun p => (unbar p.1, p.2.term.text)) =
      (m.map fun v => v.term.text).entries := by
    refine map_congr_left fun p hp => ?_
    rw [unbar_of_isPlain (hentries p hp).1]
  rw [readModel, definitionsOf_readAll hgap hentries hs, map_reverse, map_map]
  exact (congrArg (NameMap.ofList ·.reverse) hpairs).trans (hm.map _).ofList_reverse

theorem readAssignment_text (hgap : ∀ c ∈ gap.toList, Text.isBlank c) (hm : m.Sorted)
    (hentries : ∀ p ∈ m.entries, Definable p) {sorts : String → SmtSort}
    (hsorts : ∀ p ∈ m.entries, sorts p.1 = p.2.sort) (hs : s ∈ [modelText gap m, wrappedText gap m]) :
    readAssignment sorts s = m.map Value.readBack := by
  rw [readAssignment, readModel_text hgap hm hentries hs, NameMap.map, map_map, NameMap.map]
  refine congrArg NameMap.mk (map_congr_left fun p hp => ?_)
  dsimp only [Function.comp]
  rw [hsorts p hp, Value.read_text (hentries p hp).2]

end Models

/-- Reading a printed model gives every value back but the least whole number, whose text is left
unread. -/
theorem printed_model_read_back (sorts : String → SmtSort) (gap : String) (m : Assignment)
    (hgap : ∀ c ∈ gap.toList, Text.isBlank c = true) (hm : m.Sorted)
    (hentries : ∀ p ∈ m.entries, Definable p) (hsorts : ∀ p ∈ m.entries, sorts p.1 = p.2.sort) :
    ∀ s ∈ [modelText gap m, wrappedText gap m],
      readAssignment sorts s = m.map Value.readBack ∧
      (readAssignment sorts s = m ↔ ∀ p ∈ m.entries, p.2 ≠ .int Whole.least) := by
  intro s hs
  have hread := readAssignment_text hgap hm hentries hsorts hs
  refine ⟨hread, ?_⟩
  rw [hread, NameMap.map_eq_self_iff]
  exact forall₂_congr fun p _ => Value.readBack_eq_self_iff

/-- The sorts of the constants of an assignment. -/
def sortsOf (m : Assignment) (n : String) : SmtSort := ((m.get? n).map Value.sort).getD .int

/-- One value of each kind. -/
def colouredModel : Assignment :=
  ⟨[("label", .str "a \"b\" (;"), ("paint", .variant "Colour" "Red"), ("pending", .bool true),
    ("x", .int (-7))]⟩

theorem colouredModel_read_back :
    (∀ p ∈ colouredModel.entries, Definable p) ∧
    readAssignment (sortsOf colouredModel) (modelText "\n" colouredModel) = colouredModel ∧
    readAssignment (sortsOf colouredModel) (wrappedText "\n" colouredModel) = colouredModel := by
  have hentries : ∀ p ∈ colouredModel.entries, Definable p := by
    simp [colouredModel, Definable, Value.Printable]
    decide
  have hread := printed_model_read_back (sortsOf colouredModel) "\n" colouredModel (by simp; rfl)
    (by unfold NameMap.Sorted; decide) hentries (by simp [colouredModel]; decide)
  have hvalues : ∀ p ∈ colouredModel.entries, p.2 ≠ .int Whole.least := by
    simp [colouredModel]
    decide
  refine ⟨hentries, (hread _ ?_).2.mpr hvalues, (hread _ ?_).2.mpr hvalues⟩
  · exact mem_cons_self
  · exact mem_cons_of_mem _ mem_cons_self

/-- The least whole number for a constant. -/
def leastModel : Assignment := ⟨[("x", .int Whole.least)]⟩

theorem leastModel_unread :
    readAssignment (sortsOf leastModel) (modelText "\n" leastModel) =
        ⟨[("x", .raw "(- 9223372036854775808)")]⟩ ∧
      readAssignment (sortsOf leastModel) (modelText "\n" leastModel) ≠ leastModel := by
  have hread : readAssignment (sortsOf leastModel) (modelText "\n" leastModel) =
      ⟨[("x", .raw "(- 9223372036854775808)")]⟩ := by
    have hentries : ∀ p ∈ leastModel.entries, Definable p :=
      forall_mem_singleton.mpr ⟨rfl, by decide, by decide⟩
    have hsorted : leastModel.Sorted := pairwise_singleton _ _
    exact readAssignment_text (by simp; rfl) hsorted hentries
      (forall_mem_singleton.mpr rfl) mem_cons_self
  rw [hread]
  exact ⟨rfl, by simp [leastModel]⟩

end Statute.Logic
