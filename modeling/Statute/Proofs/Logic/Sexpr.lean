import Statute.Proofs.Logic.Symbols

/-!
# S-expressions that are read back

The written form of a term is read character by character. `Sexpr.Readable` says that atoms are
plain words or texts in quotes; between such atoms the reader finds every border, whatever the texts
in quotes contain. So reading the text of an S-expression has the same effect as adding it to what
has been read, `readFrom_text`, and a term whose names are plain is read back from its text as the
tree of its operators, `term_read_back`.
-/

namespace Statute.Logic

open List

/-- Ends a word or is more than a part of one. -/
def isMark (c : Char) : Bool := Text.isBlank c || ['(', ')', '"', '|', ';'].contains c

/-- A word that names can be: not empty, and without blanks, parentheses, quotes, bars and
semicolons. -/
def isPlain (s : String) : Bool := !s.toList.isEmpty && s.toList.all fun c => !isMark c

theorem isPlain_iff {s : String} :
    isPlain s ↔ s.toList ≠ [] ∧ ∀ c ∈ s.toList, isMark c = false := by
  simp [isPlain]

theorem isMark_of_mem_toDigits {n c} (hc : c ∈ Nat.toDigits 10 n) : isMark c = false := by
  have h := Nat.isDigit_of_mem_toDigits (by omega) (by omega) hc
  have hblank : Text.isBlank c = false := by
    simp [Char.isDigit, Text.isBlank, UInt32.le_iff_toNat_le] at h ⊢
    omega
  have hmarks : (['(', ')', '"', '|', ';'].all fun d => !d.isDigit) = true := rfl
  rw [isMark, hblank, Bool.false_or, ← Bool.not_eq_true, contains_iff_mem]
  intro hc
  simpa [h] using all_eq_true.mp hmarks c hc

namespace Sexpr

/-- What has been read so far after reading on between atoms. -/
def readFrom (l : Levels) (cs : List Char) : Levels :=
  (tokensFrom .between cs).foldl Levels.feed l

/-- An atom that is read to its end ends here. -/
def Bounded (rest : List Char) : Prop :=
  ∀ c ∈ rest.head?, Text.isBlank c = true ∨ c = '(' ∨ c = ')'

theorem bounded_nil : Bounded [] := by
  intro c hc
  cases hc

theorem bounded_cons {c : Char} (hc : Text.isBlank c ∨ c = '(' ∨ c = ')')
    (rest : List Char) : Bounded (c :: rest) := by
  intro d hd
  cases hd
  exact hc

/-!
## Atoms
-/

/-- The characters of a text as they stand between quotes. -/
def doubled (cs : List Char) : List Char := cs.flatMap fun c => if c == '"' then [c, c] else [c]

section Atoms

variable {soFar cs rest : List Char} {l : Levels}

theorem readFrom_blank {c : Char} (hc : Text.isBlank c) (l : Levels) (cs : List Char) :
    readFrom l (c :: cs) = readFrom l cs := by
  have hne {d : Char} (hd : Text.isBlank d = false) : (c == d) = false := by grind
  have hbegin : begin c = ([], .between) := by
    unfold begin
    simp [hne (d := '(') rfl, hne (d := ')') rfl, hne (d := ';') rfl, hne (d := '"') rfl,
      hne (d := '|') rfl, hc]
  rw [readFrom, tokensFrom, step, hbegin]
  rfl

/-- A word or a closing quote is complete where it is bounded. -/
theorem tokensFrom_bounded {m : Mode} (hend : atEnd m = [finish soFar])
    (hstep : ∀ c, Text.isBlank c ∨ c = '(' ∨ c = ')' →
      step m c = (finish soFar :: (begin c).1, (begin c).2)) (hrest : Bounded rest) :
    tokensFrom m rest = finish soFar :: tokensFrom .between rest := by
  cases rest with
  | nil => exact hend
  | cons c cs =>
    rw [tokensFrom, hstep c (hrest c rfl), tokensFrom, step]
    rfl

theorem tokensFrom_word (hcs : ∀ c ∈ cs, isMark c = false) (hrest : Bounded rest) :
    tokensFrom (.word soFar) (cs ++ rest) =
      finish (cs.reverse ++ soFar) :: tokensFrom .between rest := by
  induction cs generalizing soFar with
  | nil =>
    refine tokensFrom_bounded rfl (fun c hc => ?_) hrest
    have hcond : (Text.isBlank c || c == '(' || c == ')') = true := by simpa [or_assoc] using hc
    exact if_pos hcond
  | cons c cs ih =>
    obtain ⟨hc, hcs⟩ := forall_mem_cons.mp hcs
    have hcond : ¬(Text.isBlank c || c == '(' || c == ')') = true := by
      simp [isMark] at hc
      simp [hc]
    rw [cons_append, tokensFrom, step, if_neg hcond, reverse_cons, append_assoc]
    exact ih hcs

/-- Quotes inside a text are doubled, so the text ends at the first quote that is not. -/
theorem tokensFrom_quoted (cs : List Char) (hrest : Bounded rest) :
    tokensFrom (.quoted soFar) (doubled cs ++ '"' :: rest) =
      finish ('"' :: ((doubled cs).reverse ++ soFar)) :: tokensFrom .between rest := by
  induction cs generalizing soFar with
  | nil =>
    refine tokensFrom_bounded rfl (fun c hc => ?_) hrest
    have hcond : ¬(c == '"') = true := by
      rw [beq_iff_eq]
      rintro rfl
      exact absurd hc (by decide)
    exact if_neg hcond
  | cons c cs ih =>
    by_cases hc : c = '"'
    · subst hc
      exact (@ih ('"' :: '"' :: soFar)).trans (by simp [doubled])
    have hcond : (c == '"') = false := beq_eq_false_iff_ne.mpr hc
    have hdoubled : doubled (c :: cs) = c :: doubled cs := by simp [doubled, hc]
    rw [hdoubled, cons_append, tokensFrom, step, hcond]
    exact (@ih (c :: soFar)).trans (by simp)

/-- Reads a word. -/
theorem readFrom_word {s : String} (hs : isPlain s) (hrest : Bounded rest) :
    readFrom l (s.toList ++ rest) = readFrom (l.add (.atom s)) rest := by
  obtain ⟨hne, hmarks⟩ := isPlain_iff.mp hs
  cases hlist : s.toList with
  | nil => exact absurd hlist hne
  | cons c cs =>
    rw [hlist] at hmarks
    have hc := hmarks c mem_cons_self
    have hbegin : begin c = ([], .word [c]) := by
      simp [isMark] at hc
      simp [begin, hc]
    have hfinish : finish (cs.reverse ++ [c]) = .atom s := by
      rw [finish, reverse_append, reverse_reverse, reverse_singleton,
        singleton_append, ← hlist, String.ofList_toList]
    rw [readFrom, cons_append, tokensFrom, step, hbegin]
    dsimp only
    rw [nil_append, tokensFrom_word (fun d hd => hmarks d (mem_cons_of_mem c hd)) hrest,
      hfinish]
    rfl

/-- Reads a text in quotes. -/
theorem readFrom_quoted (s : String) (hrest : Bounded rest) :
    readFrom l ((Term.strText s).toList ++ rest) =
      readFrom (l.add (.atom (Term.strText s))) rest := by
  have hlist : (Term.strText s).toList = '"' :: (doubled s.toList ++ ['"']) := String.toList_ofList
  have hfinish : finish ('"' :: ((doubled s.toList).reverse ++ ['"'])) = .atom (Term.strText s) := by
    rw [finish, Term.strText]
    simp [doubled]
  rw [hlist, cons_append, append_assoc]
  change (tokensFrom (.quoted ['"']) _).foldl Levels.feed l = _
  rw [singleton_append, tokensFrom_quoted s.toList hrest, hfinish]
  rfl

end Atoms

/-!
## Lists
-/

/-- All atoms are plain words or texts in quotes. -/
inductive Readable : Sexpr → Prop where
  | word {s} (hs : isPlain s = true) : Readable (.atom s)
  | quoted {s} : Readable (.atom (Term.strText s))
  | list {es} (hes : ∀ e ∈ es, Readable e) : Readable (.list es)

theorem Readable.app {head args} (hhead : isPlain head) (hargs : ∀ e ∈ args, Readable e) :
    Readable (.app head args) :=
  .list (forall_mem_cons.mpr ⟨.word hhead, hargs⟩)

theorem texts_eq_map (es : List Sexpr) : texts es = es.map text := by
  induction es with
  | nil => rfl
  | cons e es ih => rw [texts, ih, map_cons]

/-- The text of a list: a blank in front of every member but the first. -/
theorem toList_text_cons (e : Sexpr) (es : List Sexpr) :
    (text (.list (e :: es))).toList =
      '(' :: (e.text.toList ++ ((es.flatMap fun e => ' ' :: e.text.toList) ++ [')'])) := by
  have hmembers : (" ".intercalate ((e :: es).map text)).toList =
      e.text.toList ++ es.flatMap fun e => ' ' :: e.text.toList := by
    induction es generalizing e with
    | nil => simp
    | cons f es ih =>
      rw [map_cons, map_cons, String.intercalate_cons_cons, ← map_cons,
        String.toList_append, String.toList_append, ih]
      simp
  rw [text, texts_eq_map, String.toList_append, String.toList_append, hmembers]
  simp

theorem bounded_members (es : List Sexpr) (rest : List Char) :
    Bounded ((es.flatMap fun e => ' ' :: e.text.toList) ++ ')' :: rest) := by
  cases es with
  | nil => exact bounded_cons (.inr (.inr rfl)) rest
  | cons e es => exact bounded_cons (.inl rfl) _

variable {es : List Sexpr}

theorem readFrom_items {es : List Sexpr} {rest : List Char}
    (hes : ∀ e ∈ es, ∀ l rest, Bounded rest →
      readFrom l (e.text.toList ++ rest) = readFrom (l.add e) rest) (l : Levels) :
    readFrom l ((es.flatMap fun e => ' ' :: e.text.toList) ++ ')' :: rest) =
      readFrom ⟨es.reverse ++ l.inner, l.outer⟩ (')' :: rest) := by
  induction es generalizing l with
  | nil => rfl
  | cons e es ih =>
    obtain ⟨he, hes⟩ := forall_mem_cons.mp hes
    rw [flatMap_cons, cons_append, cons_append, readFrom_blank rfl,
      append_assoc, he l _ (bounded_members es rest), ih hes]
    simp [Levels.add]

/-- A list is read up to its closing parenthesis, whatever follows. -/
theorem readFrom_list (hes : ∀ e ∈ es, ∀ l rest, Bounded rest → readFrom l (e.text.toList ++ rest) =
      readFrom (l.add e) rest) (l : Levels) (rest : List Char) :
    readFrom l ((text (.list es)).toList ++ rest) = readFrom (l.add (.list es)) rest := by
  cases es with
  | nil => rfl
  | cons e es =>
    obtain ⟨he, hes⟩ := forall_mem_cons.mp hes
    rw [toList_text_cons]
    simp only [cons_append, append_assoc, nil_append]
    change readFrom l.enter _ = _
    rw [he _ _ (bounded_members es rest), readFrom_items hes]
    change readFrom (Levels.leave ⟨es.reverse ++ [e], l.inner :: l.outer⟩) rest = _
    rw [Levels.leave, reverse_append, reverse_reverse]
    rfl

/-- Reading the text of an S-expression adds it to what has been read. -/
theorem readFrom_text {e : Sexpr} (he : e.Readable) {rest : List Char} (hrest : Bounded rest)
    (l : Levels) : readFrom l (e.text.toList ++ rest) = readFrom (l.add e) rest := by
  induction he generalizing l rest with
  | word hs => exact readFrom_word hs hrest
  | quoted => exact readFrom_quoted _ hrest
  | list _ ih => exact readFrom_list (fun e he l rest hrest => ih e he hrest l) l rest

theorem readAll_of_readFrom {s : String} (h : readFrom {} s.toList = ⟨es.reverse, []⟩) :
    readAll s = es := by
  change Levels.close (readFrom {} s.toList).inner (readFrom {} s.toList).outer = es
  rw [h, Levels.close, reverse_reverse]

/-- What has been written is read back. -/
theorem readAll_text {e : Sexpr} (he : e.Readable) : readAll e.text = [e] := by
  have hread := readFrom_text he bounded_nil {}
  rw [append_nil] at hread
  exact readAll_of_readFrom hread

end Sexpr

/-!
## Terms
-/

namespace Term

/-- The names that are written where the term itself is. -/
def names : Term → List String
  | .var x => [x]
  | .variant s v => [s, v]
  | .apply f _ => [f]
  | .quant _ x s _ => [x, s.text]
  | _ => []

/-- All names are plain, and no real numbers are written. -/
def Plain : Term → Prop :=
  Everywhere fun t => (∀ n ∈ t.names, isPlain n = true) ∧ ∀ x, t ≠ .real x

theorem sexprs_eq_map (ts : List Term) : sexprs ts = ts.map sexpr := by
  induction ts with
  | nil => rfl
  | cons t ts ih => rw [sexprs, ih, map_cons]

theorem isPlain_digits (n : Nat) : isPlain (toString n) := by
  have hlist : (toString n).toList = Nat.toDigits 10 n := Nat.toList_repr
  rw [isPlain_iff, hlist]
  exact ⟨Nat.toDigits_ne_nil, fun c hc => isMark_of_mem_toDigits hc⟩

theorem isPlain_constructor {s v : String} (hs : isPlain s) (hv : isPlain v) :
    isPlain (constructor s v) := by
  rw [isPlain_iff] at *
  have hlist : (constructor s v).toList = s.toList ++ '.' :: v.toList := by simp [constructor]
  rw [hlist]
  refine ⟨by simp, fun c hc => ?_⟩
  rcases mem_append.mp hc with hc | hc
  · exact hs.2 c hc
  rcases mem_cons.mp hc with rfl | hc
  · rfl
  · exact hv.2 c hc

theorem isPlain_arithmetic (op : Arithmetic) (s : SmtSort) : isPlain (op.text s) := by
  unfold Arithmetic.text
  split <;> rfl

/-- The tree of a term with plain names can be read. -/
theorem readable_sexpr {t : Term} (ht : t.Plain) : t.sexpr.Readable := by
  have hall {ts : List Term} (ih : ∀ t ∈ ts, t.Plain → t.sexpr.Readable)
      (hts : ∀ t ∈ ts, t.Plain) : ∀ e ∈ sexprs ts, e.Readable := by
    rw [sexprs_eq_map, forall_mem_map]
    exact fun t h => ih t h (hts t h)
  induction t with
  | int n =>
    rw [sexpr, intSexpr]
    split
    · exact .app rfl (forall_mem_singleton.mpr (.word (isPlain_digits _)))
    next hn =>
      obtain ⟨k, rfl⟩ := Int.eq_ofNat_of_zero_le (Int.not_lt.mp hn)
      exact .word (isPlain_digits k)
  | real x => exact absurd rfl (ht.2 x)
  | bool b => cases b <;> exact .word rfl
  | str s => exact .quoted
  | var x => exact .word (ht.1 x mem_cons_self)
  | variant s v =>
    have hnames := forall_mem_cons.mp ht.1
    exact .word (isPlain_constructor hnames.1 (hnames.2 v mem_cons_self))
  | not t ih | neg t ih | toReal t ih => exact .app rfl (by simp [ih ht.2])
  | and ts ih | or ts ih => exact .app rfl (hall ih (everywhereIn_iff.mp ht.2))
  | implies a b iha ihb => exact .app rfl (by simp [iha ht.2.1, ihb ht.2.2])
  | cmp op a b iha ihb =>
    exact .app (by cases op <;> rfl) (by simp [iha ht.2.1, ihb ht.2.2])
  | arith op s a b iha ihb =>
    exact .app (isPlain_arithmetic op s) (by simp [iha ht.2.1, ihb ht.2.2])
  | ite c a b ihc iha ihb => exact .app rfl (by simp [ihc ht.2.1, iha ht.2.2.1, ihb ht.2.2.2])
  | apply f args ih =>
    have hf := ht.1.1 f mem_cons_self
    cases args with
    | nil => exact .word hf
    | cons a args => exact .app hf (hall ih (everywhereIn_iff.mp ht.2))
  | quant q x s body ih =>
    have hnames := forall_mem_cons.mp ht.1.1
    have hvariable : (Sexpr.list [.atom x, .atom s.text]).Readable := by
      refine .list (forall_mem_cons.mpr ⟨.word hnames.1, ?_⟩)
      exact forall_mem_singleton.mpr (.word (hnames.2 s.text mem_cons_self))
    have hvariables : (Sexpr.list [.list [.atom x, .atom s.text]]).Readable :=
      .list (forall_mem_singleton.mpr hvariable)
    exact .app (by cases q <;> rfl) (by simp [hvariables, ih ht.2])

end Term

/-- A statement about a variable, with a text that has quotes, parentheses and a semicolon. -/
def labelClause : Term :=
  .quant .all "x" (.enum "Colour") (.or
    [.cmp .distinct (.var "x") (.variant "Colour" "Red"),
      .cmp .lt (.int (-7)) (.apply "floor" []),
      .cmp .eq (.apply "label" [.var "x"]) (.str "a \"b\" (;")])

end Statute.Logic
