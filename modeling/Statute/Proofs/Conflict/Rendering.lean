import Mathlib
import Statute.Proofs.Check.Parts
import Statute.Proofs.Reading

/-!
# Types read back from their texts

The text of a type is read from left to right: first the alternatives of a union, then in each of
them the limits around it, and in what is left the name that it starts with and what is inside.

Not every type can be told from its text. A name does not say what it stands for, a union does not
say how it is grouped, limits after a union may belong to the whole or to the last alternative, and
names or citations may contain the marks that set other parts off. Types in which nothing of the
kind occurs are told apart by their texts, `Ty.Readable.text_injective`.
-/

namespace Statute

open List

/-- The marks that the parts of a type are set off with. -/
def typeMarks : List Char := [' ', ',', ':', '<', '>', '[', ']']

/-- The name is not empty, and there is no mark in it. -/
def IsWord (n : String) : Prop := n ≠ "" ∧ ∀ c ∈ n.toList, c ∉ typeMarks

/-- Only the characters of the text are looked at, not all that there are. -/
theorem free_of_all {n : String} (h : (n.toList.all fun c => !typeMarks.contains c)) :
    ∀ c ∈ n.toList, c ∉ typeMarks := by
  simpa using h

instance (n : String) : Decidable (IsWord n) :=
  decidable_of_iff (n ≠ "" ∧ (n.toList.all fun c => !typeMarks.contains c) = true)
    (and_congr_right fun _ => ⟨free_of_all, fun h => by simpa using h⟩)

/-- What the name of a type stands for. -/
inductive NameKind where
  | struct
  | enum
  | variable
  deriving DecidableEq

/-- The names of the forms that are not declared. -/
def formNames : List String := ["Citation", "Temporal", "Positive", "NonEmpty", "ValidDate"]

variable {s u : Ty} {mark : Char}

namespace Ty

variable {t : Ty} {rest rest' : List Char}

def isUnion : Ty → Bool
  | .union _ _ => true
  | _ => false

/-- A type whose text does not mislead, but for its parts. Names are words, and stand for what
`kinds` says. A struct with arguments does not have the name of a form, and a type parameter not that
of a built-in type. There is no comma in the section of a citation and no closing bracket in the
act. Limits are not around a union. A union does not have another union as its right side, or as its
left side, depending on the side to which unions are grouped. -/
def PlainHere (kinds : String → NameKind) (toLeft : Bool) : Ty → Prop
  | .struct n args => IsWord n ∧ kinds n = .struct ∧ (args ≠ [] → n ∉ formNames)
  | .enum n => IsWord n ∧ kinds n = .enum
  | .var n => IsWord n ∧ kinds n = .variable ∧ Prim.ofName? n = none
  | .citation c => ',' ∉ c.sectionText.toList ∧ '>' ∉ c.act.toList
  | .refine base _ _ => base.isUnion = false
  | .union left right => (if toLeft then right else left).isUnion = false
  | _ => True

instance (kinds : String → NameKind) (toLeft : Bool) : DecidablePred (PlainHere kinds toLeft)
  | .struct _ _ => inferInstanceAs (Decidable (_ ∧ _ ∧ (_ → _)))
  | .enum _ => inferInstanceAs (Decidable (_ ∧ _))
  | .var _ => inferInstanceAs (Decidable (_ ∧ _ ∧ _))
  | .citation _ => inferInstanceAs (Decidable (_ ∧ _))
  | .refine _ _ _ => inferInstanceAs (Decidable (_ = _))
  | .union _ _ => inferInstanceAs (Decidable (_ = _))
  | .unknown | .prim _ | .temporal _ _ _ | .array _ | .positive _ | .nonEmpty _ | .validDate _ _
  | .moneyIn _ => inferInstanceAs (Decidable True)

/-- What is known of the names and texts in the types of an accepted program. -/
def WordedHere : Ty → Prop
  | .unknown => False
  | .struct n _ => Prim.ofName? n = none
  | .enum n => Prim.ofName? n = none
  | .citation c => ',' ∉ c.subsection.toList
  | .moneyIn code => '>' ∉ code.toList
  | _ => True

/-- The type can be read back from its text. -/
def Readable (kinds : String → NameKind) (toLeft : Bool) (t : Ty) : Prop :=
  t.Every fun u => u.PlainHere kinds toLeft ∧ u.WordedHere

/-!
## Reading
-/

/-- What may come after a type. -/
def endMarks : List Char := [',', '>', ']']

/-- The type that a name without brackets stands for. -/
def ofWord (kinds : String → NameKind) (w : String) : Ty :=
  match Prim.ofName? w with
  | some p => .prim p
  | none =>
    match kinds w with
    | .struct => .struct w []
    | .enum => .enum w
    | .variable => .var w

/-- The type of a name with types in brackets. -/
def ofWordAt (w : String) (t : Ty) (ts : List Ty) : Ty :=
  if w = "Positive" then .positive t else if w = "NonEmpty" then .nonEmpty t
  else .struct w (t :: ts)

noncomputable section

/-- The limits that follow a type. -/
def limited? (t : Ty) (cs : List Char) : Option (Ty × List Char) :=
  match cs with
  | '[' :: cs => do
    let (lo, cs) ← before? '.' cs
    let (hi, cs) ← before? ']' (cs.drop 1)
    refine t (Function.invFun TypeExpr.limitText lo) (Function.invFun TypeExpr.limitText hi)
      |>.limited? cs
  | cs => some (t, cs)
partial_fixpoint

/-- Two dates, up to the closing bracket. -/
def dates? (cs : List Char) : Option ((Option Date × Option Date) × List Char) := do
  let (a, cs) ← before? ',' cs
  let (b, cs) ← before? '>' (cs.drop 1)
  return ((Function.invFun dateText a, Function.invFun dateText b), cs)

/-- What a reader is told of the names and of the side to which unions are grouped. -/
structure Reader where
  kinds : String → NameKind
  toLeft : Bool

mutual

/-- A type at the start of a text. -/
def Reader.read? (R : Reader) (cs : List Char) : Option (Ty × List Char) := do
  let (t, cs) ← R |>.side? cs
  R |>.unions? t cs
partial_fixpoint

/-- The alternatives that follow a type. -/
def Reader.unions? (R : Reader) (t : Ty) (cs : List Char) : Option (Ty × List Char) :=
  match after? " | " cs with
  | none => some (t, cs)
  | some cs => do
    let (u, cs) ← R |>.side? cs
    if R.toLeft then R |>.unions? (.union t u) cs
    else
      let (v, cs) ← R |>.unions? u cs
      return (.union t v, cs)
partial_fixpoint

/-- A single alternative, with its limits. -/
def Reader.side? (R : Reader) (cs : List Char) : Option (Ty × List Char) := do
  let (w, rest) := wordBefore typeMarks cs
  match rest with
  | '<' :: cs =>
    let (t, cs) ← R |>.inside? w cs
    limited? t cs
  | '[' :: cs =>
    if w = "" then
      let (t, cs) ← R |>.read? cs
      limited? (.array t) (cs.drop 1)
    else limited? (ofWord R.kinds w) ('[' :: cs)
  | cs => limited? (ofWord R.kinds w) cs
partial_fixpoint

/-- What is in the brackets after a name. -/
def Reader.inside? (R : Reader) (w : String) (cs : List Char) : Option (Ty × List Char) := do
  if w = "Citation" then
    let (s, cs) ← before? ',' cs
    let (sub, cs) ← before? ',' (cs.drop 1)
    let (act, cs) ← before? '>' (cs.drop 1)
    return (.citation ⟨s, sub, act⟩, cs)
  else if w = "ValidDate" then
    let ((after, before), cs) ← dates? cs
    return (.validDate after before, cs)
  else if w = "money" then
    let (code, cs) ← before? '>' cs
    return (.moneyIn code, cs)
  else
    let (t, cs) ← R |>.read? cs
    if w = "Temporal" then
      let ((opens, closes), cs) ← dates? (cs.drop 2)
      return (.temporal t opens closes, cs)
    else
      let (ts, cs) ← R |>.others? cs
      return (ofWordAt w t ts, cs)
partial_fixpoint

/-- Further types up to the closing bracket. -/
def Reader.others? (R : Reader) (cs : List Char) : Option (List Ty × List Char) := do
  match cs with
  | ',' :: cs =>
    let (t, cs) ← R |>.read? (cs.drop 1)
    let (ts, cs) ← R |>.others? cs
    return (t :: ts, cs)
  | cs => return ([], cs.drop 1)
partial_fixpoint

end

end

variable {R : Reader} {t u : Ty} {w : String} {rest cs : List Char}

theorem limited?_of_stops (hr : StopsAt (' ' :: endMarks) rest) (t : Ty) :
    limited? t rest = some (t, rest) := by
  rw [limited?.eq_def]
  split
  next cs => exact absurd (hr '[' rfl) (by decide)
  · rfl

theorem unions?_of_stops (hr : StopsAt endMarks rest) (t : Ty) :
    R.unions? t rest = some (t, rest) := by
  have hnone : after? " | " rest = none := by
    cases rest with
    | nil => rfl
    | cons c rest =>
      have hc : c ≠ ' ' := fun hc => absurd (hr c rfl) (hc ▸ by decide)
      simpa [after?, isPrefixOf?] using fun h => absurd h.symm hc
  rw [Reader.unions?.eq_def, hnone]

theorem limited?_append (t : Ty) (lo hi : Option Int) (rest : List Char) :
    limited? t ('[' :: ((TypeExpr.limitText lo).toList ++ '.' :: '.' ::
      ((TypeExpr.limitText hi).toList ++ ']' :: rest))) = limited? (.refine t lo hi) rest := by
  have hfree {c : Char} (hc : c ∈ [' ', ',', '.', ':', '<', '>', '[', ']']) (n : Option Int) :
      c ∉ (TypeExpr.limitText n).toList := fun hmem =>
    not_isNumberMark hc (isNumberMark_of_mem_limitText hmem)
  have hread (n : Option Int) : Function.invFun TypeExpr.limitText (TypeExpr.limitText n) = n :=
    Function.leftInverse_invFun (fun _ _ => limitText_injective) n
  conv_lhs => rw [limited?.eq_def]
  show (before? '.' ((TypeExpr.limitText lo).toList ++ '.' :: _)).bind _ = _
  rw [before?_append (hfree (by decide) lo)]
  show (before? ']' ((TypeExpr.limitText hi).toList ++ ']' :: rest)).bind _ = _
  rw [before?_append (hfree (by decide) hi)]
  show limited? (.refine t (Function.invFun TypeExpr.limitText _)
    (Function.invFun TypeExpr.limitText _)) rest = _
  rw [hread, hread]

theorem side?_word (hw : IsWord w) (hr : StopsAt ('[' :: ' ' :: endMarks) rest) :
    R.side? (w.toList ++ rest) = limited? (ofWord R.kinds w) rest := by
  rw [Reader.side?.eq_def, wordBefore_append hw.2 (hr.mono (by decide))]
  dsimp only
  split
  next cs => exact absurd (hr '<' rfl) (by decide)
  next cs => rw [if_neg hw.1]
  · rfl

theorem side?_inside (hw : ∀ c ∈ w.toList, c ∉ typeMarks) (cs : List Char) :
    R.side? (w.toList ++ '<' :: cs) =
      (R.inside? w cs).bind fun r => limited? r.1 r.2 := by
  rw [Reader.side?.eq_def, wordBefore_append hw (stopsAt_cons (by decide) cs)]
  rfl

/-- The type is read wherever it stands: an alternative before its limits, one that others can be
joined to before them, and any before what ends it. -/
structure IsRead (R : Reader) (t : Ty) : Prop where
  side : t.isUnion = false → ∀ rest, StopsAt ('[' :: ' ' :: endMarks) rest →
    R.side? (t.text.toList ++ rest) = limited? t rest
  join : R.toLeft = true ∨ t.isUnion = false → ∀ rest, StopsAt (' ' :: endMarks) rest →
    R.read? (t.text.toList ++ rest) = R.unions? t rest
  whole : ∀ rest, StopsAt endMarks rest →
    R.read? (t.text.toList ++ rest) = some (t, rest)

theorem IsRead.of_side (h : ∀ rest, StopsAt ('[' :: ' ' :: endMarks) rest →
    R.side? (t.text.toList ++ rest) = limited? t rest) : t.IsRead R := by
  have hjoin (rest : List Char) (hr : StopsAt (' ' :: endMarks) rest) :
      R.read? (t.text.toList ++ rest) = R.unions? t rest := by
    rw [Reader.read?, h rest (hr.mono (by decide)), limited?_of_stops hr]
    rfl
  refine ⟨fun _ => h, fun _ => hjoin, fun rest hr => ?_⟩
  rw [hjoin rest (hr.mono (by decide)), unions?_of_stops hr]

theorem IsRead.of_word (hw : IsWord w) (htext : t.text = w) (ht : ofWord R.kinds w = t) :
    t.IsRead R :=
  .of_side fun rest hr => by rw [htext, side?_word hw hr, ht]

theorem IsRead.of_inside (hw : ∀ c ∈ w.toList, c ∉ typeMarks)
    (h : ∀ rest, ∃ cs, t.text.toList ++ rest = w.toList ++ '<' :: cs ∧
      R.inside? w cs = some (t, rest)) : t.IsRead R := by
  refine .of_side fun rest _ => ?_
  obtain ⟨cs, htext, hread⟩ := h rest
  rw [htext, side?_inside hw, hread]
  rfl

theorem dates?_append (d e : Option Date) (rest : List Char) :
    dates? ((dateText d).toList ++ ',' :: ' ' :: ((dateText e).toList ++ '>' :: rest)) =
      some ((d, e), rest) := by
  have hfree {c : Char} (hc : c ∈ [' ', ',', '.', ':', '<', '>', '[', ']']) (d : Option Date) :
      c ∉ (dateText d).toList := fun hmem =>
    not_isNumberMark hc (isNumberMark_of_mem_dateText hmem)
  have hread (d : Option Date) : Function.invFun dateText (dateText d) = d :=
    Function.leftInverse_invFun (fun _ _ => dateText_injective) d
  rw [dates?, before?_append (hfree (by decide) d)]
  show (before? '>' ((dateText e).toList ++ '>' :: rest)).bind _ = _
  rw [before?_append (hfree (by decide) e)]
  show some ((Function.invFun dateText _, Function.invFun dateText _), rest) = _
  rw [hread, hread]

theorem others?_append {ts : List Ty} (h : ∀ t ∈ ts, t.IsRead R) (rest : List Char) :
    R.others? (laterTexts (texts ts) ++ '>' :: rest) = some (ts, rest) := by
  induction ts with
  | nil =>
    rw [Reader.others?.eq_def]
    rfl
  | cons t ts ih =>
    obtain ⟨ht, hts⟩ := forall_mem_cons.mp h
    rw [texts, laterTexts_cons, cons_append, cons_append, append_assoc, Reader.others?.eq_def]
    show (R.read? (t.text.toList ++ _)).bind _ = _
    rw [ht.whole _ (stopsAt_laterTexts (by decide) (stopsAt_cons (by decide) rest) _)]
    exact congrArg (Option.bind · _) (ih hts)

/-- A name with types in brackets. -/
theorem IsRead.of_types (w : String) (ts : List Ty) (hw : ∀ c ∈ w.toList, c ∉ typeMarks)
    (hforms : w ∉ ["Citation", "ValidDate", "money", "Temporal"]) (hu : u.IsRead R)
    (hts : ∀ v ∈ ts, v.IsRead R)
    (htext : t.text.toList = w.toList ++ '<' :: (u.text.toList ++ (laterTexts (texts ts) ++ ['>'])))
    (ht : ofWordAt w u ts = t) : t.IsRead R := by
  refine .of_inside hw fun rest =>
    ⟨u.text.toList ++ (laterTexts (texts ts) ++ '>' :: rest), by simp [htext], ?_⟩
  have hstops : StopsAt endMarks (laterTexts (texts ts) ++ '>' :: rest) :=
    stopsAt_laterTexts (by decide) (stopsAt_cons (by decide) rest) _
  simp only [mem_cons, not_mem_nil, or_false, not_or] at hforms
  obtain ⟨hcitation, hdate, hmoney, htemporal⟩ := hforms
  rw [Reader.inside?, if_neg hcitation, if_neg hdate, if_neg hmoney, hu.whole _ hstops]
  show (if w = "Temporal" then _ else _) = _
  rw [if_neg htemporal, ← ht]
  exact congrArg (Option.bind · _) (others?_append hts rest)

theorem Readable.isRead (h : t.Readable R.kinds R.toLeft) : t.IsRead R := by
  induction t using Ty.induction with
  | h t ih =>
  obtain ⟨⟨hplain, hworded⟩, hinside⟩ := Every.iff_components.mp h
  replace ih := fun u hu => ih u hu (hinside u hu)
  have hof {n : String} (hn : Prim.ofName? n = none) : ofWord R.kinds n =
      match R.kinds n with
      | .struct => .struct n []
      | .enum => .enum n
      | .variable => .var n := by
    rw [ofWord, hn]
  cases t with
  | unknown => exact hworded.elim
  | prim p =>
    cases p with
    | _ => exact .of_word (by decide) rfl rfl
  | enum n => exact .of_word hplain.1 rfl (by rw [hof hworded, hplain.2])
  | var n => exact .of_word hplain.1 rfl (by rw [hof hplain.2.2, hplain.2.1])
  | struct n args =>
    obtain ⟨hword, hkind, hform⟩ := hplain
    cases args with
    | nil => exact .of_word hword rfl (by rw [hof hworded, hkind])
    | cons a args =>
      obtain ⟨ha, hargs⟩ := forall_mem_cons.mp ih
      have hforms : n ∉ formNames := hform (cons_ne_nil a args)
      have hmoney : n ≠ "money" := by
        rintro rfl
        cases hworded
      refine .of_types n args hword.2 (by simp_all [formNames]) ha hargs ?_ ?_
      · show (n ++ "<" ++ ", ".intercalate (a.text :: texts args) ++ ">").toList = _
        rw [String.toList_append, String.toList_append, String.toList_append,
          toList_comma_intercalate]
        simp
      · rw [ofWordAt, if_neg (by simp_all [formNames]), if_neg (by simp_all [formNames])]
  | citation c =>
    refine .of_inside (w := "Citation") (free_of_all (by decide)) fun rest =>
      ⟨c.sectionText.toList ++ ',' :: ' ' :: (c.subsection.toList ++ ',' :: ' ' ::
        (c.act.toList ++ '>' :: rest)), by rw [text.eq_def]; simp, ?_⟩
    rw [Reader.inside?, if_pos rfl, before?_append hplain.1]
    show (before? ',' (c.subsection.toList ++ ',' :: _)).bind _ = _
    rw [before?_append hworded]
    show (before? '>' (c.act.toList ++ '>' :: rest)).bind _ = _
    rw [before?_append hplain.2]
    rfl
  | temporal inner opens closes =>
    refine .of_inside (w := "Temporal") (free_of_all (by decide)) fun rest =>
      ⟨inner.text.toList ++ ',' :: ' ' :: ((dateText opens).toList ++ ',' :: ' ' ::
        ((dateText closes).toList ++ '>' :: rest)), by rw [text.eq_def]; simp, ?_⟩
    rw [Reader.inside?.eq_def]
    show (R.read? _).bind _ = _
    rw [(ih inner mem_cons_self).whole _ (stopsAt_cons (by decide) _)]
    exact (congrArg (Option.bind · _) (dates?_append opens closes rest))
  | validDate after before =>
    refine .of_inside (w := "ValidDate") (free_of_all (by decide)) fun rest =>
      ⟨(dateText after).toList ++ ',' :: ' ' :: ((dateText before).toList ++ '>' :: rest),
        by rw [text.eq_def]; simp, ?_⟩
    rw [Reader.inside?.eq_def]
    exact (congrArg (Option.bind · _) (dates?_append after before rest))
  | moneyIn code =>
    refine .of_inside (w := "money") (free_of_all (by decide)) fun rest =>
      ⟨code.toList ++ '>' :: rest, by rw [text.eq_def]; simp, ?_⟩
    rw [Reader.inside?.eq_def]
    show (before? '>' (code.toList ++ '>' :: rest)).bind _ = _
    rw [before?_append hworded]
    rfl
  | array inner =>
    refine .of_side fun rest hr => ?_
    have htext : (array inner).text.toList ++ rest = '[' :: (inner.text.toList ++ ']' :: rest) := by
      rw [text.eq_def]
      simp
    rw [htext, Reader.side?.eq_def]
    show (R.read? _).bind _ = _
    rw [(ih inner mem_cons_self).whole _ (stopsAt_cons (by decide) _)]
    rfl
  | positive inner =>
    exact .of_types "Positive" [] (free_of_all (by decide)) (by decide) (ih inner mem_cons_self)
      (by simp) (by rw [text.eq_def]; simp [laterTexts, texts]) rfl
  | nonEmpty inner =>
    exact .of_types "NonEmpty" [] (free_of_all (by decide)) (by decide) (ih inner mem_cons_self)
      (by simp) (by rw [text.eq_def]; simp [laterTexts, texts]) rfl
  | refine base lo hi =>
    refine .of_side fun rest hr => ?_
    have htext : (refine base lo hi).text.toList ++ rest = base.text.toList ++
        '[' :: ((TypeExpr.limitText lo).toList ++ '.' :: '.' ::
          ((TypeExpr.limitText hi).toList ++ ']' :: rest)) := by
      rw [text.eq_def]
      simp
    rw [htext, (ih base mem_cons_self).side hplain _ (stopsAt_cons (by decide) _), limited?_append]
  | union a b =>
    obtain ⟨ha, hb⟩ := forall_mem_cons.mp ih
    replace hb := hb b mem_cons_self
    have htext (rest : List Char) : (union a b).text.toList ++ rest =
        a.text.toList ++ (" | ".toList ++ (b.text.toList ++ rest)) := by
      rw [text.eq_def]
      simp
    have hunions (rest : List Char) : R.unions? a (" | ".toList ++ rest) =
        (R.side? rest).bind fun u =>
          if R.toLeft then R.unions? (.union a u.1) u.2
          else (R.unions? u.1 u.2).bind fun v => some (.union a v.1, v.2) := by
      rw [Reader.unions?.eq_def, after?_append]
      rfl
    have hbar (rest : List Char) : StopsAt (' ' :: endMarks) (" | ".toList ++ rest) :=
      stopsAt_cons (c := ' ') (by decide) _
    obtain ⟨kinds, toLeft⟩ := R
    cases toLeft with
    | true =>
      have hjoin (rest : List Char) (hr : StopsAt (' ' :: endMarks) rest) :
          Reader.read? ⟨kinds, true⟩ ((union a b).text.toList ++ rest) =
            Reader.unions? ⟨kinds, true⟩ (.union a b) rest := by
        rw [htext, ha.join (.inl rfl) _ (hbar _), hunions, hb.side hplain _ (hr.mono (by decide)),
          limited?_of_stops hr]
        rfl
      refine ⟨by simp [isUnion], fun _ => hjoin, fun rest hr => ?_⟩
      rw [hjoin rest (hr.mono (by decide)), unions?_of_stops hr]
    | false =>
      refine ⟨by simp [isUnion], by simp [isUnion], fun rest hr => ?_⟩
      have hread := hb.whole rest hr
      rw [Reader.read?] at hread
      rw [htext, ha.join (.inr hplain) _ (hbar _), hunions]
      simp only [Bool.false_eq_true, if_false]
      rw [← Option.bind_assoc]
      exact congrArg (Option.bind · _) hread

/-- Readable types with the same text are the same. -/
theorem Readable.text_injective {kinds : String → NameKind} {toLeft} (ht : t.Readable kinds toLeft)
    (hu : u.Readable kinds toLeft) (h : t.text = u.text) : t = u := by
  have hread := (isRead (R := ⟨kinds, toLeft⟩) ht).whole [] (stopsAt_nil _)
  rw [h, (isRead hu).whole [] (stopsAt_nil _)] at hread
  exact (congrArg Prod.fst (Option.some.inj hread)).symm

end Ty

end Statute
