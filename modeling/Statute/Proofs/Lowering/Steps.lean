import Statute.Proofs.Check.Inversion
import Statute.Proofs.Lowering.Registry

/-!
# Steps of lowering on checked operands

What the checker has found out about operands carries each step of lowering over to a result of the
sort of its type. A step stops only where the logic has no counterpart for something, or at sorts
that differ although the checker accepts the operands. The lemmas say where that can be: they take
the excuse for a mismatch as a hypothesis under the conditions in which they need it.
-/

namespace Statute

open Logic Checking

open Draft (Registers)

variable {span : Span} {s : SmtSort} {u : Ty} {r : Lowered}

variable {k : ObstacleKind} {a : Ty} {t : SmtSort} {span' : Span}

/-!
## Operators
-/

section Operators

variable {T : String → List Ty → Prop} {E : ObstacleKind → Prop} {d : Draft} {b : Ty}
  {op : BinaryOp}

/-- A term of the first sort can be made one of the second, or a mismatch is excused. -/
def Coerces (E : ObstacleKind → Prop) (source target : SmtSort) : Prop :=
  source = target ∨ (source = .int ∧ target = .real) ∨ E (.sortMismatch target.text source.text)

theorem Coerces.excuses {source target : SmtSort} {t : Term} (h : Coerces E source target)
    (hk : coerce? t source target = none ∧ k = .sortMismatch target.text source.text) : E k := by
  obtain ⟨hnone, rfl⟩ := hk
  rcases h with rfl | ⟨rfl, rfl⟩ | hE
  · simp [coerce?] at hnone
  · cases t <;> simp [coerce?] at hnone
  · exact hE

theorem ends_coerce {source target : SmtSort} {t : Term} (h : Coerces E source target)
    (hd : d.Registers T) :
    Ends (Registers T) E (coerce t source target span) d fun _ _ => True :=
  (decides_coerce.run hd fun _ _ hk => h.excuses hk).mono fun _ _ _ _ => trivial

theorem coerces_of_fits {env : Env} (ha : a.coreSort? = some s) (hb : b.coreSort? = some t)
    (h : fits env a b)
    (hE : a.StructsDiffer b → E (.sortMismatch (structSortName a.core) (structSortName b.core))) :
    Coerces E t s := by
  rcases Ty.sorts_of_fits ha hb h with hsame | ⟨hs, ht, -⟩ | hdiffer
  · exact .inl hsame.symm
  · exact .inr (.inl ⟨ht, hs⟩)
  obtain ⟨hs, ht⟩ := hdiffer.text ha hb
  refine .inr (.inr ?_)
  rw [hs, ht]
  exact hE hdiffer

theorem ends_expectSort (hd : d.Registers T) :
    Ends (Registers T) E (expectSort s s span) d fun _ _ => True :=
  (decides_expectSort.run hd fun _ _ hk => absurd rfl hk).mono fun _ _ _ _ => trivial

theorem ends_lowerUnary {op : UnaryOp} (hr : d.Sorted T a r.2) (hu : Gives (unaryType op a span) u)
    (hd : d.Registers T) :
    Ends (Registers T) E (lowerUnary op r span') d fun r' d' => d'.Sorted T u r'.2 := by
  obtain ⟨t, s⟩ := r
  rcases (passes_unaryType op a span).result u hu with ⟨rfl, hbool, rfl⟩ | ⟨rfl, hnumeric, rfl⟩
  · obtain rfl := Ty.sort_of_isBool hr.1 hbool
    exact (ends_expectSort hd).bind fun _ d' hd' _ _ => .pure hd' (.of_prim rfl)
  obtain ⟨p, -, hp, hs⟩ := Ty.prim_of_isNumeric hr.1 hnumeric
  have hsort : s.isNumeric = true := by
    rcases Prim.sort_of_isNumeric hp hs with ⟨-, rfl⟩ | ⟨-, rfl⟩
    · rfl
    · rfl
  unfold lowerUnary
  dsimp only
  rw [if_pos hsort]
  exact .pure hd hr.core

theorem joinedSort?_self (s : SmtSort) : joinedSort? s s = some s := if_pos (by simp)

/-- What can be compared meets at some sort, and at one of numbers if an order is asked for, unless
two struct types are tested for equality. -/
theorem joins_of_comparable (hs : a.coreSort? = some s) (ht : b.coreSort? = some t)
    (h : comparable op a b) :
    (∃ joined, joinedSort? s t = some joined ∧
      (op = .eq ∨ op = .ne ∨ joined.isNumeric)) ∨
    ((op = .eq ∨ op = .ne) ∧ a.StructsDiffer b) := by
  have hequal (hop : op = .eq ∨ op = .ne) (h : a.accepts b = true ∨ b.accepts a = true) :
      (∃ joined, joinedSort? s t = some joined ∧
        (op = .eq ∨ op = .ne ∨ joined.isNumeric = true)) ∨
      ((op = .eq ∨ op = .ne) ∧ a.StructsDiffer b) := by
    have hop' (joined : SmtSort) : op = .eq ∨ op = .ne ∨ joined.isNumeric = true :=
      hop.elim .inl fun hne => .inr (.inl hne)
    rcases h with h | h
    · rcases Ty.sorts_of_accepts hs ht h with rfl | ⟨rfl, rfl, -⟩ | hdiffer
      · exact .inl ⟨s, joinedSort?_self s, hop' s⟩
      · exact .inl ⟨.real, rfl, hop' _⟩
      · exact .inr ⟨hop, hdiffer⟩
    · rcases Ty.sorts_of_accepts ht hs h with rfl | ⟨rfl, rfl, -⟩ | hdiffer
      · exact .inl ⟨t, joinedSort?_self t, hop' t⟩
      · exact .inl ⟨.real, rfl, hop' _⟩
      · exact .inr ⟨hop, hdiffer.symm⟩
  unfold comparable at h
  split at h
  · exact hequal (.inl rfl) (by simpa using h)
  · exact hequal (.inr rfl) (by simpa using h)
  simp only [Bool.and_eq_true, Bool.or_eq_true, beq_iff_eq] at h
  obtain ⟨⟨⟨hordered, -⟩, hsame⟩, h⟩ := h
  by_cases hnumeric : a.isNumeric = true
  · grind [sort_of_arithmeticType]
  -- dates and durations are ordered among themselves
  have haccepts := h.resolve_left hnumeric
  have hint : s = .int ∧ ∀ n as, a.core ≠ .struct n as := by
    unfold Ty.isOrdered at hordered
    unfold Ty.coreSort? at hs
    rw [Bool.or_eq_true, or_iff_right hnumeric] at hordered
    split at hordered
    case h_3 => cases hordered
    all_goals
      simp only [‹a.core = _›] at hs ⊢
      exact ⟨(Option.some.inj hs).symm, by simp⟩
  obtain ⟨rfl, hcore⟩ := hint
  rcases Ty.sorts_of_accepts hs ht haccepts with rfl | ⟨hreal, -⟩ | ⟨n, as, _, _, hn, -⟩
  · exact .inl ⟨.int, rfl, .inr (.inr rfl)⟩
  · cases hreal
  · exact absurd hn (hcore n as)

/-- The sort of an operation is that of its type. -/
theorem Suits.prim_of_combines {l r' : Lowered} (hl : a.coreSort? = some l.2)
    (hr : b.coreSort? = some r.2) (hu : Suits op a b u) (h : Combines op l r r') :
    ∃ p, u = .prim p ∧ p.coreSort? = some r'.2 := by
  cases hu with
  | logical hop =>
    cases h with
    | logical => exact ⟨.bool, rfl, rfl⟩
    | comparison hlogical | arithmetic hlogical => simp [hop] at hlogical
  | comparison hlogical hop =>
    cases h with
    | logical hop' => simp [hlogical] at hop'
    | comparison => exact ⟨.bool, rfl, rfl⟩
    | arithmetic _ hcomparison => simp [hop] at hcomparison
  | duration hlogical hcomparison h' =>
    cases h with
    | logical hop => simp [hlogical] at hop
    | comparison _ hop => simp [hcomparison] at hop
    | arithmetic _ _ hjoined =>
      obtain ⟨rfl, rfl, p, rfl, hp⟩ := sort_of_durationType? hl hr h'
      cases hjoined
      exact ⟨p, rfl, hp⟩
  | arithmetic hlogical hcomparison hla hra =>
    cases h with
    | logical hop => simp [hlogical] at hop
    | comparison _ hop => simp [hcomparison] at hop
    | arithmetic _ _ hjoined => grind [sort_of_arithmeticType]

/-- Operands that suit an operator clash only as different struct types and in a remainder of
numbers that are not whole. -/
theorem Suits.excuses (hs : a.coreSort? = some s) (ht : b.coreSort? = some t) (hu : Suits op a b u)
    (hmod : op = .mod → ¬(a.core = .int ∧ b.core = .int) → E (.sortMismatch "Int" "Real")) (heq : op
      = .eq ∨ op = .ne → a.StructsDiffer b → E (.sortMismatch (structSortName a.core)
      (structSortName b.core))) (h : Clashes op s t k) : E k := by
  cases hu with
  | logical hop hla hra =>
    cases h with
    | logical _ hnot =>
      simp [Ty.sort_of_isBool hs hla, Ty.sort_of_isBool ht hra] at hnot
    | apart hlogical | numbers hlogical => simp [hop] at hlogical
    | modulo hmodulo =>
      subst hmodulo
      cases hop
  | comparison hlogical hop hcomparable =>
    have hjoins := joins_of_comparable hs ht hcomparable
    cases h with
    | logical hop' => simp [hlogical] at hop'
    | apart _ hnone => grind [Ty.StructsDiffer.text]
    | numbers _ hjoined hnotEq hnotNe hnot => grind
    | modulo hmodulo =>
      subst hmodulo
      cases hop
  | duration hlogical _ h' =>
    obtain ⟨rfl, rfl, -⟩ := sort_of_durationType? hs ht h'
    cases h with
    | logical hop => simp [hlogical] at hop
    | apart _ hnone => cases hnone
    | numbers _ hjoined _ _ hnot =>
      cases hjoined
      cases hnot
    | modulo _ hjoined hint =>
      cases hjoined
      exact absurd rfl hint
  | arithmetic hlogical _ hla hra =>
    obtain ⟨joined', v, hjoined', hnumeric, -, -, hreal⟩ := sort_of_arithmeticType hs ht hla hra
    cases h with
    | logical hop => simp [hlogical] at hop
    | apart _ hnone => cases hnone.symm.trans hjoined'
    | numbers _ hjoined _ _ hnot => grind
    | modulo hop hjoined hint =>
      cases hjoined.symm.trans hjoined'
      obtain ⟨rfl, hnot⟩ := hreal hint
      exact hmod hop hnot

theorem ends_lowerBinary {l lspan rspan} (hl : d.Sorted T a l.2) (hr : d.Sorted T b r.2)
    (hu : Suits op a b u)
    (hmod : op = .mod → ¬(a.core = .int ∧ b.core = .int) → E (.sortMismatch "Int" "Real")) (heq : op
      = .eq ∨ op = .ne → a.StructsDiffer b → E (.sortMismatch (structSortName a.core)
      (structSortName b.core))) (hd : d.Registers T) :
    Ends (Registers T) E (lowerBinary op l r lspan rspan) d fun r' d' => d'.Sorted T u r'.2 := by
  refine (decides_lowerBinary.run hd fun k _ hk => hu.excuses hl.1 hr.1 hmod heq hk).mono
    fun r' d' _ hr' => ?_
  obtain ⟨p, rfl, hp⟩ := hu.prim_of_combines hl.1 hr.1 hr'.1
  exact .of_prim hp

end Operators

/-!
## Fields, legal tests and patterns
-/

section Patterns

variable {env : Env} {T : String → List Ty → Prop} {E : ObstacleKind → Prop} {d : Draft}

/-- No two struct types that may occur have the same sort. -/
def SortsApart (T : String → List Ty → Prop) : Prop :=
  ∀ n as m bs, T n as → T m bs →
    structSortName (.struct n as) = structSortName (.struct m bs) → n = m ∧ as = bs

/-- What the register holds for the sort of a struct type is this struct type. -/
theorem Draft.Sorted.lookup (hapart : SortsApart T) {ty : Ty} {n args} (h : d.Sorted T ty s)
    (hcore : ty.core = .struct n args) (hd : d.Registers T) :
    s = .free (structSortName (.struct n args)) ∧ T n args ∧
      d.structs.lookup (structSortName (.struct n args)) = some (n, args) := by
  obtain ⟨hsort, hstruct⟩ := h
  obtain ⟨hT, hfound⟩ := hstruct n args hcore
  rw [Ty.coreSort?, hcore] at hsort
  refine ⟨(Option.some.inj hsort).symm, hT, ?_⟩
  obtain ⟨⟨m, brgs⟩, hm⟩ := Option.isSome_iff_exists.mp hfound
  obtain ⟨before, after, hstructs, -⟩ := List.lookup_eq_some_iff.mp hm
  obtain ⟨hname, hT'⟩ := hd (structSortName (.struct n args), m, brgs) (by simp [hstructs])
  obtain ⟨rfl, rfl⟩ := hapart n args m brgs hT hT' hname
  exact hm

theorem ends_lowerMember {cx : LoweringContext} (hclosed : Closes cx T) (hapart : SortsApart T)
    (hE : ∀ what, E (.unsupported what)) {field : Ident} (hr : d.Sorted T a r.2)
    (hu : Gives (memberType cx.env a span field) u) (hd : d.Registers T) :
    Ends (Registers T) E (lowerMember cx.env r span' field) d fun r' d' => d'.Sorted T u r'.2 := by
  obtain ⟨t, s⟩ := r
  rcases (passes_memberType _ _ _ _).result u hu with hcore | ⟨n, args, hcore, hfield⟩
  · have hnone := hr.1
    rw [Ty.coreSort?, hcore] at hnone
    cases hnone
  obtain ⟨hs, hT, hlookup⟩ := hr.lookup hapart hcore hd
  subst hs
  refine (Run.get hd).bind fun st d' hd' _ hst => ?_
  obtain ⟨rfl, -⟩ := hst
  dsimp only
  rw [hlookup]
  dsimp only [Option.map_some]
  rw [hfield]
  have hadmits : ∀ m brgs, u.core = .struct m brgs → T m brgs :=
    hclosed.fields n args field.name u hT hfield
  refine (ends_sortOf hE hadmits hd').bind fun r d₁ hd₁ _ hr => ?_
  refine (ends_addFunction hd₁).bind fun _ d₂ hd₂ hle₂ _ => ?_
  exact .pure hd₂ (hr.mono hle₂)

theorem ends_lowerRequirements {test names} (hd : d.Registers T) :
    Ends (Registers T) E (lowerRequirements test r names) d fun _ _ => True := by
  induction names generalizing d with
  | nil => exact .pure hd trivial
  | cons name names ih =>
    refine (Run.get hd).bind fun st d₁ hd₁ _ _ => (ends_addFunction hd₁).bind ?_
    intro _ d₂ hd₂ _ _
    exact (ih hd₂).bind fun _ d₃ hd₃ _ _ => .pure hd₃ trivial

theorem ends_lowerTest {test : Ident} (h : ∃ info, env.test? test.name = some info)
    (hd : d.Registers T) : Ends (Registers T) E (lowerTest env test r) d fun _ _ => True := by
  obtain ⟨info, hinfo⟩ := h
  unfold lowerTest
  rw [hinfo]
  exact (ends_lowerRequirements hd).bind fun _ d' hd' _ _ => .pure hd' trivial

theorem Literal.coreSort_of_encoding? {v : Literal} (h : v.encoding? = some r) :
    (literalPrim v).coreSort? = some r.2 := by
  cases v with
  | date text =>
    obtain ⟨_, -, rfl⟩ := Option.map_eq_some_iff.mp h
    rfl
  | _ => cases h <;> rfl

theorem ends_lowerLiteral {v : Literal} (hE : ∀ what, E (.unsupported what)) (hd : d.Registers T) :
    Ends (Registers T) E (lowerLiteral v span) d fun r _ =>
      (literalPrim v).coreSort? = some r.2 := by
  refine (decides_lowerLiteral.run hd fun k _ hk => ?_).mono fun _ _ _ hr =>
    v.coreSort_of_encoding? hr.1
  obtain ⟨what, rfl⟩ := hk
  exact hE what

theorem ends_lowerVariant {type variant : Ident}
    (h : ∃ info, env.enum? type.name = some info ∧ info.hasVariant variant.name)
    (hd : d.Registers T) :
    Ends (Registers T) E (lowerVariant env type variant span) d fun r _ =>
      r.2 = .enum type.name := by
  obtain ⟨info, hinfo, hvariant⟩ := h
  unfold lowerVariant
  rw [hinfo, Option.filter_some, if_pos hvariant]
  exact (ends_enumSort hd).bind fun s d' hd' _ hs => .pure hd' hs

/-- A pattern that suits the scrutinee can be lowered. Only numbers that are not whole may be in the
place of whole ones. -/
theorem ends_lowerPattern {s : Ty} {p : Pattern} (hE : ∀ what, E (.unsupported what))
    (hr : d.Sorted T s r.2) (hsuits : p.Suits env s) (hliteral : ∀ span v, p = .literal span v →
      s.core = .int → (literalPrim v).isNumeric → literalPrim v ≠ .int → E (.sortMismatch
      "Int" "Real")) (hd : d.Registers T) :
    Ends (Registers T) E (lowerPattern env r p) d fun c _ => c.2 = p.boundLocals r := by
  cases p with
  | wildcard | binding => exact .pure hd rfl
  | literal span v =>
    refine (ends_lowerLiteral hE hd).bind fun l d₁ hd₁ _ hl => ?_
    obtain ⟨t, source⟩ := l
    have hl : (Ty.prim (literalPrim v)).coreSort? = some source := hl
    have hcoerces : Coerces E source r.2 := by
      rcases hsuits with haccepts | haccepts
      · rcases Ty.sorts_of_accepts hr.1 hl haccepts with hsame | ⟨hs, ht, -⟩ | hdiffer
        · exact .inl hsame.symm
        · exact .inr (.inl ⟨ht, hs⟩)
        · obtain ⟨_, _, _, _, -, hv, -⟩ := hdiffer
          cases hv
      · rcases Ty.sorts_of_accepts hl hr.1 haccepts with hsame | ⟨hs, ht, hint⟩ | hdiffer
        · exact .inl hsame
        · obtain ⟨hnumeric, hne⟩ := Prim.isNumeric_of_real (hs ▸ hl)
          refine .inr (.inr ?_)
          rw [hs, ht]
          exact hliteral span v rfl hint hnumeric hne
        · obtain ⟨_, _, _, _, hv, -⟩ := hdiffer
          cases hv
    refine (ends_coerce hcoerces hd₁).bind fun t d₂ hd₂ _ _ => ?_
    exact .pure hd₂ rfl
  | variant span type variant =>
    obtain ⟨hfits, hinfo⟩ := hsuits
    refine (ends_lowerVariant hinfo hd).bind fun l d₁ hd₁ _ hl => ?_
    obtain ⟨t, source⟩ := l
    have hsame : r.2 = source := by
      have henum : (Ty.enum type.name).coreSort? = some source := congrArg some hl.symm
      rcases Ty.sorts_of_fits hr.1 henum hfits with hsame | ⟨-, ht, -⟩ | ⟨_, _, _, _, -, hn, -⟩
      · exact hsame
      · cases hl.symm.trans ht
      · cases hn
    rw [hsame]
    exact (ends_expectSort hd₁).bind fun _ d₂ hd₂ _ _ => .pure hd₂ rfl
  | satisfies span test =>
    exact (ends_lowerTest hsuits hd).bind fun _ d' hd' _ _ => .pure hd' rfl

end Patterns

/-!
## Arms
-/

section Arms

variable {env : Env} {T : String → List Ty → Prop} {E : ObstacleKind → Prop} {d : Draft}

/-- The lowered arms have the sorts of the types, in the same order. There may be more types. -/
inductive ArmsSorted (T : String → List Ty → Prop) (d : Draft) :
    List LoweredArm → List (Ty × Span) → Prop where
  | nil {ts} : ArmsSorted T d [] ts
  | cons {a arms t ts} (ha : d.Sorted T t.1 a.sort) (harms : ArmsSorted T d arms ts) :
      ArmsSorted T d (a :: arms) (t :: ts)

variable {a : LoweredArm} {arms : List LoweredArm}

theorem ArmsSorted.exists_type {a : LoweredArm} {arms ts} (h : ArmsSorted T d arms ts)
    (ha : a ∈ arms) : ∃ t ∈ ts, d.Sorted T t.1 a.sort := by
  induction h with
  | nil => cases ha
  | @cons _ _ t ts hfirst _ ih => grind

/-- The sort of a `match` is that of its first arm, if the others fit that. -/
theorem armsSort_cons (env : Env) {t : Ty} (ha : t.coreSort? = some a.sort)
    (h : ∀ b ∈ arms, ∃ u : Ty, u.coreSort? = some b.sort ∧ fits env t u) :
    armsSort (a :: arms) = a.sort := by
  unfold armsSort
  split
  next hreal =>
    simp only [Bool.and_eq_true, List.any_eq_true, List.all_eq_true, beq_iff_eq] at hreal
    obtain ⟨⟨b, hb, hsort⟩, hall⟩ := hreal
    have hnumeric := hall a List.mem_cons_self
    rcases List.mem_cons.mp hb with rfl | hb
    · exact hsort.symm
    obtain ⟨u, hu, hfits⟩ := h b hb
    rcases Ty.sorts_of_fits ha hu hfits with hsame | ⟨-, hint, -⟩ | ⟨n, as, _, _, hcore, -⟩
    · rw [hsame, hsort]
    · cases hint.symm.trans hsort
    -- a struct type is not one of numbers
    rw [Ty.coreSort?, hcore] at ha
    rw [← Option.some.inj ha] at hnumeric
    cases hnumeric
  · rfl

/-- A `match` has the sort of its first arm, if all others fit that. -/
theorem ends_lowerArms {place closed} {t : Ty} {ts} (hE : ∀ what, E (.unsupported what))
    (ha : d.Sorted T t a.sort) (harms : ArmsSorted T d arms ts) (hfits : ∀ u ∈ ts, fits env t u.1)
      (hdiffer : ∀ u ∈ ts, t.StructsDiffer u.1 → E (.sortMismatch (structSortName t.core)
      (structSortName u.1.core))) (hd : d.Registers T) :
    Ends (Registers T) E (lowerArms place (a :: arms) closed) d fun r d' => d'.Sorted T t r.2 := by
  have hother (b : LoweredArm) (hb : b ∈ arms) :
      ∃ u : Ty, u.coreSort? = some b.sort ∧ fits env t u = true ∧ Coerces E b.sort a.sort := by
    obtain ⟨u, hu, hb⟩ := harms.exists_type hb
    exact ⟨u.1, hb.1, hfits u hu, coerces_of_fits ha.1 hb.1 (hfits u hu) (hdiffer u hu)⟩
  have hsort : armsSort (a :: arms) = a.sort := by
    refine armsSort_cons env ha.1 fun b hb => ?_
    obtain ⟨u, hu, hfits, -⟩ := hother b hb
    exact ⟨u, hu, hfits⟩
  refine (decides_lowerArms.run hd fun k _ hk => ?_).mono fun r d' _ hr => ?_
  · rcases hk with ⟨what, rfl⟩ | ⟨b, hb, hk⟩
    · exact hE what
    rw [hsort] at hk
    have hcoerces : Coerces E b.sort a.sort := by
      rcases List.mem_cons.mp hb with rfl | hb
      · exact .inl rfl
      · grind
    exact hcoerces.excuses hk
  · grind

end Arms

end Statute
