import Statute.Proofs.Lowering.Rules

/-!
# Steps that only decide

Many steps of lowering neither look at the draft nor change it: they come to a result or stop, and
never for the sake of depth. `Decides` says what they come to and what they stop at. It is found out
here once for literals, operators, calls and the arms of a `match`; whatever is kept up while
lowering goes on, such a step keeps up, `Decides.run`.
-/

namespace Statute

open Logic

/-- The obstacle is the depth of quantifiers. -/
def ObstacleKind.isDepth : ObstacleKind → Bool
  | .quantifierDepthExceeded _ _ => true
  | _ => false

/-- The step comes to a result that satisfies `Q`, or stops at an obstacle of a kind in `F`. The
draft does not matter. -/
inductive Decides {β : Type} (Q : β → Prop) (F : ObstacleKind → Prop) : Lowering β → Prop where
  | pure {b : β} (h : Q b) : Decides Q F (pure b)
  | stop {f : LoweringFault} {span : Span} (hdepth : f.kind.isDepth = false) (h : F f.kind) :
      Decides Q F (Lowering.stop f span)

namespace Decides

variable {β γ : Type} {Q : β → Prop} {F : ObstacleKind → Prop} {x : Lowering β}

theorem bind {P : γ → Prop} {G : ObstacleKind → Prop} {f : β → Lowering γ} (hx : Decides Q F x)
    (hF : ∀ k, F k → G k) (hf : ∀ b, Q b → Decides P G (f b)) : Decides P G (x >>= f) := by
  cases hx with
  | pure h => exact hf _ h
  | stop hdepth h => exact .stop hdepth (hF _ h)

/-- Whatever is to be kept up is. -/
theorem run {I : Draft → Prop} {R : Draft → Draft → Prop} [IsPreorder Draft R]
    {E : ObstacleKind → Prop} {d : Draft} (hx : Decides Q F x) (hd : I d)
    (hE : ∀ k, k.isDepth = false → F k → E k) : Run I R E x d fun b d' => Q b ∧ d' = d := by
  cases hx with
  | pure h => exact .pure hd ⟨h, rfl⟩
  | stop hdepth h => exact .stop hd (hE _ hdepth h)

theorem results (hx : Decides Q F x) : Results x Q := by
  cases hx with
  | pure h => exact .pure h
  | stop => exact .stop

end Decides

section Operators

variable {span : Span}

theorem decides_coerce {t : Term} {source target : SmtSort} :
    Decides (fun t' => coerce? t source target = some t')
      (fun k => coerce? t source target = none ∧ k = .sortMismatch target.text source.text)
      (coerce t source target span) := by
  unfold coerce
  split
  next t' ht' => exact .pure ht'
  next hnone => exact .stop rfl ⟨hnone, rfl⟩

theorem decides_expectSort {expected got : SmtSort} :
    Decides (fun _ => got = expected) (fun _ => got ≠ expected) (expectSort expected got span) := by
  unfold expectSort
  split
  next h => exact .pure (by simpa using h : expected = got).symm
  next h => exact .stop rfl fun hsame => h (by simp [hsame])

theorem decides_lowerLiteral {v : Literal} :
    Decides (fun r => v.encoding? = some r) (fun k => ∃ what, k = .unsupported what)
      (lowerLiteral v span) := by
  cases v with
  | date text =>
    unfold lowerLiteral
    dsimp only
    split
    next day hday => exact .pure (by rw [Literal.encoding?, hday]; rfl)
    · exact .stop rfl ⟨_, rfl⟩
  | duration | pass => exact .stop rfl ⟨_, rfl⟩
  | _ => exact .pure rfl

/-- What an operator makes of a lowered operand. -/
inductive Negates : UnaryOp → Lowered → Lowered → Prop where
  | not {t} : Negates .not (t, .bool) (.not t, .bool)
  | neg {t s} (hs : s.isNumeric = true) : Negates .neg (t, s) (.neg t, s)

theorem decides_lowerUnary {op r} :
    Decides (Negates op r)
      (fun _ => (op = .not ∧ r.2 ≠ .bool) ∨ (op = .neg ∧ r.2.isNumeric = false))
      (lowerUnary op r span) := by
  obtain ⟨t, s⟩ := r
  cases op with
  | not =>
    refine decides_expectSort.bind (fun _ hs => .inl ⟨rfl, hs⟩) fun _ hs => ?_
    subst hs
    exact .pure .not
  | neg =>
    unfold lowerUnary
    dsimp only
    split
    next hs => exact .pure (.neg hs)
    next hs => exact .stop rfl (.inr ⟨rfl, by simpa using hs⟩)

/-- What an operator makes of two lowered operands, which are brought to the sort where they
meet. -/
inductive Combines (op : BinaryOp) : Lowered → Lowered → Lowered → Prop where
  | logical {a b} (hop : op.isLogical = true) :
      Combines op (a, .bool) (b, .bool) (connective op a b, .bool)
  | comparison {a b s t joined a' b'} (hlogical : op.isLogical = false)
      (hop : op.isComparison = true) (hjoined : joinedSort? s t = some joined)
      (ha : coerce? a s joined = some a') (hb : coerce? b t joined = some b')
      (hordered : op = .eq ∨ op = .ne ∨ joined.isNumeric = true) :
      Combines op (a, s) (b, t) (.cmp (comparisonOf op) a' b', .bool)
  | arithmetic {a b s t joined a' b'} (hlogical : op.isLogical = false)
      (hcomparison : op.isComparison = false) (hjoined : joinedSort? s t = some joined)
      (ha : coerce? a s joined = some a') (hb : coerce? b t joined = some b')
      (hnumeric : joined.isNumeric = true) :
      Combines op (a, s) (b, t) (.arith (arithmeticOf op) joined a' b', joined)

/-- Operands of these sorts do not go with the operator. -/
inductive Clashes (op : BinaryOp) (s t : SmtSort) : ObstacleKind → Prop where
  | logical {k} (hop : op.isLogical = true) (h : s ≠ .bool ∨ t ≠ .bool) : Clashes op s t k
  | apart (hlogical : op.isLogical = false) (hjoined : joinedSort? s t = none) :
      Clashes op s t (.sortMismatch s.text t.text)
  | numbers {k joined} (hlogical : op.isLogical = false) (hjoined : joinedSort? s t = some joined)
      (heq : op ≠ .eq) (hne : op ≠ .ne) (hnumeric : joined.isNumeric = false) : Clashes op s t k
  | modulo {joined} (hop : op = .mod) (hjoined : joinedSort? s t = some joined)
      (hint : joined ≠ .int) : Clashes op s t (.sortMismatch "Int" joined.text)

/-- Operands can be brought to the sort at which they meet. -/
theorem coerce?_of_joinedSort? {s t joined : SmtSort} (h : joinedSort? s t = some joined)
    (a b : Term) : coerce? a s joined ≠ none ∧ coerce? b t joined ≠ none := by
  have hsame (a : Term) (s : SmtSort) : coerce? a s s ≠ none := by simp [coerce?]
  have hreal (a : Term) : coerce? a .int .real ≠ none := by cases a <;> simp [coerce?]
  unfold joinedSort? at h
  split at h
  next heq => grind
  · split at h
    · grind
    · grind
    · cases h

theorem decides_lowerBinary {op l r lspan rspan} :
    Decides (Combines op l r) (Clashes op l.2 r.2) (lowerBinary op l r lspan rspan) := by
  obtain ⟨a, s⟩ := l
  obtain ⟨b, t⟩ := r
  unfold lowerBinary
  dsimp only
  split
  next hop =>
    refine decides_expectSort.bind (fun _ hs => .logical hop (.inl hs)) fun _ hs => ?_
    refine decides_expectSort.bind (fun _ ht => .logical hop (.inr ht)) fun _ ht => ?_
    subst hs ht
    cases op with
    | and | or | implies => exact .pure (.logical rfl)
    | _ => cases hop
  next hlogical =>
    rw [Bool.not_eq_true] at hlogical
    split
    next hjoined => exact .stop rfl (.apart hlogical hjoined)
    next joined hjoined =>
      obtain ⟨hl, hr⟩ := coerce?_of_joinedSort? hjoined a b
      refine decides_coerce.bind (fun _ hk => absurd hk.1 hl) fun a' ha => ?_
      refine decides_coerce.bind (fun _ hk => absurd hk.1 hr) fun b' hb => ?_
      split
      next hop =>
        split
        next hunordered =>
          refine .stop rfl (.numbers hlogical hjoined ?_ ?_ (by simp_all))
          · rintro rfl
            simp [comparisonOf] at hunordered
          · rintro rfl
            simp [comparisonOf] at hunordered
        next hordered =>
          refine .pure (.comparison hlogical hop hjoined ha hb ?_)
          revert hordered
          cases op <;> simp [comparisonOf]
      next hcomparison =>
        rw [Bool.not_eq_true] at hcomparison
        split
        next hnumeric =>
          refine .stop rfl (.numbers hlogical hjoined ?_ ?_ (by simpa using hnumeric))
          · rintro rfl
            cases hcomparison
          · rintro rfl
            cases hcomparison
        next hnumeric =>
          split
          next hmodulo =>
            simp only [Bool.and_eq_true, beq_iff_eq, bne_iff_ne] at hmodulo
            refine .stop rfl (.modulo ?_ hjoined hmodulo.2)
            revert hmodulo hlogical hcomparison
            cases op <;> simp [arithmeticOf, BinaryOp.isLogical, BinaryOp.isComparison]
          · exact .pure (.arithmetic hlogical hcomparison hjoined ha hb (by simpa using hnumeric))

end Operators

theorem decides_calledFunction {env : Env} {callee : Ident} {n : Nat} :
    Decides (fun f => env.function? callee.name = some f ∧ f.typeParams = [] ∧ f.params.length = n)
      (fun k => (env.function? callee.name = none ∧ k = .unboundVariable callee.name) ∨
        ∃ what, k = .unsupported what) (calledFunction env callee n) := by
  unfold calledFunction
  split
  next hnone => exact .stop rfl (.inl ⟨hnone, rfl⟩)
  next f hf =>
    split
    · exact .stop rfl (.inr ⟨_, rfl⟩)
    next htypes =>
      split
      · exact .stop rfl (.inr ⟨_, rfl⟩)
      next hlength => exact .pure ⟨hf, by simpa using htypes, by simpa using hlength⟩

/-!
## Arms
-/

/-- The last of the arms always applies, the others under a condition. -/
inductive Closing : List LoweredArm → Prop where
  | last {a} (h : a.condition = none) : Closing [a]
  | cons {a c arms} (h : a.condition = some c) (harms : Closing arms) : Closing (a :: arms)

section Arms

variable {s : SmtSort} {arms : List LoweredArm}

/-- Some arm is of a sort that cannot be made the sort `s`. -/
def Unchained (s : SmtSort) (arms : List LoweredArm) (k : ObstacleKind) : Prop :=
  ∃ a ∈ arms, coerce? a.body a.sort s = none ∧ k = .sortMismatch s.text a.sort.text

theorem decides_chainArms :
    Decides (fun t? => (t? ≠ none → arms ≠ []) ∧ (Closing arms → ∃ t, t? = some t ∧ Chains s arms t))
      (Unchained s arms) (chainArms s arms) := by
  induction arms with
  | nil => exact .pure ⟨absurd rfl, fun h => by cases h⟩
  | cons a arms ih =>
    refine ih.bind (fun k hk => ?_) fun tail htail => ?_
    · obtain ⟨b, hb, hmismatch⟩ := hk
      exact ⟨b, List.mem_cons_of_mem a hb, hmismatch⟩
    refine decides_coerce.bind (fun k hk => ⟨a, List.mem_cons_self, hk⟩) fun body hbody => ?_
    split
    next c t hc =>
      refine .pure ⟨fun _ => List.cons_ne_nil _ _, fun h => ⟨_, rfl, ?_⟩⟩
      cases h with
      | last hnone => cases hc.symm.trans hnone
      | cons _ harms =>
        obtain ⟨t', ht', hchain⟩ := htail.2 harms
        exact .cons hc hbody (Option.some.inj ht' ▸ hchain)
    next hother =>
      refine .pure ⟨fun _ => List.cons_ne_nil _ _, fun h => ⟨_, rfl, ?_⟩⟩
      cases h with
      | last hnone => exact .last hnone hbody
      | cons hc harms => grind

theorem decides_lowerArms {place closed} :
    Decides (fun r => closed = true ∧ arms ≠ [] ∧ r.2 = armsSort arms ∧
        (Closing arms → Chains (armsSort arms) arms r.1))
      (fun k => (∃ what, k = .unsupported what) ∨ Unchained (armsSort arms) arms k)
      (lowerArms place arms closed) := by
  unfold lowerArms
  split
  · exact .stop rfl (.inl ⟨_, rfl⟩)
  next hclosed =>
    refine decides_chainArms.bind (fun k hk => .inr hk) fun t? ht => ?_
    split
    next t =>
      refine .pure ⟨by simpa using hclosed, ht.1 (Option.some_ne_none t), rfl, fun h => ?_⟩
      obtain ⟨t', ht', hchain⟩ := ht.2 h
      exact Option.some.inj ht' ▸ hchain
    · exact .stop rfl (.inl ⟨_, rfl⟩)

end Arms

end Statute
