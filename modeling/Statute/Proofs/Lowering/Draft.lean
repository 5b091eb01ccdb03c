import Mathlib.Data.List.Nodup
import Mathlib.Data.List.Perm.Subperm
import Statute.Lowering.Expression
import Statute.Proofs.Logic.Vocabulary
import Statute.Proofs.Lowering.Types
import Statute.Proofs.Program.Meaning
import Statute.Proofs.Search.Evaluation

/-!
# Steps of lowering

What is known of a step of lowering and of the draft that it leaves. Lowering may stop at an
obstacle and go on elsewhere, so what it keeps up has to survive obstacles too: `Run I R E x d Q` says
that the step `x`, started from `d`, ends with a draft that satisfies `I` and stands in `R` to `d`,
and with a result that satisfies `Q` or at an obstacle of a kind in `E`.
-/

namespace Statute

open Logic

/-!
## Runs
-/

/-- The step, started from `d`, ends in a draft that satisfies `I` and stands in `R` to `d`, whether
it comes to an end or not. Its result, if there is one, satisfies `Q`; else it stops at an obstacle of
a kind in `E`. -/
structure Run (I : Draft → Prop) (R : Draft → Draft → Prop) (E : ObstacleKind → Prop) {β : Type}
    (x : Lowering β) (d : Draft) (Q : β → Draft → Prop) : Prop where
  kept : I (x.run.run d).2
  related : R d (x.run.run d).2
  result : ∀ b, (x.run.run d).1 = .ok b → Q b (x.run.run d).2
  stops : ∀ o, (x.run.run d).1 = .error o → E o.fault.kind

namespace Run

variable {I : Draft → Prop} {R : Draft → Draft → Prop} {E : ObstacleKind → Prop} {β γ : Type}
  {x : Lowering β} {d : Draft} {Q : β → Draft → Prop}

theorem mono {Q' : β → Draft → Prop} (hx : Run I R E x d Q)
    (h : ∀ b d', R d d' → Q b d' → Q' b d') : Run I R E x d Q' :=
  { hx with result := fun b hb => h b _ hx.related (hx.result b hb) }

theorem excuse {E' : ObstacleKind → Prop} (hx : Run I R E x d Q) (h : ∀ k, E k → E' k) :
    Run I R E' x d Q :=
  { hx with stops := fun o ho => h _ (hx.stops o ho) }

theorem of_ok {b d'} (h : x.run.run d = (.ok b, d')) (hd : I d') (hle : R d d') (hQ : Q b d') :
    Run I R E x d Q := by
  constructor
  all_goals rw [h]
  · exact hd
  · exact hle
  · exact fun _ hb => Except.ok.inj hb ▸ hQ
  · exact fun _ ho => nomatch ho

theorem of_error {o : Obstacle} {d' : Draft} (h : x.run.run d = (.error o, d')) (hd : I d')
    (hle : R d d') (hE : E o.fault.kind) : Run I R E x d Q := by
  constructor
  all_goals rw [h]
  · exact hd
  · exact hle
  · exact fun _ hb => nomatch hb
  · exact fun _ ho => Except.error.inj ho ▸ hE

theorem modify {f : Draft → Draft} {Q : PUnit → Draft → Prop} (hd : I (f d)) (hle : R d (f d))
    (h : Q ⟨⟩ (f d)) : Run I R E (modify f) d Q :=
  .of_ok rfl hd hle h

variable [IsPreorder Draft R]

theorem pure {b : β} (hd : I d) (h : Q b d) : Run I R E (pure b) d Q :=
  .of_ok rfl hd (refl_of R d) h

theorem stop {f : LoweringFault} {span : Span} (hd : I d) (hE : E f.kind) :
    Run I R E (Lowering.stop f span) d Q :=
  .of_error rfl hd (refl_of R d) hE

/-- One step after the other; an obstacle in the first one is the outcome of both. -/
theorem run_bind (x : Lowering β) (f : β → Lowering γ) (d : Draft) :
    (x >>= f).run.run d = match x.run.run d with
      | (.ok b, d') => (f b).run.run d'
      | (.error o, d') => (.error o, d') := by
  rw [ExceptT.run_bind, StateT.run_bind]
  generalize x.run.run d = r
  obtain ⟨_ | _, d'⟩ := r <;> rfl

theorem bind {f : β → Lowering γ} {Q' : γ → Draft → Prop} (hx : Run I R E x d Q)
    (hf : ∀ b d', I d' → R d d' → Q b d' → Run I R E (f b) d' Q') : Run I R E (x >>= f) d Q' := by
  obtain ⟨hinv, hle, hQ, hE⟩ := hx
  have hrun := run_bind x f d
  generalize x.run.run d = r at hinv hle hQ hE hrun
  obtain ⟨r, d'⟩ := r
  cases r with
  | error o => exact .of_error hrun hinv hle (hE o rfl)
  | ok b =>
    obtain ⟨hinv', hle', hQ', hE'⟩ := hf b d' hinv hle (hQ b rfl)
    dsimp only at hrun
    rw [← hrun] at hinv' hle' hQ' hE'
    exact ⟨hinv', trans_of R hle hle', hQ', hE'⟩

theorem ofExcept {r : Except Obstacle β} (hd : I d) (h : ∀ b, r = .ok b → Q b d)
    (hE : ∀ o, r = .error o → E o.fault.kind) : Run I R E (Lowering.ofExcept r) d Q := by
  cases r with
  | ok b => exact pure hd (h b rfl)
  | error o => exact .of_error rfl hd (refl_of R d) (hE o rfl)

theorem get (hd : I d) : Run I R E get d fun s d' => s = d ∧ d' = d :=
  .of_ok rfl hd (refl_of R d) ⟨rfl, rfl⟩

end Run

/-- Whatever comes out of the step satisfies `Q`. -/
def Results {β : Type} (x : Lowering β) (Q : β → Prop) : Prop :=
  ∀ d b, (x.run.run d).1 = .ok b → Q b

namespace Results

variable {β γ : Type} {x : Lowering β} {Q Q' : β → Prop}

theorem any : Results x fun _ => True := fun _ _ _ => trivial

theorem pure {b : β} (h : Q b) : Results (pure b) Q :=
  fun _ _ hb => Except.ok.inj hb ▸ h

theorem stop {f span} : Results (Lowering.stop f span) Q :=
  fun _ _ hb => nomatch hb

theorem ofExcept {r : Except Obstacle β} : Results (Lowering.ofExcept r) fun b => r = .ok b := by
  cases r with
  | ok b => exact pure rfl
  | error o => exact fun _ _ hb => nomatch hb

theorem mono (hx : Results x Q) (h : ∀ b, Q b → Q' b) : Results x Q' :=
  fun d b hb => h b (hx d b hb)

theorem bind {f : β → Lowering γ} {P : γ → Prop} (hx : Results x Q)
    (hf : ∀ b, Q b → Results (f b) P) : Results (x >>= f) P := by
  intro d c hc
  rw [Run.run_bind] at hc
  cases hr : x.run.run d with
  | mk r d' =>
  rw [hr] at hc
  cases r with
  | error o => cases hc
  | ok b => exact hf b (hx d b (by rw [hr])) d' c hc

end Results

/-!
## Quantifiers
-/

/-- The warning about a variable with the name of another one that is in sight. -/
def warnHidden (cx : LoweringContext) (locals : List Local) (q : Quantifier) (x : String) :
    Lowering Unit :=
  if cx.isBound locals x then Lowering.warn s!"`{q.keyword} {x}` shadows an outer binding of `{x}`"
  else pure ()

/-- A variable gets a symbol, and the statement about it is lowered. -/
def lowerBound (cx : LoweringContext) (lowerBody : Expr → Lowering Lowered) (locals : List Local)
    (depth : Nat) (q : Quantifier) (x : String) (s : SmtSort) (limits : Limits) (body : Expr) :
    Lowering Lowered := do
  let symbol ← Lowering.fresh x
  let (inner, bodySort) ← lowerWith cx lowerBody (⟨x, .var symbol, s⟩ :: locals) depth body
  expectSort .bool bodySort body.span
  return (.quant q symbol s (guardBody q (withinLimits? (.var symbol) limits) inner), .bool)

theorem lowerWith_quantified {cx : LoweringContext} {lowerBody : Expr → Lowering Lowered}
    {locals depth span q} {var : Ident} {type : TypeExpr} {body} :
    lowerWith cx lowerBody locals depth (.quantified span q var type body) =
      if cx.maxDepth < depth + 1 then Lowering.stop (.tooDeep (depth + 1) cx.maxDepth) var.span
      else (do
        let t ← Lowering.ofExcept (typeOf cx.env type)
        let r ← sortOf cx.env type.span t
        warnHidden cx locals q var.name
        lowerBound cx lowerBody locals (depth + 1) q var.name r.1 r.2 body) := by
  rw [lowerWith]
  unfold warnHidden
  by_cases hbound : cx.isBound locals var.name = true <;> simp only [hbound] <;> rfl

/-!
## Symbols
-/

/-- The symbols that may be given out for a name. -/
def symbolsFor (name : String) : Set String := {s | s = name ∨ ∃ i : Nat, s = s!"{name}@{i + 2}"}

theorem starts_of_mem_symbolsFor {name s : String} (h : s ∈ symbolsFor name) :
    name.toList <+: s.toList := by
  rcases h with rfl | ⟨i, rfl⟩
  · exact List.prefix_refl _
  · exact ⟨'@' :: (toString (i + 2)).toList, by simp [toString]⟩

theorem numbered_injective (name : String) :
    Function.Injective fun i : Nat => s!"{name}@{i + 2}" := by
  intro i j h
  have hij : (i + 2).repr = (j + 2).repr := String.append_right_inj _ |>.mp h
  have hdigits : Nat.toDigits 10 (i + 2) = Nat.toDigits 10 (j + 2) := by
    rw [← Nat.toList_repr, ← Nat.toList_repr, hij]
  have heq := congrArg (Nat.ofDigitChars 10 · 0) hdigits
  simp only [Nat.ofDigitChars_ten_toDigits] at heq
  omega

/-- A symbol that is given out is not in use, and is one of those for its name. -/
theorem freshSymbol_spec (used : List String) (name : String) :
    freshSymbol used name ∉ used ∧ freshSymbol used name ∈ symbolsFor name := by
  unfold freshSymbol
  split
  · generalize hc : (List.range (used.length + 1)).map (fun i => s!"{name}@{i + 2}") = candidates
    cases hf : candidates.find? fun s => !used.contains s with
    | some s =>
      obtain ⟨i, -, rfl⟩ := List.mem_map.mp (hc ▸ List.mem_of_find?_eq_some hf)
      exact ⟨by simpa using List.find?_some hf, .inr ⟨i, rfl⟩⟩
    | none =>
      -- one more candidates than symbols in use cannot all be in use
      have hsub : candidates ⊆ used := fun s hs => by
        simpa using List.find?_eq_none.mp hf s hs
      have hnodup : candidates.Nodup :=
        hc ▸ List.Nodup.map (numbered_injective name) List.nodup_range
      have hlen := (hnodup.subperm hsub).length_le
      simp [← hc] at hlen
  next hname => exact ⟨by simpa using hname, .inl rfl⟩

/-- The draft that lowering starts from: the declared names are in use, and no more. -/
def LoweringContext.start (cx : LoweringContext) : Draft :=
  { used := (cx.values.map (·.name.name)).eraseDups }

/-!
## Expressions that are lowered faithfully
-/

namespace Expr

/-- The functions that are called without arguments are among `bare`, and no symbol for a quantified
variable is. -/
def Apart (bare : Set String) : Expr → Prop :=
  Everywhere fun
    | .call _ f [] => f.name ∈ bare
    | .quantified _ _ v _ _ => ∀ symbol ∈ symbolsFor v.name, symbol ∉ bare
    | _ => True

/-- In the types of quantified variables, limits around limits imply them. -/
def Tight (env : Env) : Expr → Prop :=
  Everywhere fun
    | .quantified _ _ _ type _ => ∀ ty, Stands env [] type ty → ty.Tight
    | _ => True

/-- The expression is plain, keeps functions and variables apart, and has tight types. -/
structure Clear (env : Env) (bare : Set String) (e : Expr) : Prop where
  plain : e.Plain env
  apart : e.Apart bare
  tight : e.Tight env

end Expr

namespace Draft

/-- The second draft has all that the first one has. -/
structure Le (d d' : Draft) : Prop where
  used : d.used ⊆ d'.used
  functions : ∀ f g, d.vocabulary.function? f = some g → d'.vocabulary.function? f = some g
  constants : d.vocabulary.constants ⊆ d'.vocabulary.constants

theorem Le.refl (d : Draft) : d.Le d :=
  ⟨fun _ h => h, fun _ _ h => h, fun _ h => h⟩

theorem Le.trans {d d' d'' : Draft} (h : d.Le d') (h' : d'.Le d'') : d.Le d'' :=
  ⟨fun _ hx => h'.used (h.used hx), fun f g hf => h'.functions f g (h.functions f g hf),
    fun _ hc => h'.constants (h.constants hc)⟩

end Draft

/-- Where no real number is wanted, terms stay as they are. -/
theorem eq_of_coerce? {t t' : Term} {source target : SmtSort} (ht : target ≠ .real)
    (h : coerce? t source target = some t') : source = target ∧ t' = t := by
  unfold coerce? at h
  split at h
  next heq => exact ⟨by simpa using heq, (Option.some.inj h).symm⟩
  · split at h
    · exact absurd rfl ht
    · cases h

end Statute
