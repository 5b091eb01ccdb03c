import Statute.Check.Declare
import Statute.Proofs.Check.Expansions
import Statute.Proofs.Check.Parts
import Statute.Proofs.Program.Types

/-!
# Resolving compound expressions

An expression that is no name is resolved by resolving those inside it, reporting what is wrong with
the whole, `TypeExpr.review`, and building the type, `resolveWith_compound`. So what is to be shown
of resolution need only be shown for names, for reviews, and for types that are built. The types of
fields, requirements and parameters are resolved one after the other, `resolveEach`.
-/

namespace Statute

open Checking

variable {t : TypeExpr} {params : List String}

variable {tys : List Ty}

namespace TypeExpr

/-- Reports what is wrong with an expression apart from those inside it, whose types are given. -/
def review : TypeExpr → List Ty → Checking Unit
  | .refine span base lo hi, [t] => do
    faultIf (!t.isNumeric) (.rangeNotNumeric t) base.span
    match lo, hi with
    | some l, some h => faultIf (decide (h < l)) (.emptyRange l h) span
    | _, _ => pure ()
  | .citation span c, _ =>
    match c.problem? with
    | some p => fault (.badCitation p) span
    | none => pure ()
  | .temporal span _ opens closes, _ => do
    let lo ← readDate? opens span
    let hi ← readDate? closes span
    checkWindow lo hi .emptyPeriod span
  | .positive _ inner, [t] => faultIf (!t.isNumeric) (.positiveNotNumeric t) inner.span
  | .nonEmpty _ inner, [t] => faultIf (!isSized t) (.nonEmptyNotSized t) inner.span
  | .validDate span after before, _ => do
    let lo ← readDate? after span
    let hi ← readDate? before span
    checkWindow lo hi .emptyDateWindow span
  | .moneyIn span code, _ => faultIf (!isCurrencyCode code) (.badCurrency code) span
  | _, _ => pure ()

theorem mem_of_mem_components_build {u : Ty} (hu : u ∈ (t.build tys).components) : u ∈ tys := by
  fun_cases build t tys <;> simp_all [build, Ty.components]

theorem build_ne_var (t : TypeExpr) (tys : List Ty) (v : String) : t.build tys ≠ .var v := by
  fun_cases build t tys <;> simp

/-- What is asked of a type at every depth, if it is asked of those that it is built from. -/
theorem every_build {P : Ty → Prop} (ht : P (t.build tys)) (htys : ∀ u ∈ tys, u.Every P) :
    (t.build tys).Every P :=
  Ty.Every.iff_components.mpr ⟨ht, fun u hu => htys u (mem_of_mem_components_build hu)⟩

theorem mentions_compound (ht : t.isName = false) :
    t.mentions params = mentionsAll params t.components := by
  cases t with
  | named | var => cases ht
  | _ => simp [mentions, mentionsAll, components]

end TypeExpr

theorem mem_mentionsAll {ts : List TypeExpr} {name : String} :
    name ∈ mentionsAll params ts ↔ ∃ t ∈ ts, name ∈ t.mentions params := by
  induction ts with
  | nil => simp [mentionsAll]
  | cons t ts ih => simp [mentionsAll, ih]

theorem run_readDate? (text : Option String) (span : Span) (r : Report) :
    ((readDate? text span).run r).1 = text.bind Date.parse? := by
  cases text with
  | none => rfl
  | some text =>
    show ((readDate text span).run r).1 = Date.parse? text
    unfold readDate
    cases Date.parse? text <;> rfl

/-- Whatever is reported about the ends of a window, they are what is read. -/
theorem readWindow_bind {β : Type} (lo hi : Option String) (f : Date → Date → Fault) (span : Span)
    (g : Option Date → Option Date → β) :
    (do
      let a ← readDate? lo span
      let b ← readDate? hi span
      checkWindow a b f span
      return g a b : Checking β) = (do
      let a ← readDate? lo span
      let b ← readDate? hi span
      checkWindow a b f span
      return g (lo.bind Date.parse?) (hi.bind Date.parse?)) := by
  funext r
  show (g ((readDate? lo span).run r).1 ((readDate? hi span).run _).1, _) = _
  rw [run_readDate?, run_readDate?]
  rfl

/-- The expressions inside are resolved, the whole is reviewed, and the type is built. -/
theorem resolveWith_compound {env ambient opened expand} (ht : t.isName = false) :
    resolveWith env ambient expand opened params t = (do
      let tys ← resolveAllWith env ambient expand opened params t.components
      t.review tys
      return t.build tys) := by
  cases t with
  | named | var => cases ht
  | prim | array | positive | nonEmpty | union | moneyIn => rfl
  | refine span base lo hi => cases lo <;> cases hi <;> rfl
  | citation span c =>
    rw [resolveWith]
    simp only [TypeExpr.review]
    cases c.problem? <;> rfl
  | temporal span inner opens closes =>
    rw [resolveWith]
    simp only [readWindow_bind]
    rfl
  | validDate span after before =>
    rw [resolveWith, readWindow_bind]
    rfl

/-- Resolves the type of each declaration in a list, and makes of it what is declared. -/
def resolveEach {α β : Type} (env : Env) (params : List String) (type : α → TypeExpr)
    (make : α → Ty → β) : List α → Checking (List β)
  | [] => pure []
  | a :: rest => do
    let t ← resolve env [] params (type a)
    let bs ← resolveEach env params type make rest
    return make a t :: bs

section Each

variable {env : Env}

theorem resolveFields_eq (owner : String) (fields : List FieldDecl) :
    resolveFields env owner params fields = resolveEach env params (·.type)
      (fun f t => ⟨f.name.name, t, f.span, f.condition, owner⟩) fields := by
  induction fields with
  | nil => rfl
  | cons f rest ih => rw [resolveFields, resolveEach, ih]

theorem resolveRequirements_eq (reqs : List TypedName) :
    resolveRequirements env reqs =
      resolveEach env [] (·.type) (fun r t => ⟨r.name.name, t, r.span⟩) reqs := by
  induction reqs with
  | nil => rfl
  | cons r rest ih => rw [resolveRequirements, resolveEach, ih]

theorem resolveParams_eq (ps : List TypedName) :
    resolveParams env params ps =
      resolveEach env params (·.type) (fun p t => (p.name.name, t)) ps := by
  induction ps with
  | nil => rfl
  | cons p rest ih => rw [resolveParams, resolveEach, ih]

end Each

end Statute
