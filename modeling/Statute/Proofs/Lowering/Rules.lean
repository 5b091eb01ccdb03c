import Statute.Proofs.Lowering.Terms

/-!
# The rules of lowering

Which term an expression becomes, as rules. `Yields S used locals e r used'` says that the
expression `e` becomes `r`, where `used` are the symbols in use before and `used'` those after. The
rules say nothing about the order in which sorts, functions and constants are declared: they read
the vocabulary of the finished form, which is part of the setting `S`. So a fact about all lowered
terms is an induction over the rules, and no draft appears in it.

The setting also says what a name that nothing around it binds stands for, and which struct types
may occur.
-/

namespace Statute

open Logic

/-- A literal as a term with its sort; durations and `pass` have none. -/
def Literal.encoding? : Literal → Option Lowered
  | .int n => some (.int n, .int)
  | .float x | .money x | .percent x => some (.real x, .real)
  | .bool b => some (.bool b, .bool)
  | .string s => some (.str s, .string)
  | .date text => (Date.parse? text).map fun d => (.int d.dayNumber, .int)
  | .duration _ | .pass => none

/-- The sort of a type and the limits on its values, for the types that have a sort. -/
def Ty.encoding? : Ty → Option (SmtSort × Limits)
  | .prim p =>
    match p with
    | .int | .date | .duration => some (.int, none, none)
    | .float | .money | .percent => some (.real, none, none)
    | .bool => some (.bool, none, none)
    | .string => some (.string, none, none)
    | .pass => none
  | .struct n args => some (.free (structSortName (.struct n args)), none, none)
  | .enum n => some (.enum n, none, none)
  | .refine base lo hi => base.encoding?.map fun e => (e.1, lo, hi)
  | .citation _ => some (.string, none, none)
  | .temporal inner _ _ => inner.encoding?
  | .positive inner =>
    if inner.core.isInt then
      inner.encoding?.map fun e => (e.1, (Ty.positive inner).limits?.getD (none, none))
    else none
  | .validDate after before =>
    some (.int, after.map fun d => d.dayNumber + 1, before.map fun d => d.dayNumber - 1)
  | .moneyIn _ => some (.real, none, none)
  | _ => none

/-- The functions that a form has symbols for: a field of a struct type, a requirement of a legal
test for subjects of a sort, or a function of the program. -/
inductive Source where
  | field (struct : String) (args : List Ty) (name : String)
  | requirement (test name : String) (subject : SmtSort)
  | function (name : String)

namespace Source

/-- The symbol of a function. That of a requirement depends on what else the form declares. -/
def symbol (v : Vocabulary) : Source → String
  | .field struct args name => structSortName (.struct struct args) ++ "." ++ name
  | .requirement test name subject => requirementSymbol v test name subject
  | .function name => name

/-- The symbol of the function is declared. -/
def Declared (v : Vocabulary) (f : Source) : Prop := ∃ d, v.function? (f.symbol v) = some d

end Source

/-- What the rules refer to. -/
structure Setting where
  env : Env
  /-- The vocabulary of the finished form. -/
  vocabulary : Vocabulary
  /-- The declaration that a name stands for where nothing binds it. -/
  resolve : String → Option Declaration
  /-- The struct types that may occur, by name and arguments. -/
  Occurs : String → List Ty → Prop

/-- If the type is a struct type under its constraints, it is one that may occur. -/
def Setting.Admits (S : Setting) (ty : Ty) : Prop :=
  ∀ n args, ty.core = .struct n args → S.Occurs n args

/-- The constant of a declared value: it bears the name and has the sort and the limits of the
declared type. -/
structure Declaration.Constant (S : Setting) (l : Declaration) (c : ConstDecl) : Prop where
  mem : c ∈ S.vocabulary.constants
  symbol : c.symbol = l.name.name
  name : c.name = l.name.name
  type : ∃ ty, Stands S.env [] l.type ty ∧ S.Admits ty ∧
    ty.encoding? = some (c.sort, c.lower, c.upper)

/-- The conjunction, disjunction or implication that an operator stands for. -/
def connective (op : BinaryOp) (a b : Term) : Term :=
  match op with
  | .and => .and [a, b]
  | .or => .or [a, b]
  | _ => .implies a b

/-- The statement that a subject passes a legal test. -/
inductive YieldsTest (S : Setting) (test : String) (r : Lowered) : Term → Prop where
  | intro {info : LegalTest} (htest : S.env.test? test = some info)
      (hdeclared : ∀ q ∈ info.requirementNames,
        (Source.requirement info.name q r.2).Declared S.vocabulary) :
      YieldsTest S test r (.conj (info.requirementNames.map fun q =>
        .apply ((Source.requirement info.name q r.2).symbol S.vocabulary) [r.1]))

/-- The statement that a pattern matches; none where it always does. -/
inductive YieldsPattern (S : Setting) (r : Lowered) : Pattern → Option Term → Prop where
  | wildcard {span} : YieldsPattern S r (.wildcard span) none
  | binding {id} : YieldsPattern S r (.binding id) none
  | literal {span v t t' s} (hv : v.encoding? = some (t, s)) (ht : coerce? t s r.2 = some t') :
      YieldsPattern S r (.literal span v) (some (.cmp .eq r.1 t'))
  | variant {span n v info} (hinfo : S.env.enum? n.name = some info)
      (hv : info.hasVariant v.name = true) (hs : r.2 = .enum n.name) :
      YieldsPattern S r (.variant span n v) (some (.cmp .eq r.1 (.variant n.name v.name)))
  | satisfies {span test t} (ht : YieldsTest S test.name r t) :
      YieldsPattern S r (.satisfies span test) (some t)

/-- The conditionals that arms become, the last of which always applies. -/
inductive Chains (s : SmtSort) : List LoweredArm → Term → Prop where
  | last {a t} (hnone : a.condition = none) (ht : coerce? a.body a.sort s = some t) :
      Chains s [a] t
  | cons {a c t arms rest} (hsome : a.condition = some c) (ht : coerce? a.body a.sort s = some t)
      (hrest : Chains s arms rest) : Chains s (a :: arms) (.ite c t rest)

mutual

/-- The term that an expression becomes under locals, with its sort. The first list holds the
symbols in use before, the second those in use after. -/
inductive Yields (S : Setting) :
    List String → List Local → Expr → Lowered → List String → Prop where
  | literal {u locals span v r} (hv : v.encoding? = some r) :
      Yields S u locals (.literal span v) r u
  | bound {u locals span id l} (hl : locals.find? (·.name == id.name) = some l) :
      Yields S u locals (.name span id) (l.term, l.sort) u
  | declared {u u' locals span id l c} (hfree : locals.find? (·.name == id.name) = none)
      (hl : S.resolve id.name = some l) (hc : l.Constant S c) (hused : u ⊆ u') :
      Yields S u locals (.name span id) (.var c.symbol, c.sort) u'
  | variant {u locals span n v info} (hinfo : S.env.enum? n.name = some info)
      (hv : info.hasVariant v.name = true) :
      Yields S u locals (.variant span n v) (.variant n.name v.name, .enum n.name) u
  | not {u u' locals span e t} (he : Yields S u locals e (t, .bool) u') :
      Yields S u locals (.unary span .not e) (.not t, .bool) u'
  | neg {u u' locals span e t s} (he : Yields S u locals e (t, s) u') (hs : s.isNumeric = true) :
      Yields S u locals (.unary span .neg e) (.neg t, s) u'
  | logical {u u₁ u₂ locals span op l r a b} (hop : op.isLogical = true)
      (hl : Yields S u locals l (a, .bool) u₁) (hr : Yields S u₁ locals r (b, .bool) u₂) :
      Yields S u locals (.binary span op l r) (connective op a b, .bool) u₂
  | comparison {u u₁ u₂ locals span op l r a b s t joined a' b'} (hop : op.isComparison = true)
      (hl : Yields S u locals l (a, s) u₁) (hr : Yields S u₁ locals r (b, t) u₂)
      (hjoined : joinedSort? s t = some joined) (ha : coerce? a s joined = some a')
      (hb : coerce? b t joined = some b')
      (hordered : op = .eq ∨ op = .ne ∨ joined.isNumeric = true) :
      Yields S u locals (.binary span op l r) (.cmp (comparisonOf op) a' b', .bool) u₂
  | arithmetic {u u₁ u₂ locals span op l r a b s t joined a' b'} (hlogical : op.isLogical = false)
      (hcomparison : op.isComparison = false) (hl : Yields S u locals l (a, s) u₁)
      (hr : Yields S u₁ locals r (b, t) u₂) (hjoined : joinedSort? s t = some joined)
      (ha : coerce? a s joined = some a') (hb : coerce? b t joined = some b')
      (hnumeric : joined.isNumeric = true) :
      Yields S u locals (.binary span op l r) (.arith (arithmeticOf op) joined a' b', joined) u₂
  | member {u u' locals span base t struct args field ty s limits}
      (hbase : Yields S u locals base (t, .free (structSortName (.struct struct args))) u')
      (hstruct : S.Occurs struct args)
      (hfield : S.env.fieldType? struct args field.name = some ty)
      (hty : ty.encoding? = some (s, limits))
      (hdeclared : (Source.field struct args field.name).Declared S.vocabulary) :
      Yields S u locals (.member span base field)
        (.apply ((Source.field struct args field.name).symbol S.vocabulary) [t], s) u'
  | call {u u' locals span callee sig args rs s limits}
      (hsig : S.env.function? callee.name = some sig)
      (hargs : YieldsEach S u locals (sig.params.map (·.2)) args rs u')
      (hresult : sig.result.encoding? = some (s, limits))
      (hdeclared : (Source.function callee.name).Declared S.vocabulary) :
      Yields S u locals (.call span callee args)
        (.apply ((Source.function callee.name).symbol S.vocabulary) (rs.map (·.1)), s) u'
  | satisfies {u u' locals span e test r t} (he : Yields S u locals e r u')
      (ht : YieldsTest S test.name r t) : Yields S u locals (.satisfies span e test) (t, .bool) u'
  | select {u u₁ u₂ locals span place e arms r lowered t} (he : Yields S u locals e r u₁)
      (harms : YieldsArms S u₁ locals r arms lowered u₂)
      (hchain : Chains (armsSort lowered) lowered t) :
      Yields S u locals (.select span place e arms) (t, armsSort lowered) u₂
  | quantified {u u' locals span q var type ty s limits symbol body t}
      (htype : Stands S.env [] type ty) (hadmits : S.Admits ty)
      (hty : ty.encoding? = some (s, limits)) (hnew : symbol ∉ u)
      (hsymbol : symbol ∈ symbolsFor var.name)
      (hbody : Yields S (u ++ [symbol]) (⟨var.name, .var symbol, s⟩ :: locals) body (t, .bool) u') :
      Yields S u locals (.quantified span q var type body)
        (.quant q symbol s (guardBody q (withinLimits? (.var symbol) limits) t), .bool) u'

/-- The terms that arguments become, at the sorts of the parameters. -/
inductive YieldsEach (S : Setting) :
    List String → List Local → List Ty → List Expr → List Lowered → List String → Prop where
  | nil {u locals} : YieldsEach S u locals [] [] [] u
  | cons {u u₁ u₂ locals p params e es t source s limits t' rs}
      (hp : p.encoding? = some (s, limits)) (he : Yields S u locals e (t, source) u₁)
      (ht : coerce? t source s = some t') (hes : YieldsEach S u₁ locals params es rs u₂) :
      YieldsEach S u locals (p :: params) (e :: es) ((t', s) :: rs) u₂

/-- What arms become, up to the first that always applies; there has to be one. -/
inductive YieldsArms (S : Setting) : List String → List Local → Lowered →
    List (Arm Expr Expr) → List LoweredArm → List String → Prop where
  | last {u u' locals r span p b arms t s} (hp : YieldsPattern S r p none)
      (hb : Yields S u (p.boundLocals r ++ locals) b (t, s) u') :
      YieldsArms S u locals r (⟨span, p, none, b⟩ :: arms) [⟨none, t, s, b.span⟩] u'
  | cons {u u₁ u₂ locals r span p b arms c t s lowered} (hp : YieldsPattern S r p (some c))
      (hb : Yields S u (p.boundLocals r ++ locals) b (t, s) u₁)
      (harms : YieldsArms S u₁ locals r arms lowered u₂) :
      YieldsArms S u locals r (⟨span, p, none, b⟩ :: arms)
        (⟨some c, t, s, b.span⟩ :: lowered) u₂
  | guarded {u u₁ u₂ u₃ locals r span p g b arms c tg t s lowered} (hp : YieldsPattern S r p c)
      (hg : Yields S u (p.boundLocals r ++ locals) g (tg, .bool) u₁)
      (hb : Yields S u₁ (p.boundLocals r ++ locals) b (t, s) u₂)
      (harms : YieldsArms S u₂ locals r arms lowered u₃) :
      YieldsArms S u locals r (⟨span, p, some g, b⟩ :: arms)
        (⟨bothConditions c (some tg), t, s, b.span⟩ :: lowered) u₃

end

/-!
## Names that nothing binds
-/

/-- The property holds of those of the names that no local bears. -/
def Unbound (P : String → Prop) (locals : List Local) (names : List String) : Prop :=
  ∀ x ∈ names, locals.find? (·.name == x) = none → P x

namespace Unbound

variable {P : String → Prop} {locals : List Local} {names : List String}

theorem append {more : List String} (h : Unbound P locals (names ++ more)) :
    Unbound P locals names ∧ Unbound P locals more :=
  ⟨fun x hx => h x (List.mem_append_left _ hx), fun x hx => h x (List.mem_append_right _ hx)⟩

/-- Under a local, its name does not matter. -/
theorem bind {name t} {s : SmtSort} (h : Unbound P locals (names.filter (· != name))) :
    Unbound P (⟨name, t, s⟩ :: locals) names := by
  intro x hx hfree
  by_cases hname : name = x
  · simp [hname] at hfree
  · have hfree' : locals.find? (·.name == x) = none := by simpa [hname] using hfree
    exact h x (List.mem_filter.mpr ⟨hx, by simpa using Ne.symm hname⟩) hfree'

theorem bindPattern {p : Pattern} {r : Lowered} (h : Unbound P locals (p.unbound names)) :
    Unbound P (p.boundLocals r ++ locals) names := by
  cases p with
  | binding id => exact Unbound.bind h
  | _ => exact h

end Unbound

end Statute
