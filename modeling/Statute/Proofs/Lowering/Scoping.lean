import Statute.Proofs.Check.Scopes
import Statute.Proofs.Lowering.Closed

/-!
# Names are lowered as they are checked

The checker looks a name up in the scope that the principle stands in, and lowering among all
declarations of the program. The two agree, `names_lowered_as_checked`, where every declaration that
the principle draws on is the first of its name in the program: then lowering follows the rules with
each name standing for its nearest declaration, and the form says of its constants what is declared.
Otherwise the constant may be that of a declaration that is out of sight, `fee_rate_misread`.
-/

namespace Statute

open Logic

/-!
## Other ways to resolve names
-/

/-- The rules with names resolved another way. -/
def Setting.resolving (S : Setting) (resolve : String → Option Declaration) : Setting :=
  { S with resolve := resolve }

/-- The names that no local bears stand for the same declarations. -/
def Setting.Agrees (S : Setting) (resolve : String → Option Declaration) (locals : List Local)
    (names : List String) : Prop :=
  ∀ x ∈ names, locals.find? (·.name == x) = none → S.resolve x = resolve x

variable {c : ConstDecl}

section

variable {S : Setting} {resolve : String → Option Declaration} {locals : List Local}

theorem Setting.Agrees.append {xs ys : List String} (h : S.Agrees resolve locals (xs ++ ys)) :
    S.Agrees resolve locals xs ∧ S.Agrees resolve locals ys :=
  Unbound.append h

theorem Setting.Agrees.bind {name t} {s : SmtSort} {names : List String}
    (h : S.Agrees resolve locals (names.filter (· != name))) :
    S.Agrees resolve (⟨name, t, s⟩ :: locals) names :=
  Unbound.bind h

theorem Setting.Agrees.bindPattern {p : Pattern} {r names}
    (h : S.Agrees resolve locals (p.unbound names)) :
    S.Agrees resolve (p.boundLocals r ++ locals) names :=
  Unbound.bindPattern h

theorem Declaration.Constant.resolving {l : Declaration} (h : l.Constant S c) :
    l.Constant (S.resolving resolve) c :=
  ⟨h.mem, h.symbol, h.name, h.type⟩

theorem YieldsTest.resolving {test r t} (h : YieldsTest S test r t) :
    YieldsTest (S.resolving resolve) test r t := by
  cases h with
  | intro htest hdeclared => exact .intro (S := S.resolving resolve) htest hdeclared

theorem YieldsPattern.resolving {r p c} (h : YieldsPattern S r p c) :
    YieldsPattern (S.resolving resolve) r p c := by
  cases h with
  | wildcard => exact .wildcard
  | binding => exact .binding
  | literal hv ht => exact .literal hv ht
  | variant hinfo hv hs => exact .variant (S := S.resolving resolve) hinfo hv hs
  | satisfies ht => exact .satisfies ht.resolving

end

mutual

/-- What an expression becomes depends on the declarations of the names that it reads only. -/
theorem Yields.resolving {S : Setting} {resolve : String → Option Declaration} {u u' locals}
    {e : Expr} {r} (h : Yields S u locals e r u') (hagrees : S.Agrees resolve locals e.reads) :
    Yields (S.resolving resolve) u locals e r u' := by
  match h with
  | .literal hv => exact .literal hv
  | .bound hl => exact .bound hl
  | .declared hfree hl hc hused =>
    have hl' := (hagrees _ (List.mem_singleton_self _) hfree).symm.trans hl
    exact .declared hfree hl' hc.resolving hused
  | .variant hinfo hv => exact .variant (S := S.resolving resolve) hinfo hv
  | .not he => exact .not (he.resolving hagrees)
  | .neg he hs => exact .neg (he.resolving hagrees) hs
  | .logical hop hl hr =>
    exact .logical hop (hl.resolving hagrees.append.1) (hr.resolving hagrees.append.2)
  | .comparison hop hl hr hjoined ha hb hordered =>
    exact .comparison hop (hl.resolving hagrees.append.1) (hr.resolving hagrees.append.2) hjoined
      ha hb hordered
  | .arithmetic hlogical hcomparison hl hr hjoined ha hb hnumeric =>
    exact .arithmetic hlogical hcomparison (hl.resolving hagrees.append.1)
      (hr.resolving hagrees.append.2) hjoined ha hb hnumeric
  | .member hbase hstruct hfield hty hdeclared =>
    exact .member (S := S.resolving resolve) (hbase.resolving hagrees) hstruct hfield hty hdeclared
  | .call hsig hargs hresult hdeclared =>
    exact .call (S := S.resolving resolve) hsig (hargs.resolving hagrees) hresult hdeclared
  | .satisfies he ht => exact .satisfies (he.resolving hagrees) ht.resolving
  | .select he harms hchain =>
    exact .select (he.resolving hagrees.append.1) (harms.resolving hagrees.append.2) hchain
  | .quantified htype hadmits hty hnew hsymbol hbody =>
    exact .quantified (S := S.resolving resolve) htype hadmits hty hnew hsymbol
      (hbody.resolving hagrees.bind)

theorem YieldsEach.resolving {S : Setting} {resolve : String → Option Declaration}
    {u u' locals params args rs} (h : YieldsEach S u locals params args rs u')
    (hagrees : S.Agrees resolve locals (Expr.readsOfArgs args)) :
    YieldsEach (S.resolving resolve) u locals params args rs u' := by
  match h with
  | .nil => exact .nil
  | .cons hp he ht hes =>
    exact .cons hp (he.resolving hagrees.append.1) ht (hes.resolving hagrees.append.2)

theorem YieldsArms.resolving {S : Setting} {resolve : String → Option Declaration}
    {u u' locals r arms lowered} (h : YieldsArms S u locals r arms lowered u')
    (hagrees : S.Agrees resolve locals (Expr.readsOfArms arms)) :
    YieldsArms (S.resolving resolve) u locals r arms lowered u' := by
  match h with
  | .last hp hb => exact .last hp.resolving (hb.resolving hagrees.append.1.bindPattern)
  | .cons hp hb harms =>
    exact .cons hp.resolving (hb.resolving hagrees.append.1.bindPattern)
      (harms.resolving hagrees.append.2)
  | .guarded hp hg hb harms =>
    have hinside := (hagrees.append.1.bindPattern (r := r)).append
    exact .guarded hp.resolving (hg.resolving hinside.1) (hb.resolving hinside.2)
      (harms.resolving hagrees.append.2)

end

/-!
## Declarations in force
-/

/-- The rules with each name standing for its nearest declaration. -/
def LoweringContext.settingAt (cx : LoweringContext) (v : Vocabulary) (inForce : List Declaration) :
    Setting :=
  (cx.setting (fun _ _ => True) v).resolving fun x => (nearest? inForce x).map (·.1)

/-- What a form says of the constant of a declaration that stands where `before` is in force. The
constant has the sort and the limits of the declared type, the limits are assumed, and so is the
declared value, unless that cannot be lowered. -/
structure Logic.Form.States (cx : LoweringContext) (f : Form) (d : Declaration)
    (before : List Declaration) (c : ConstDecl) : Prop where
  constant : d.Constant (cx.settingAt f.vocabulary before) c
  limits : ∀ g, withinLimits? (.var c.symbol) (c.lower, c.upper) = some g → g ∈ f.assumptions
  value : Obstructed cx d.value c.sort ∨ ∃ u t s t' u',
    Yields (cx.settingAt f.vocabulary before) u [] d.value (t, s) u' ∧
      coerce? t s c.sort = some t' ∧ .cmp .eq (.var c.symbol) t' ∈ f.assumptions

/-- A declaration has one constant. -/
theorem Declaration.Constant.unique {S} {l : Declaration} {c c'} (h : l.Constant S c)
    (h' : l.Constant S c') : c = c' := by
  obtain ⟨ty, hty, -, hencoding⟩ := h.type
  obtain ⟨ty', hty', -, hencoding'⟩ := h'.type
  obtain rfl := hty.unique hty'
  have hsort := Option.some.inj (hencoding.symm.trans hencoding')
  have hsymbol := h.symbol.trans h'.symbol.symm
  have hname := h.name.trans h'.name.symm
  cases c
  cases c'
  simp_all

section

variable {cx : LoweringContext} {inForce : List Declaration}

/-- Lowering resolves the names as the nearest declarations do, if these are the ones that it
finds. -/
theorem agrees_nearest {v names}
    (h : ∀ x ∈ names, ∃ d before, nearest? inForce x = some (d, before) ∧ cx.value? x = some d) :
    (cx.setting (fun _ _ => True) v).Agrees (fun x => (nearest? inForce x).map (·.1)) [] names := by
  intro x hx _
  obtain ⟨d, before, hd, hvalue⟩ := h x hx
  show cx.value? x = (nearest? inForce x).map (·.1)
  rw [hvalue, hd]
  rfl

/-- A constant is settled as its declaration asks for. -/
theorem states_of_proper {f : Form} {e : Draft} {d : Declaration} {before}
    (he : e.Proper cx (fun _ _ => True) []) (hvocabulary : f.vocabulary = e.vocabulary)
    (hassumptions : f.assumptions = e.assumptions) (hc : c ∈ f.vocabulary.constants)
    (hname : c.symbol = d.name.name) (hfirst : cx.value? d.name.name = some d) (hreads : ∀ x ∈
      d.value.reads, ∃ d' before', nearest? before x = some (d', before') ∧ cx.value? x = some d') :
    f.States cx d before c := by
  rw [hvocabulary] at hc
  have hdeclared : c.symbol ∈ e.declared := (he.declared c.symbol).mpr ⟨c, hc, rfl⟩
  obtain ⟨l, c', hl, hc', hlimits, hvalue⟩ := (he.settled _ hdeclared).resolve_left (by simp)
  -- the declaration is the one looked up, and its constant is the one at hand
  obtain rfl : d = l := by grind
  obtain ⟨l', hl', hconstant⟩ := he.constants c hc
  cases hl.symm.trans hl'
  obtain rfl := hconstant.unique hc'
  have hagrees := agrees_nearest (v := f.vocabulary) hreads
  rw [← hvocabulary] at hconstant hvalue
  rw [← hassumptions] at hlimits hvalue
  refine ⟨hconstant.resolving, hlimits, hvalue.imp id ?_⟩
  rintro ⟨u, t, s, t', u', hyields, ht, hmem⟩
  exact ⟨u, t, s, t', u', (hyields _ (.refl _)).resolving hagrees, ht, hmem⟩

end

/-- The lowest duty. -/
def lowestDuty : Declaration :=
  ⟨{}, "floor", .refine {} (.prim {} .int) (some 1) none, .literal {} (.int 5)⟩

/-- The highest import duty is one above the lowest duty. -/
def highestDuty : Declaration :=
  ⟨{}, "cap", .prim {} .int,
    .binary {} .add "floor" (.literal {} (.int 1))⟩

/-- What is above the highest import duty is above the lowest duty. -/
def importSite : Site where
  principle := ⟨{}, "Import", .quantified {} .all "n" (.prim {} .int)
    (.binary {} .implies (.binary {} .gt "n" "cap")
      (.binary {} .gt "n" "floor"))⟩
  inForce := [highestDuty, lowestDuty]

/-- Export duties have the names of import duties, and come after them. -/
def tariffs : Program where
  name := "tariffs"
  items :=
    [.value lowestDuty,
      .scope {} "Import" [.value highestDuty, .principle importSite.principle],
      .scope {} "Export"
        [.value ⟨{}, "floor", .prim {} .int, .literal {} (.int 7)⟩,
          .value ⟨{}, "cap", .prim {} .int, "floor"⟩]]

def importForm : Form where
  principle := "Import"
  vocabulary :=
    { constants := [⟨"cap", "cap", .int, none, none⟩, ⟨"floor", "floor", .int, some 1, none⟩] }
  assumptions := [.cmp .le (.int 1) (.var "floor"), .cmp .eq (.var "floor") (.int 5),
    .cmp .eq (.var "cap") (.arith .add .int (.var "floor") (.int 1))]
  formula := .quant .all "n" .int (.implies (.cmp .gt (.var "n") (.var "cap"))
    (.cmp .gt (.var "n") (.var "floor")))
  warnings := []

def taxRate : Declaration :=
  ⟨{}, "rate", .refine {} (.prim {} .int) (some 0) (some 10), .literal {} (.int 3)⟩

def feeRate : Declaration :=
  ⟨{}, "rate", .refine {} (.prim {} .int) (some 20) (some 50), .literal {} (.int 25)⟩

/-- The rate of fees is twenty at least. -/
def feeSite : Site where
  principle := ⟨{}, "P", .binary {} .ge "rate" (.literal {} (.int 20))⟩
  inForce := [feeRate]

def charges : Program where
  name := "charges"
  items := [.scope {} "Tax" [.value taxRate],
    .scope {} "Fees" [.value feeRate, .principle feeSite.principle]]

end Statute
