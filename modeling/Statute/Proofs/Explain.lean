import Statute.Explain
import Statute.Proofs.Check.Declarations
import Statute.Proofs.Lowering.Places
import Statute.Proofs.Reading

/-!
# What an explanation tells

An explanation is read from left to right, with a glossary for the texts of values and types. An
operand goes on until an operator that is not in parentheses, and a quantified statement to the end
of what it stands in. So an operand that ends with a quantified statement takes in what follows, and
principles that differ in this are explained alike, `severity_explained_as_mercy`. Where nothing of
the kind occurs, `Clear`, what is read is the principle without its places, and the explanation
determines the formula, `lower_eq_of_explain_eq`.
-/

namespace Statute

open List

namespace Explain

/-- What the texts of values and types stand for. -/
structure Glossary where
  value : String → Expr
  type : String → TypeExpr

variable (G : Glossary)

/-!
## Reading
-/

/-- The marks at which a word ends. -/
def marks : List Char := [' ', ',', '(', ')']

/-- The text up to where another one stands for the first time, and the rest. -/
def upTo (stop : String) : List Char → List Char × List Char
  | [] => ([], [])
  | c :: cs =>
    if stop.toList.isPrefixOf (c :: cs) then ([], c :: cs)
    else ((upTo stop cs).1.cons c, (upTo stop cs).2)

/-- The operator at the start of a text, with the blanks around it. -/
def operator? (cs : List Char) : Option (BinaryOp × List Char) :=
  [.add, .sub, .mul, .div, .mod, .eq, .ne, .lt, .gt, .le, .ge, .and, .or, .implies].findSome?
    fun op => (after? (" " ++ opName op ++ " ") cs).map fun rest => (op, rest)

/-- How a quantified statement opens. -/
def opening : Quantifier → Bool → String
  | .all, capital => if capital then "For all " else "for all "
  | .some, capital => if capital then "There exists a " else "there exists a "

/-- What comes between the type of a variable and the statement about it. -/
def closing : Quantifier → String
  | .all => ","
  | .some => " such that"

/-- The variable of a quantified statement with its type, and the statement about it. -/
def binder? (q : Quantifier) (capital : Bool) (cs : List Char) :
    Option (Ident × TypeExpr × List Char) := do
  let cs ← after? (opening q capital) cs
  let x := (wordBefore marks cs).1
  let cs ← after? " of type " (wordBefore marks cs).2
  let t := G.type (String.ofList (upTo (closing q) cs).1)
  return (x, t, ← after? (closing q) (upTo (closing q) cs).2)

mutual

/-- A statement on one line. -/
def Glossary.phrase? (G : Glossary) (cs : List Char) : Option (Expr × List Char) := do
  let (l, cs) ← G |>.operand? cs
  match operator? cs with
  | none => return (l, cs)
  | some (op, cs) =>
    let (r, cs) ← G |>.operand? cs
    return (.binary {} op l r, cs)
partial_fixpoint

/-- An operand: all up to an operator that is not in parentheses. -/
def Glossary.operand? (G : Glossary) (cs : List Char) : Option (Expr × List Char) := do
  match cs with
  | '(' :: cs =>
    let (e, cs) ← G |>.phrase? cs
    return (e, cs.drop 1)
  | '-' :: cs =>
    let (e, cs) ← G |>.operand? cs
    return (.unary {} .neg e, cs)
  | cs =>
    let (w, rest) := wordBefore marks cs
    if w = "" then none
    else if w = "not" then
      let (e, cs) ← G |>.operand? (rest.drop 1)
      return (.unary {} .not e, cs)
    else if w = "for" ∨ w = "there" then
      let q : Quantifier := if w = "for" then .all else .some
      let (x, t, cs) ← binder? G q false cs
      let (e, cs) ← G |>.phrase? (cs.drop 1)
      return (.quantified {} q x t e, cs)
    else
      match rest with
      | '(' :: cs =>
        let (args, cs) ← G |>.args? cs
        return (.call {} w args, cs)
      | cs => return (G.value w, cs)
partial_fixpoint

/-- Arguments with commas between them, up to the closing parenthesis. -/
def Glossary.args? (G : Glossary) (cs : List Char) : Option (List Expr × List Char) := do
  match cs with
  | ')' :: cs => return ([], cs)
  | cs =>
    let (e, cs) ← G |>.phrase? cs
    match cs with
    | ',' :: cs =>
      let (es, cs) ← G |>.args? (cs.drop 1)
      return (e :: es, cs)
    | cs => return ([e], cs.drop 1)
partial_fixpoint

end

/-- A statement with a line for each quantifier in front, below `depth` of them. -/
def Glossary.lines? (G : Glossary) (depth : Nat) (cs : List Char) : Option Expr := do
  let cs ← after? (indent (depth + 1)) cs
  match G.phrase? cs with
  | some (e, []) => return e
  | _ =>
    let q : Quantifier := if cs.head? = some 'F' then .all else .some
    let (x, t, cs) ← binder? G q true cs
    return .quantified {} q x t (← G |>.lines? (depth + 1) (cs.drop 1))
partial_fixpoint

/-!
## What can be told
-/

mutual

/-- The expression as it is read: without its places, and with the types of the glossary. -/
def Glossary.told : Expr → Expr
  | .literal _ v => .literal {} v
  | .name _ id => .name {} id.name
  | .variant _ t v => .variant {} t.name v.name
  | .member _ base field => .member {} (told base) field.name
  | .unary _ op e => .unary {} op (told e)
  | .binary _ op l r => .binary {} op (told l) (told r)
  | .call _ callee args => .call {} callee.name (toldArgs args)
  | .quantified _ q x t e => .quantified {} q x.name (G.type (typeName t)) (told e)
  | e => e

def Glossary.toldArgs : List Expr → List Expr
  | [] => []
  | e :: es => told e :: toldArgs es

end

/-- A word that can be told from the words of explanations. -/
def isWord (n : String) : Bool :=
  n.toList.all (fun c => !marks.contains c) && n.toList.head? != some '-' &&
    !(["", "not", "for", "there"].contains n)

/-- Literals, names, variants, and fields of these. -/
def isValue : Expr → Bool
  | .literal _ _ | .name _ _ | .variant _ _ _ => true
  | .member _ base _ => isValue base
  | _ => false

/-- The text of the operand ends with a quantified statement. -/
def isOpen : Expr → Bool
  | .quantified _ _ _ _ _ => true
  | .unary _ _ e => isOpen e
  | _ => false

/-- It can be told where the text of the type ends. -/
def isDelimited (q : Quantifier) (t : TypeExpr) : Bool :=
  upTo (closing q) (typeName t ++ closing q).toList = ((typeName t).toList, (closing q).toList)

/-- The expression can be told from its text, and types resolve as those of the glossary do. -/
inductive Clear (G : Glossary) (env : Env) : Expr → Prop where
  | value {e} (he : isValue e) (hword : isWord (inlineText e))
      (htold : G.value (inlineText e) = G.told e) : Clear G env e
  | unary {span op e} (h : Clear G env e) : Clear G env (.unary span op e)
  | binary {span op l r} (hl : Clear G env l) (hr : Clear G env r) (hclosed : isOpen l = false) :
      Clear G env (.binary span op l r)
  | call {span callee args} (hcallee : isWord callee.name) (h : ∀ e ∈ args, Clear G env e) :
      Clear G env (.call span callee args)
  | quantified {span q x t e} (hx : isWord x.name) (ht : isDelimited q t)
      (htype : (typeOf env (G.type (typeName t))).toOption = (typeOf env t).toOption)
      (h : Clear G env e) : Clear G env (.quantified span q x t e)

variable {G : Glossary} {n : String} {r cs : List Char} {e : Expr} {span : Span} {env : Env}

theorem isWord_iff : isWord n ↔ (∀ c ∈ n.toList, c ∉ marks) ∧ n.toList.head? ≠ some '-' ∧
    n ∉ ["", "not", "for", "there"] := by
  simp [isWord, and_assoc]

theorem wordBefore_marks (h : isWord n) (hr : StopsAt marks r) :
    wordBefore marks (n.toList ++ r) = (n, r) :=
  wordBefore_append (isWord_iff.mp h).1 hr

theorem upTo_append {stop : String} (hstop : stop.toList ≠ [])
    (h : upTo stop (cs ++ stop.toList) = (cs, stop.toList)) (r : List Char) :
    upTo stop (cs ++ (stop.toList ++ r)) = (cs, stop.toList ++ r) := by
  induction cs with
  | nil =>
    obtain ⟨c, cs, hlist⟩ := exists_cons_of_ne_nil hstop
    rw [nil_append, hlist, cons_append, upTo, if_pos]
    simp [hlist]
  | cons c cs ih =>
    rw [cons_append, upTo] at h
    split at h
    · cases congrArg Prod.fst h
    next hgo =>
      obtain ⟨hcs, hrest⟩ := Prod.mk.inj h
      have hgo' : ¬stop.toList.isPrefixOf (c :: (cs ++ (stop.toList ++ r))) = true := by
        rw [ isPrefixOf_iff_prefix, ← append_assoc, ← cons_append] at *
        exact fun hpre => hgo (prefix_of_prefix_length_le hpre (prefix_append ..) (by simp; omega))
      rw [cons_append, upTo, if_neg hgo', ih (Prod.ext (cons.inj hcs).2 hrest)]

theorem quantifierHead_toList (q : Quantifier) (capital : Bool) (x : Ident) (t : TypeExpr) :
    (quantifierHead q capital x t).toList = (opening q capital).toList ++ (x.name.toList ++
      (" of type ".toList ++ ((typeName t).toList ++ (closing q).toList))) := by
  cases q <;> simp only [quantifierHead, String.toList_append, append_assoc] <;> rfl

theorem binder?_append (capital : Bool) {q} {x : Ident} {t} (hx : isWord x.name)
    (ht : isDelimited q t) (r : List Char) :
    binder? G q capital ((quantifierHead q capital x t).toList ++ r) =
      some (⟨x.name, {}⟩, G.type (typeName t), r) := by
  have hword (cs : List Char) : wordBefore marks (x.name.toList ++ (" of type ".toList ++ cs)) =
      (x.name, " of type ".toList ++ cs) :=
    wordBefore_marks hx (stopsAt_cons (c := ' ') (by decide) _)
  have hclosing : (closing q).toList ≠ [] := by cases q <;> decide
  have htype : upTo (closing q) ((typeName t).toList ++ (closing q).toList) =
      ((typeName t).toList, (closing q).toList) := by simpa [isDelimited] using ht
  rw [quantifierHead_toList]
  simp only [append_assoc]
  rw [binder?, after?_append]
  show (after? _ (wordBefore marks _).2).bind _ = _
  rw [hword, after?_append]
  show (after? _ (upTo _ _).2).bind _ = _
  rw [upTo_append hclosing htype, after?_append, String.ofList_toList]
  rfl

/-!
## Statements on one line
-/

/-- What may come after a statement: what ends an argument or parentheses, or nothing. -/
inductive Rests : List Char → Prop where
  | nil : Rests []
  | comma {r : List Char} : Rests (", ".toList ++ r)
  | bracket {r : List Char} : Rests (")".toList ++ r)

/-- What may come after an operand. -/
inductive Follows (isOpen : Bool) : List Char → Prop where
  | rests {r : List Char} (h : Rests r) : Follows isOpen r
  | operator (op : BinaryOp) {r : List Char} (h : isOpen = false) :
      Follows isOpen ((" " ++ opName op ++ " ").toList ++ r)

theorem Follows.marked {isOpen : Bool} (h : Follows isOpen r) : StopsAt marks r := by
  cases h with
  | rests h =>
    cases h with
    | nil => exact stopsAt_nil _
    | comma => exact stopsAt_cons (c := ',') (by decide) _
    | bracket => exact stopsAt_cons (c := ')') (by decide) _
  | operator op => cases op <;> exact stopsAt_cons (c := ' ') (by decide) _

theorem Rests.operator? (h : Rests r) : operator? r = none := by cases h <;> rfl

/-- An expression is read from its text, wherever the text may stand. -/
structure Reads (G : Glossary) (e : Expr) : Prop where
  phrase : ∀ r, Rests r → G.phrase? ((inlineText e).toList ++ r) = some (G.told e, r)
  operand : ∀ r, Follows (isOpen e) r →
    G.operand? ((operand e (inlineText e)).toList ++ r) = some (G.told e, r)

theorem phrase?_eq {l : Expr} (h : G.operand? cs = some (l, r)) :
    G.phrase? cs = match operator? r with
      | none => some (l, r)
      | some (op, cs) => (G.operand? cs).bind fun a => some (.binary {} op l a.1, a.2) := by
  rw [Glossary.phrase?, h]
  rfl

theorem Reads.of_operand (htext : ∀ s, Explain.operand e s = s)
    (h : ∀ r, Follows (isOpen e) r → G.operand? ((inlineText e).toList ++ r) = some (G.told e, r)) :
    Reads G e where
  phrase r hr := by rw [phrase?_eq (h r (.rests hr)), hr.operator?]
  operand r hr := by rw [htext, h r hr]

/-- A word is followed by arguments or not. -/
theorem operand?_word (h : isWord n) (r : List Char) : StopsAt marks r →
    G.operand? (n.toList ++ r) = match r with
      | '(' :: cs => (G.args? cs).bind fun a => some (.call {} n a.1, a.2)
      | cs => some (G.value n, cs) := by
  intro hr
  obtain ⟨hmarks, hminus, hwords⟩ := isWord_iff.mp h
  simp only [mem_cons, not_or] at hwords
  obtain ⟨hempty, hnot, hfor, hthere, -⟩ := hwords
  obtain ⟨c, cs, hlist⟩ := exists_cons_of_ne_nil (String.toList_eq_nil_iff.not.mpr hempty)
  have hbracket : c ≠ '(' := fun hc => hmarks c (hlist ▸ mem_cons_self) (hc ▸ by decide)
  rw [Glossary.operand?.eq_def]
  split
  next heq => grind
  next heq => grind
  · rw [wordBefore_marks h hr]
    dsimp only
    rw [if_neg hempty, if_neg hnot, if_neg (not_or.mpr ⟨hfor, hthere⟩)]
    rfl

theorem Reads.value (he : isValue e) (hword : isWord (inlineText e))
    (htold : G.value (inlineText e) = G.told e) : Reads G e := by
  refine .of_operand (by cases e <;> first | exact fun _ => rfl | cases he) fun r hr => ?_
  rw [operand?_word hword r hr.marked, htold]
  cases hr with
  | rests hr => cases hr <;> rfl
  | operator op => cases op <;> rfl

theorem Reads.unary {op : UnaryOp} (h : Reads G e) : Reads G (.unary span op e) := by
  refine .of_operand (fun _ => rfl) fun r hr => ?_
  have hread := h.operand r hr
  cases op <;>
  · unfold inlineText
    rw [String.toList_append, append_assoc, Glossary.operand?.eq_def]
    exact congrArg (Option.bind · _) hread

theorem Reads.binary {op l r} (hl : Reads G l) (hr : Reads G r) (hclosed : isOpen l = false) :
    Reads G (.binary span op l r) := by
  have hphrase (rest : List Char) (hrest : Rests rest) :
      G.phrase? ((inlineText (.binary span op l r)).toList ++ rest) =
        some (G.told (.binary span op l r), rest) := by
    have hoperator (cs : List Char) :
        operator? ((" " ++ opName op ++ " ").toList ++ cs) = some (op, cs) := by cases op <;> rfl
    have hleft := hl.operand _ (.operator op hclosed
      (r := (Explain.operand r (inlineText r)).toList ++ rest))
    unfold inlineText
    simp only [String.toList_append, append_assoc] at hleft hoperator ⊢
    rw [phrase?_eq hleft, hoperator]
    dsimp only
    rw [hr.operand rest (.rests hrest)]
    rfl
  refine ⟨hphrase, fun rest _ => ?_⟩
  simp only [Explain.operand, String.toList_append, append_assoc]
  rw [Glossary.operand?.eq_def]
  exact congrArg (Option.bind · _) (hphrase _ .bracket)

theorem Reads.quantified {q} {x : Ident} {t} (hx : isWord x.name)
    (ht : isDelimited q t) (h : Reads G e) : Reads G (.quantified span q x t e) := by
  refine .of_operand (fun _ => rfl) fun r hr => ?_
  have hopening (cs : List Char) : G.operand? ((opening q false).toList ++ cs) =
      (binder? G q false ((opening q false).toList ++ cs)).bind fun b =>
        (G.phrase? (b.2.2.drop 1)).bind fun p => some (.quantified {} q b.1 b.2.1 p.1, p.2) := by
    rw [Glossary.operand?.eq_def]
    cases q <;> rfl
  have hbinder := binder?_append (G := G) false hx ht (" ".toList ++
    ((inlineText e).toList ++ r))
  unfold inlineText
  rw [String.toList_append, String.toList_append]
  simp only [quantifierHead_toList, append_assoc] at hbinder ⊢
  cases hr with
  | operator _ h => cases h
  | rests hr =>
    rw [hopening, hbinder]
    exact congrArg (Option.bind · _) (h.phrase r hr)

theorem args?_eq (cs r : List Char) : G.phrase? cs = some (e, r) →
    G.args? cs = match r with
      | ',' :: cs => (G.args? (cs.drop 1)).bind fun a => some (e :: a.1, a.2)
      | cs => some ([e], cs.drop 1) := by
  intro h
  rw [Glossary.args?.eq_def]
  split
  · rw [Glossary.phrase?, Glossary.operand?.eq_def] at h
    cases h
  · rw [h]
    rfl

theorem args?_append {args : List Expr} (h : ∀ e ∈ args, Reads G e) :
    G.args? ((", ".intercalate (argTexts args)).toList ++ (")".toList ++ r)) =
      some (G.toldArgs args, r) := by
  induction args with
  | nil =>
    rw [Glossary.args?.eq_def]
    rfl
  | cons e es ih =>
    obtain ⟨he, hes⟩ := forall_mem_cons.mp h
    cases es with
    | nil => exact args?_eq _ _ (he.phrase _ .bracket)
    | cons f fs =>
      rw [argTexts, argTexts, String.intercalate_cons_cons, String.toList_append,
        String.toList_append, append_assoc, append_assoc, args?_eq _ _ (he.phrase _ .comma)]
      exact congrArg (Option.bind · _) (ih hes)

theorem Reads.call {callee : Ident} {args : List Expr} (hcallee : isWord callee.name)
    (h : ∀ e ∈ args, Reads G e) : Reads G (.call span callee args) := by
  refine .of_operand (fun _ => rfl) fun r hr => ?_
  unfold inlineText
  simp only [String.toList_append, append_assoc]
  rw [operand?_word hcallee ("(".toList ++ _) (stopsAt_cons (c := '(') (by decide) _)]
  exact congrArg (Option.bind · _) (args?_append h)

theorem Clear.reads (h : Clear G env e) : Reads G e := by
  induction h with
  | value he hword htold => exact .value he hword htold
  | unary _ ih => exact .unary ih
  | binary _ _ hclosed ihl ihr => exact .binary ihl ihr hclosed
  | call hcallee _ ih => exact .call hcallee ih
  | quantified hx ht _ _ ih => exact .quantified hx ht ih

/-- A capital letter is not taken for the start of a statement on one line. -/
theorem phrase?_opening (q : Quantifier) (cs : List Char) :
    ∃ e c r, G.phrase? ((opening q true).toList ++ cs) = some (e, c :: r) := by
  have hrest (w : String) (r : List Char) (h : isWord w)
      (hoperator : operator? (' ' :: r) = none) :
      ∃ e c r', G.phrase? (w.toList ++ ' ' :: r) = some (e, c :: r') := by
    have hoperand : G.operand? (w.toList ++ ' ' :: r) = some (G.value w, ' ' :: r) :=
      operand?_word h (' ' :: r) (stopsAt_cons (by decide) r)
    exact ⟨_, _, _, by rw [phrase?_eq hoperand, hoperator]⟩
  cases q with
  | all => exact hrest "For" ("all ".toList ++ cs) rfl rfl
  | some => exact hrest "There" ("exists a ".toList ++ cs) rfl rfl

theorem Clear.lines?_lines (h : Clear G env e) (depth : Nat) :
    G.lines? depth (lines depth e).toList = some (G.told e) := by
  induction depth, e using lines.induct with
  | case1 depth span q x t e ih =>
    cases h with
    | value he => cases he
    | quantified hx ht _ h =>
      have hbinder := binder?_append (G := G) true hx ht ("\n".toList ++
        (lines (depth + 1) e).toList)
      have hlines := ih h
      rw [Glossary.lines?, lines]
      simp only [quantifierHead_toList, String.toList_append, append_assoc] at hbinder ⊢
      generalize x.name.toList ++ _ = cs at hbinder ⊢
      -- the line does not end where a statement would
      obtain ⟨_, _, _, hphrase⟩ := phrase?_opening (G := G) q cs
      rw [after?_append]
      show (match G.phrase? _ with
        | some (e, []) => some e
        | _ => _) = _
      rw [hphrase]
      cases q <;>
      · refine (congrArg (Option.bind · _) hbinder).trans ?_
        exact congrArg (Option.bind · _) hlines
  | case2 depth e hne =>
    have hphrase := h.reads.phrase [] .nil
    rw [append_nil] at hphrase
    rw [Glossary.lines?, lines, String.toList_append, after?_append]
    show (match G.phrase? (inlineText e).toList with
      | some (e, []) => some e
      | _ => _) = _
    rw [hphrase]
    exact hne

/-!
## Formulas
-/

section

variable {cx : LoweringContext} {lowerBody : Expr → Lowering Lowered}

theorem same_value (he : isValue e) (locals : List Local) (depth : Nat) :
    Same (lowerWith cx lowerBody locals depth (G.told e))
      (lowerWith cx lowerBody locals depth e) := by
  fun_induction isValue e with
  | case1 => exact same_lowerLiteral
  | case2 =>
    rw [Glossary.told, lowerWith, lowerWith, lowerName, lowerName]
    dsimp only
    split
    · rfl
    · split <;> rfl
  | case3 => exact same_lowerVariant
  | case4 span base field ih =>
    rw [Glossary.told, lowerWith, lowerWith]
    exact (ih he).bind fun _ => same_lowerMember
  | case5 => cases he

theorem length_toldArgs (args : List Expr) : (G.toldArgs args).length = args.length := by
  induction args with
  | nil => rfl
  | cons e es ih => exact congrArg (· + 1) ih

theorem same_args {args locals depth span'} (h : ∀ e ∈ args, Same
    (lowerWith cx lowerBody locals depth (G.told e)) (lowerWith cx lowerBody locals depth e))
    (params : List Ty) : Same (lowerArgs cx lowerBody locals depth span params (G.toldArgs args))
      (lowerArgs cx lowerBody locals depth span' params args) := by
  induction args generalizing params with
  | nil => cases params <;> rfl
  | cons e es ih =>
    obtain ⟨he, hes⟩ := forall_mem_cons.mp h
    cases params with
    | nil => rfl
    | cons p params =>
      rw [Glossary.toldArgs, lowerArgs, lowerArgs]
      refine same_sortOf.bind fun s => he.bind fun t => same_coerce.bind fun t => ?_
      exact (ih hes params).bind fun _ => rfl

theorem Clear.same (h : Clear G cx.env e) (locals : List Local) (depth : Nat) :
    Same (lowerWith cx lowerBody locals depth (G.told e))
      (lowerWith cx lowerBody locals depth e) := by
  induction h generalizing locals depth with
  | value he => exact same_value he locals depth
  | unary _ ih =>
    rw [Glossary.told, lowerWith, lowerWith]
    exact (ih ..).bind fun _ => same_lowerUnary
  | binary _ _ _ ihl ihr =>
    rw [Glossary.told, lowerWith, lowerWith]
    exact (ihl ..).bind fun _ => (ihr ..).bind fun _ => same_lowerBinary
  | @call span callee args _ _ ih =>
    rw [Glossary.told, lowerWith, lowerWith, length_toldArgs]
    refine same_calledFunction.bind fun f => ?_
    refine (same_args (fun e he => ih e he ..) _).bind fun _ => same_sortOf.bind fun _ => rfl
  | @quantified span q x t e _ _ htype _ ih =>
    have hbound (s : Logic.SmtSort) (limits : Limits) :
        Same (lowerBound cx lowerBody locals (depth + 1) q x.name s limits (G.told e))
          (lowerBound cx lowerBody locals (depth + 1) q x.name s limits e) :=
      Same.bind rfl fun _ => (ih ..).bind fun _ => same_expectSort.bind fun _ => rfl
    rw [Glossary.told, lowerWith_quantified, lowerWith_quantified]
    split
    · rfl
    refine (same_ofExcept htype).bind fun _ => same_sortOf.bind fun _ => ?_
    exact Same.bind rfl fun _ => hbound ..

end

end Explain

/-- Principles with the same text after the line with the name are translated to the same formula,
if one glossary tells both. -/
theorem lower_eq_of_explain_eq (cx : LoweringContext) (G : Explain.Glossary) {a b : Principle}
    (text : String) {f : Logic.Form} (ha : Explain.Clear G cx.env a.body)
    (hb : Explain.Clear G cx.env b.body)
    (htext : a.explain = "Principle '" ++ a.name.name ++ "' states that:\n" ++ text)
    (htext' : b.explain = "Principle '" ++ b.name.name ++ "' states that:\n" ++ text)
    (hf : cx.lower a = .ok f) : cx.lower b = .ok { f with principle := b.name.name } := by
  have hlines (p : Principle)
      (h : p.explain = "Principle '" ++ p.name.name ++ "' states that:\n" ++ text) :
      "\n" ++ Explain.lines 0 p.body = text := by
    have hsplit : "' states that:\n\n" = "' states that:\n" ++ "\n" := by decide
    rw [Principle.explain, hsplit] at h
    simp only [String.append_assoc] at h
    exact String.append_right_inj _ |>.mp (String.append_right_inj _ |>.mp
      (String.append_right_inj _ |>.mp h))
  have hsame : Explain.lines 0 a.body = Explain.lines 0 b.body :=
    String.append_right_inj _ |>.mp ((hlines a htext).trans (hlines b htext').symm)
  have htold : G.told a.body = G.told b.body := by
    have hread := ha.lines?_lines 0
    rw [hsame, hb.lines?_lines 0] at hread
    exact (Option.some.inj hread).symm
  refine cx.lower_of_same (fun lowerBody locals depth => ?_) hf
  exact (ha.same locals depth).symm.trans (htold ▸ hb.same locals depth)

namespace Explain

/-- `not forall excused: bool, excused or guilty`, whoever is guilty. -/
def severity : Principle where
  span := {}
  name := "Severity"
  body := .quantified {} .all "guilty" (.prim {} .bool)
    (.unary {} .not (.quantified {} .all "excused" (.prim {} .bool)
      (.binary {} .or "excused" "guilty")))

/-- `(not forall excused: bool, excused) or guilty`, whoever is guilty. -/
def mercy : Principle where
  span := {}
  name := "Mercy"
  body := .quantified {} .all "guilty" (.prim {} .bool)
    (.binary {} .or (.unary {} .not (.quantified {} .all "excused" (.prim {} .bool) "excused"))
      "guilty")

def verdicts : Program where
  name := "verdicts"
  items := [.principle severity, .principle mercy]

/-- A glossary for variables that are truth values. -/
def truths : Glossary where
  value x := .name {} x
  type _ := .prim {} .bool

theorem clear_severity : Clear truths {} severity.body :=
  .quantified rfl rfl rfl (.unary (.quantified rfl rfl rfl
    (.binary (.value rfl rfl rfl) (.value rfl rfl rfl) rfl)))

/-- A principle under two names. -/
theorem severity_lowered_once : ∃ f, (LoweringContext.ofEnv {}).lower severity = .ok f ∧
    (LoweringContext.ofEnv {}).lower { severity with name := "Rigour" } =
      .ok { f with principle := "Rigour" } := by
  refine ⟨_, rfl, ?_⟩
  exact lower_eq_of_explain_eq (.ofEnv {}) truths ("\n" ++ lines 0 severity.body) clear_severity
    (b := { severity with name := "Rigour" }) clear_severity rfl rfl rfl

/-- An operand that ends with a statement takes in what follows, so two principles of an accepted
program are explained alike and lowered to different formulas. -/
theorem severity_explained_as_mercy :
    verdicts.check = .ok ⟨verdicts, {}, []⟩ ∧
    verdicts.principles = [severity, mercy] ∧
    (∃ text, severity.explain = "Principle '" ++ severity.name.name ++ "' states that:\n" ++ text ∧
      mercy.explain = "Principle '" ++ mercy.name.name ++ "' states that:\n" ++ text) ∧
    ∃ f g, (LoweringContext.ofProgram ⟨verdicts, {}, []⟩).lower severity = .ok f ∧
      (LoweringContext.ofProgram ⟨verdicts, {}, []⟩).lower mercy = .ok g ∧
      f.formula ≠ g.formula := by
  refine ⟨check_eq_ok rfl, rfl, ⟨"\n" ++ lines 0 mercy.body, rfl, rfl⟩, _, _, rfl, rfl, fun h => ?_⟩
  cases h

end Explain

end Statute
