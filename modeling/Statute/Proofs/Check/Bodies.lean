import Statute.Proofs.Lowering.Agreement
import Statute.Proofs.Match.Runs

/-!
# What an accepted function tells

A function of an accepted program has its signature, `signature_of_check`, and its body went through
the check, `gives_checkStmts`. So every block of the body did, at any depth, and no `match` in it
has a second wildcard or an arm that can never be chosen, `properBlock_of_check`.
-/

namespace Statute

open Checking

variable {s : Stmt} {cond e value : Expr} {arms : List (Arm Expr (List Stmt))} {place : Span}

/-!
## Statements
-/

section Statements

variable {cx : Context} {result : Ty} {scope : Scope} {b : List Stmt} {span : Span}

theorem passes_checkStmts_cons {rest : List Stmt} :
    Passes (checkStmts cx result scope (s :: rest)) fun _ =>
      ∃ next, Gives (checkStmt cx result scope s) next ∧
        Gives (checkStmts cx result next rest) () := by
  refine (onlyAdds_checkStmt cx result scope s).gives.bind fun next => ?_
  exact (onlyAdds_checkStmts cx result next rest).passes fun _ hrest hs => ⟨next, hs, hrest⟩

/-- Each statement of a block is checked in some scope. -/
theorem gives_of_mem_stmts (h : Gives (checkStmts cx result scope b) ()) (hs : s ∈ b) :
    ∃ scope' next, Gives (checkStmt cx result scope' s) next := by
  induction b generalizing scope with
  | nil => cases hs
  | cons first rest ih =>
    obtain ⟨next, hfirst, hrest⟩ := passes_checkStmts_cons.result () h
    rcases List.mem_cons.mp hs with rfl | hs
    · exact ⟨scope, next, hfirst⟩
    · exact ih hrest hs

theorem passes_expectBool (site : ConditionSite) (e : Expr) :
    Passes (expectBool cx scope site e) fun _ => ∃ t, Typed cx scope none e t := by
  refine (passes_infer cx scope none e).bind fun t => ?_
  exact (Passes.faultIf _ _ _).mono fun _ _ ht => ⟨t, ht⟩

theorem passes_checkStmt_branch {yes no} :
    Passes (checkStmt cx result scope (.branch span cond yes no)) fun _ =>
      (∃ t, Typed cx scope none cond t) ∧ Gives (checkStmts cx result scope.push yes) () ∧
        ∀ c, no = some c → Gives (checkStmts cx result scope.push c) () := by
  rw [checkStmt]
  refine (passes_expectBool _ cond).bind fun _ => ?_
  refine (onlyAdds_checkStmts cx result scope.push yes).gives.bind fun _ => ?_
  cases no with
  | none => exact .pure fun hyes hcond => ⟨hcond, hyes, fun c hc => by cases hc⟩
  | some b =>
    refine (onlyAdds_checkStmts cx result scope.push b).gives.bind fun _ => ?_
    exact .pure fun hno hyes hcond => ⟨hcond, hyes, fun c hc => Option.some.inj hc ▸ hno⟩

/-- The guards of arms are typed, and their bodies go through. -/
theorem passes_checkArms {scrutinee : Ty} :
    Passes (checkArms cx result scope scrutinee arms) fun _ => ∀ a ∈ arms, ∃ inside,
      (∀ g, a.guard = some g → ∃ t, Typed cx inside none g t) ∧
        Gives (checkStmts cx result inside.push a.body) () := by
  induction arms with
  | nil => exact .pure (by simp)
  | cons a arms ih =>
    obtain ⟨span, p, g, body⟩ := a
    refine (onlyAdds_checkPattern cx _ scrutinee p).gives.bind fun inside => ?_
    have hrest : Passes (do
        checkStmts cx result inside.push body
        checkArms cx result scope scrutinee arms) fun _ =>
          (∀ g', g = some g' → ∃ t, Typed cx inside none g' t) →
            ∀ a ∈ ⟨span, p, g, body⟩ :: arms, ∃ inside,
              (∀ g, a.guard = some g → ∃ t, Typed cx inside none g t) ∧
                Gives (checkStmts cx result inside.push a.body) () := by
      refine (onlyAdds_checkStmts cx result inside.push body).gives.bind fun _ => ?_
      refine ih.mono fun _ harms hbody hg => List.forall_mem_cons.mpr ⟨?_, harms⟩
      exact ⟨inside, hg, hbody⟩
    cases g with
    | none => exact hrest.mono fun _ h _ => h (by simp)
    | some g =>
      refine (passes_expectBool _ g).bind fun _ => hrest.mono fun _ h hg _ => h ?_
      exact fun g' hg' => Option.some.inj hg' ▸ hg

theorem properArms_of_faults {heads} (hexhaustive : exhaustivenessFault? place heads = none)
    (hreachable : unreachableArms heads = []) : ProperArms heads := by
  refine ⟨?_, hreachable⟩
  unfold exhaustivenessFault? at hexhaustive
  split at hexhaustive
  · cases hexhaustive
  next h =>
    rw [h]
    exact Nat.le_refl 1
  · cases hexhaustive

theorem passes_checkStmt_select :
    Passes (checkStmt cx result scope (.select span e arms)) fun _ =>
      (∃ t, Typed cx scope none e t) ∧ ProperArms (arms.map Arm.head) ∧ ∀ a ∈ arms, ∃ inside,
        (∀ g, a.guard = some g → ∃ t, Typed cx inside none g t) ∧
          Gives (checkStmts cx result inside.push a.body) () := by
  refine (passes_infer cx scope none e).bind fun t => (Passes.faults _).bind fun _ => ?_
  refine (Passes.faults _).bind fun _ => passes_checkArms.bind fun _ => ?_
  refine .pure fun harms hreachable hexhaustive ht => ⟨⟨t, ht⟩, ?_, harms⟩
  exact properArms_of_faults (Option.toList_eq_nil_iff.mp hexhaustive) hreachable

theorem passes_checkStmt_ret :
    Passes (checkStmt cx result scope (.ret span value)) fun _ =>
      ∃ t, Typed cx scope (some result) value t := by
  refine (passes_expectValue result value).bind fun _ => .pure fun h => ?_
  obtain ⟨t, ht, -⟩ := h
  exact ⟨t, ht⟩

/-- A block inside a block is checked in some scope. -/
theorem Encloses.gives {c : List Stmt} (hc : Encloses b c)
    (h : Gives (checkStmts cx result scope b) ()) :
    ∃ scope', Gives (checkStmts cx result scope' c) () := by
  induction hc generalizing scope with
  | refl => exact ⟨scope, h⟩
  | yes hs _ ih =>
    obtain ⟨scope', next, hstmt⟩ := gives_of_mem_stmts h hs
    exact ih (passes_checkStmt_branch.result next hstmt).2.1
  | no hs _ ih =>
    obtain ⟨scope', next, hstmt⟩ := gives_of_mem_stmts h hs
    exact ih ((passes_checkStmt_branch.result next hstmt).2.2 _ rfl)
  | arm hs ha _ ih =>
    obtain ⟨scope', next, hstmt⟩ := gives_of_mem_stmts h hs
    obtain ⟨inside, -, hbody⟩ := (passes_checkStmt_select.result next hstmt).2.2 _ ha
    exact ih hbody

/-- A `match` that is returned has proper arms. -/
theorem Typed.properArms {want t} (h : Typed cx scope want e t) {s} {arms : List (Arm Expr Expr)}
    (hinside : ReturnsInside e (.select span place s arms)) : ProperArms (arms.map Arm.head) := by
  generalize hselect : Expr.select span place s arms = e' at hinside
  induction hinside generalizing scope want t with
  | refl =>
    subst hselect
    cases h with
    | select _ hexhaustive hreachable _ _ => exact properArms_of_faults hexhaustive hreachable
  | arm ha _ ih =>
    obtain ⟨scope', want', u, hu⟩ := h.children (Expr.body_mem_children ha)
    exact ih hu hselect

theorem properBlock_of_gives (h : Gives (checkStmts cx result scope b) ()) : ProperBlock b := by
  refine ⟨fun c hc span e arms hs => ?_, fun c hc span value hs span' place s arms hinside => ?_⟩
  · obtain ⟨scope', hblock⟩ := hc.gives h
    obtain ⟨inside, next, hstmt⟩ := gives_of_mem_stmts hblock hs
    exact (passes_checkStmt_select.result next hstmt).2.1
  obtain ⟨scope', hblock⟩ := hc.gives h
  obtain ⟨inside, next, hstmt⟩ := gives_of_mem_stmts hblock hs
  obtain ⟨t, ht⟩ := passes_checkStmt_ret.result next hstmt
  exact ht.properArms hinside

end Statements

/-!
## Functions
-/

section Functions

variable {cx : Context} {scope : Scope} {f : FunctionDecl} {sig : Signature}

/-- The body is checked where the type parameters of the function stand for types. -/
theorem passes_checkFunction_body (hsig : cx.env.function? f.name.name = some sig)
    (hspan : sig.span = f.span) :
    Passes (checkFunction cx scope f) fun _ => ∃ inside,
      Gives (checkStmts { cx with typeParams := sig.typeParams } sig.result inside f.body) () := by
  unfold checkFunction
  rw [hsig]
  dsimp only
  -- a function at another place would be a second one of the name, and not looked at
  rw [if_neg (by simp [hspan])]
  refine (onlyAdds_bindParams _ scope.push _).gives.bind fun inside => ?_
  refine (onlyAdds_checkStmts _ _ inside.push f.body).gives.bind fun _ => ?_
  refine OnlyAdds.passes ?_ fun _ _ hbody _ => ⟨inside.push, hbody⟩
  repeat' split
  · exact .faults _
  all_goals exact .pure _

/-- The results of a function that gives an exclusive enum are looked at. -/
theorem passes_checkFunction_exclusive (hsig : cx.env.function? f.name.name = some sig)
    (hspan : sig.span = f.span) (hon : cx.options.exclusivity) {name : String}
    {info : EnumInfo} (hname : sig.result.core = .enum name) (hinfo : cx.env.enum? name = some info)
    (hexclusive : info.exclusive) :
    Passes (checkFunction cx scope f) fun _ => exclusivityFault? f.body info = none := by
  unfold checkFunction
  rw [hsig]
  dsimp only
  rw [if_neg (by simp [hspan])]
  refine (onlyAdds_bindParams _ scope.push _).gives.bind fun inside => ?_
  refine (onlyAdds_checkStmts _ _ inside.push f.body).gives.bind fun _ => ?_
  rw [if_pos hon, hname]
  dsimp only
  rw [hinfo]
  dsimp only
  rw [if_pos hexclusive]
  exact (Passes.faults _).mono fun _ h _ _ => Option.toList_eq_nil_iff.mp h

end Functions

/-!
## Accepted programs
-/

section Accepted

variable {p : Program} {options : CheckOptions} {cp : CheckedProgram} {f : FunctionDecl}

section

variable (h : p.check options = .ok cp) (hf : .function f ∈ p.leaves)

include h hf

theorem signature_of_check :
    ∃ sig, cp.env.function? f.name.name = some sig ∧ sig.span = f.span ∧
      sig.typeParams = f.typeParams.map (·.name) := by
  obtain ⟨henv, hrounds⟩ := Rounds.of_check h
  rw [henv]
  exact ⟨_, ((settles_collectSignatures _ _).through hrounds.signatures _ hf).1, rfl, rfl⟩

theorem gives_checkFunction : ∃ scope, Gives (checkFunction ⟨cp.env, options, []⟩ scope f) () := by
  obtain ⟨scope, next, hgives⟩ := gives_checkItem h hf
  have hpasses : Passes (checkItem ⟨cp.env, options, []⟩ scope (.function f)) fun _ =>
      Gives (checkFunction ⟨cp.env, options, []⟩ scope f) () := by
    exact (onlyAdds_checkFunction f).gives.bind fun _ => .pure fun h => h
  exact ⟨scope, hpasses.result next hgives⟩

/-- The body of a function went through, where its type parameters stand for types. -/
theorem gives_checkStmts :
    ∃ result inside, Gives (checkStmts ⟨cp.env, options, f.typeParams.map (·.name)⟩ result inside
      f.body) () := by
  obtain ⟨sig, hsig, hspan, hparams⟩ := signature_of_check h hf
  obtain ⟨scope, hgives⟩ := gives_checkFunction h hf
  obtain ⟨inside, hbody⟩ := (passes_checkFunction_body hsig hspan).result () hgives
  rw [hparams] at hbody
  exact ⟨sig.result, inside, hbody⟩

theorem properBlock_of_check : ProperBlock f.body := by
  obtain ⟨result, inside, hbody⟩ := gives_checkStmts h hf
  exact properBlock_of_gives hbody

theorem exclusivityFault?_of_check (hon : options.exclusivity) {sig : Signature}
    (hsig : cp.env.function? f.name.name = some sig) {name : String} {info : EnumInfo}
    (hname : sig.result.core = .enum name) (hinfo : cp.env.enum? name = some info)
    (hexclusive : info.exclusive) : exclusivityFault? f.body info = none := by
  obtain ⟨found, hfound, hspan, -⟩ := signature_of_check h hf
  cases hfound.symm.trans hsig
  obtain ⟨scope, hgives⟩ := gives_checkFunction h hf
  exact (passes_checkFunction_exclusive hsig hspan hon hname hinfo hexclusive).result () hgives

end

end Accepted

end Statute
