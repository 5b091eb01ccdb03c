import Statute.Proofs.Check.Scopes
import Statute.Proofs.Check.Working

/-!
# Checking restores its state

An expression leaves the state of the checker as it was, and a statement all but the innermost
frame, to which it adds at most one name. This holds in every state, and whatever is reported on the
way. Where no alias is being expanded the checker does what `infer` and `checkStmt` do, which are
handed the scope they work in and hand on the next. `Does` says both of a check that comes back to
its state, `Steps` of one that goes on in another scope.
-/

namespace Statute

variable {f : CheckState → Working β} {x : Checking β} {y : Working β}

namespace Working

open Checking

/-!
## Runs
-/

section Runs

variable {β γ : Type} (st : CheckState)

theorem run_bind (y : Working β) (f : β → Working γ) :
    (y >>= f).run st = y.run st >>= fun p => (f p.1).run p.2 :=
  rfl

theorem run_framed (y : Working β) :
    (framed y).run st = y.run { st with scope := st.scope.push } >>= fun p =>
      pure (p.1, { p.2 with scope := p.2.scope.pop }) :=
  rfl

theorem run_opening (name : String) (y : Working β) :
    (opening name y).run st = y.run { st with opened := st.opened ++ [name] } >>= fun p =>
      pure (p.1, { p.2 with opened := p.2.opened.dropLast }) :=
  rfl

end Runs

/-!
## What a check does in its state
-/

section Does

variable {β γ : Type} {st : CheckState}

/-- In the state `st` the check does what `x` does and comes back to `st`. -/
def Acts (st : CheckState) (y : Working β) (x : Checking β) : Prop :=
  y.run st = x >>= fun b => pure (b, st)

/-- In the state `st` the check does what `x` does and goes on in the scope that `x` gives. -/
def Moves (st : CheckState) (y : Working Unit) (x : Checking Scope) : Prop :=
  y.run st = x >>= fun scope => pure ((), { st with scope })

/-- In the state `st` the check does what `x` does, wherever it ends. -/
def Shows (st : CheckState) (y : Working β) (x : Checking β) : Prop :=
  (y.run st >>= fun p => pure p.1) = x

namespace Acts

theorem pure (b : β) : Acts st (pure b) (pure b) := rfl

theorem lift (x : Checking β) : Acts st (liftM x) x := rfl

theorem bind {y x} {f : β → Working γ} {g : β → Checking γ} (hy : Acts st y x)
    (hf : ∀ b, Acts st (f b) (g b)) : Acts st (y >>= f) (x >>= g) := by
  unfold Acts at hy hf ⊢
  rw [run_bind, hy, bind_assoc, bind_assoc]
  congr 1
  funext b
  exact hf b

theorem map {y x} (hy : Acts st y x) (f : β → γ) :
    Acts st (y >>= fun b => Pure.pure (f b)) (x >>= fun b => Pure.pure (f b)) :=
  hy.bind fun b => .pure (f b)

theorem read (hf : Acts st (f st) x) : Acts st (get >>= f) x :=
  hf

theorem inContext (o : CheckOptions) (x : Context → Checking β) :
    Acts st (inContext o x) (x ⟨st.env, o, st.typeParams⟩) :=
  rfl

theorem opening {name : String} (hy : Acts { st with opened := st.opened ++ [name] } y x) :
    Acts st (opening name y) x := by
  unfold Acts at hy ⊢
  rw [run_opening, hy, bind_assoc]
  congr 1
  funext b
  rw [pure_bind, List.dropLast_concat]

theorem shows (hy : Acts st y x) : Shows st y x := by
  unfold Shows
  rw [hy, bind_assoc]
  exact bind_pure x

theorem moves {y x} (hy : Acts st y x) : Moves st y (x >>= fun _ => Pure.pure st.scope) := by
  unfold Moves
  rw [hy, bind_assoc]
  rfl

theorem bind_moves {y x} {f : β → Working Unit} {g : β → Checking Scope} (hy : Acts st y x)
    (hf : ∀ b, Moves st (f b) (g b)) : Moves st (y >>= f) (x >>= g) := by
  unfold Moves at hf ⊢
  rw [run_bind, hy, bind_assoc, bind_assoc]
  congr 1
  funext b
  exact hf b

end Acts

end Does

/-!
## Types
-/

section Resolve

variable {st : CheckState} {expand : List String → TypeExpr → Working Ty} {expand' : Expansion}

theorem acts_resolveDeclared
    (hexpand : ∀ name ps target,
      Acts { st with opened := st.opened ++ [name] } (expand ps target) (expand' name ps target))
    (span : Span) (name : Ident) (args : List Ty) :
    Acts st (resolveDeclared expand span name args)
      (Statute.resolveDeclared st.env expand' st.opened span name args) := by
  refine .read ?_
  unfold Statute.resolveDeclared
  -- both sides look at the same things, but `split` would open only one of them
  cases st.env.lookup name.name with
  | none => exact (Acts.lift _).map _
  | some d =>
    dsimp only
    cases st.env.instantiate name.name args with
    | error a => exact (Acts.lift _).map _
    | ok binding =>
      cases d.body with
      | struct parent fields | enum info => exact .pure _
      | synonym target =>
        dsimp only
        split
        · exact (Acts.lift _).map _
        · exact (hexpand _ _ _).opening.map _

mutual

theorem acts_resolveWith
    (hexpand : ∀ name ps target,
      Acts { st with opened := st.opened ++ [name] } (expand ps target) (expand' name ps target))
    (params : List String) (t : TypeExpr) :
    Acts st (resolveWith expand params t)
      (Statute.resolveWith st.env st.typeParams expand' st.opened params t) := by
  cases t with
  | prim span p => exact .pure _
  | var span v =>
    rw [resolveWith, Statute.resolveWith]
    refine .read ?_
    split
    · exact .pure _
    · exact (Acts.lift _).map _
  | named span name args =>
    rw [resolveWith, Statute.resolveWith]
    refine .read ?_
    split
    · exact .pure _
    cases Prim.ofName? name.name with
    | some p => exact .pure _
    | none =>
      exact (acts_resolveAllWith hexpand params args).bind fun tys =>
        acts_resolveDeclared hexpand span name tys
  | refine span base lo hi =>
    rw [resolveWith, Statute.resolveWith]
    refine (acts_resolveWith hexpand params base).bind fun t => (Acts.lift _).bind fun _ => ?_
    cases lo with
    | none => exact .pure _
    | some l =>
      cases hi with
      | none => exact .pure _
      | some u => exact (Acts.lift _).map _
  | citation span c =>
    rw [resolveWith, Statute.resolveWith]
    cases c.problem? with
    | some p => exact (Acts.lift _).map _
    | none => exact .pure _
  | temporal span inner opens closes =>
    rw [resolveWith, Statute.resolveWith]
    refine (acts_resolveWith hexpand params inner).bind fun t => (Acts.lift _).bind fun lo => ?_
    exact (Acts.lift _).bind fun hi => (Acts.lift _).map _
  | array span inner => exact (acts_resolveWith hexpand params inner).map _
  | positive span inner | nonEmpty span inner =>
    rw [resolveWith, Statute.resolveWith]
    exact (acts_resolveWith hexpand params inner).bind fun t => (Acts.lift _).map _
  | validDate span after before =>
    rw [resolveWith, Statute.resolveWith]
    exact (Acts.lift _).bind fun lo => (Acts.lift _).bind fun hi => (Acts.lift _).map _
  | union span a b =>
    rw [resolveWith, Statute.resolveWith]
    exact (acts_resolveWith hexpand params a).bind fun l =>
      (acts_resolveWith hexpand params b).map _
  | moneyIn span code => exact (Acts.lift _).map _

theorem acts_resolveAllWith
    (hexpand : ∀ name ps target,
      Acts { st with opened := st.opened ++ [name] } (expand ps target) (expand' name ps target))
    (params : List String) (ts : List TypeExpr) :
    Acts st (resolveAllWith expand params ts)
      (Statute.resolveAllWith st.env st.typeParams expand' st.opened params ts) := by
  cases ts with
  | nil => exact .pure _
  | cons t ts =>
    rw [resolveAllWith, Statute.resolveAllWith]
    exact (acts_resolveWith hexpand params t).bind fun u =>
      (acts_resolveAllWith hexpand params ts).map _

end

end Resolve

theorem acts_resolveIn (st : CheckState) (depth : Nat) (params : List String) (t : TypeExpr) :
    Acts st (resolveIn depth params t)
      (Statute.resolveIn st.env st.typeParams depth st.opened params t) := by
  induction depth generalizing st params t with
  | zero => exact acts_resolveWith (fun _ _ _ => .pure _) params t
  | succ depth ih => exact acts_resolveWith (fun name ps target => ih _ ps target) params t

theorem acts_resolve (st : CheckState) (t : TypeExpr) :
    Acts st (resolve t)
      (Statute.resolveIn st.env st.typeParams st.env.size st.opened st.typeParams t) :=
  .read (acts_resolveIn st _ _ t)

/-!
## What is left behind
-/

/-- At most one name has been added to the frame. -/
def AtMostOneMore (f f' : Frame) : Prop := f' = f ∨ ∃ b, f' = b :: f

section Leaves

variable {β γ : Type} {st : CheckState}

/-- In the state `st` the check only adds to the report and comes back to `st`; if no alias is being
expanded it does what `x` does. -/
def Does (st : CheckState) (y : Working β) (x : Checking β) : Prop :=
  ∃ x', OnlyAdds x' ∧ Acts st y x' ∧ (st.opened = [] → x' = x)

/-- In the state `st` the check only adds to the report and goes on in a scope with at most one name
more in the innermost frame; if no alias is being expanded it does what `x` does. -/
def Steps (st : CheckState) (y : Working Unit) (x : Checking Scope) : Prop :=
  ∃ x', OnlyAdds x' ∧ Moves st y x' ∧
    (∀ r, ∃ frame, AtMostOneMore st.scope.inner frame ∧
      (x'.run r).1 = ⟨frame, st.scope.outer⟩) ∧
    (st.opened = [] → x' = x)

/-- In the state `st` the check only adds to the report and changes nothing but the innermost frame;
if no alias is being expanded it does what `x` does. -/
structure StaysInside (st : CheckState) (y : Working β) (x : Checking β) : Prop where
  onlyAdds : OnlyAdds (y.run st)
  leaves : ∀ r, ∃ frame, ((y.run st).run r).1.2 = { st with scope := ⟨frame, st.scope.outer⟩ }
  shows : st.opened = [] → Shows st y x

namespace Does

theorem pure (b : β) : Does st (pure b) (pure b) := ⟨_, .pure b, .pure b, fun _ => rfl⟩

theorem lift {x : Checking β} (hx : OnlyAdds x) : Does st (liftM x) x :=
  ⟨x, hx, .lift x, fun _ => rfl⟩

theorem bind {y x} {f : β → Working γ} {g : β → Checking γ} (hy : Does st y x)
    (hf : ∀ b, Does st (f b) (g b)) : Does st (y >>= f) (x >>= g) := by
  obtain ⟨x', hadds, hacts, heq⟩ := hy
  choose g' hadds' hacts' heq' using hf
  refine ⟨x' >>= g', hadds.bind hadds', hacts.bind hacts', fun hst => ?_⟩
  rw [heq hst, funext fun b => heq' b hst]

theorem map {y x} (hy : Does st y x) (f : β → γ) :
    Does st (y >>= fun b => Pure.pure (f b)) (x >>= fun b => Pure.pure (f b)) :=
  hy.bind fun b => .pure (f b)

theorem read (hf : Does st (f st) x) : Does st (get >>= f) x :=
  hf

theorem inContext (o : CheckOptions) {x : Context → Checking β} (hx : ∀ cx, OnlyAdds (x cx)) :
    Does st (inContext o x) (x ⟨st.env, o, st.typeParams⟩) :=
  ⟨_, hx _, .inContext o x, fun _ => rfl⟩

theorem steps {y x} (hy : Does st y x) : Steps st y (x >>= fun _ => Pure.pure st.scope) := by
  obtain ⟨x', hadds, hacts, heq⟩ := hy
  refine ⟨_, hadds.map _, hacts.moves, fun _ => ⟨st.scope.inner, .inl rfl, rfl⟩, fun hst => ?_⟩
  rw [heq hst]

theorem bind_steps {y x} {f : β → Working Unit} {g : β → Checking Scope} (hy : Does st y x)
    (hf : ∀ b, Steps st (f b) (g b)) : Steps st (y >>= f) (x >>= g) := by
  obtain ⟨x', hadds, hacts, heq⟩ := hy
  choose g' hadds' hmoves hnear heq' using hf
  refine ⟨x' >>= g', hadds.bind hadds', hacts.bind_moves hmoves, fun r => ?_, fun hst => ?_⟩
  · exact hnear (x'.run r).1 (x'.run r).2
  · rw [heq hst, funext fun b => heq' b hst]

theorem staysInside (hy : Does st y x) : StaysInside st y x := by
  obtain ⟨x', hadds, hacts, heq⟩ := hy
  refine ⟨?_, fun r => ⟨st.scope.inner, ?_⟩, fun hst => heq hst ▸ hacts.shows⟩
  · rw [hacts]
    exact hadds.map _
  · rw [hacts]
    rfl

end Does

/-- The second check starts in the scope that the first one goes on in. -/
theorem Steps.bind_staysInside {y x} {f : Unit → Working β} {g : Scope → Checking β}
    (hy : Steps st y x) (hf : ∀ scope, StaysInside { st with scope } (f ()) (g scope)) :
    StaysInside st (y >>= f) (x >>= g) := by
  obtain ⟨x', hadds, hmoves, hnear, heq⟩ := hy
  have hrun : (y >>= f).run st = x' >>= fun scope => (f ()).run { st with scope } := by
    rw [run_bind, hmoves, bind_assoc]
    rfl
  refine ⟨?_, fun r => ?_, fun hst => ?_⟩
  · rw [hrun]
    exact hadds.bind fun scope => (hf scope).onlyAdds
  · obtain ⟨frame, -, hscope⟩ := hnear r
    obtain ⟨frame', hleft⟩ := (hf (x'.run r).1).leaves (x'.run r).2
    refine ⟨frame', ?_⟩
    rw [hrun]
    refine hleft.trans ?_
    rw [hscope]
  · unfold Shows
    rw [hrun, bind_assoc, heq hst]
    congr 1
    funext scope
    exact (hf scope).shows hst

/-- The frame is put on before and taken off after, with whatever was done to it. -/
theorem StaysInside.framed (hy : StaysInside { st with scope := st.scope.push } y x) :
    Does st (framed y) x := by
  refine ⟨_, hy.onlyAdds.map Prod.fst, ?_, hy.shows⟩
  unfold Acts
  rw [run_framed, bind_assoc]
  funext r
  obtain ⟨frame, hleft⟩ := hy.leaves r
  have hback : { ((y.run { st with scope := st.scope.push }).run r).1.2 with
      scope := ((y.run { st with scope := st.scope.push }).run r).1.2.scope.pop } = st := by
    rw [hleft]
    rfl
  exact congrArg (fun st' => ((((y.run _).run r).1.1, st'), ((y.run _).run r).2)) hback

/-- A step into a new scope and what is done there, on a frame of their own. -/
theorem Steps.framed_bind {y x} {z : Unit → Working β} {w : Scope → Checking β} {f : β → Working γ}
    {g : β → Checking γ} (hy : Steps { st with scope := st.scope.push } y x)
    (hz : ∀ scope, Does { st with scope } (z ()) (w scope)) (hf : ∀ b, Does st (f b) (g b)) :
    Does st (framed (y >>= z) >>= f) (x >>= fun scope => w scope >>= g) := by
  have hinside := hy.bind_staysInside fun scope => (hz scope).staysInside
  exact hinside.framed.bind hf

end Leaves

/-!
## Expressions
-/

section Same

variable {o : CheckOptions} (st : CheckState)

/-- With no alias open the type is resolved as `Context.resolve` has it. -/
theorem does_resolve (t : TypeExpr) :
    Does st (resolve t) (Context.resolve ⟨st.env, o, st.typeParams⟩ t) := by
  refine ⟨_, (tame_resolveIn _ _ _ t).onlyAdds, acts_resolve st t, fun hst => ?_⟩
  rw [hst]
  rfl

theorem run_define (b : Bound) : (define b).run st =
    pure ((st.scope.define b).2, { st with scope := (st.scope.define b).1 }) :=
  rfl

theorem atMostOneMore_define (scope : Scope) (b : Bound) : ∃ frame,
    AtMostOneMore scope.inner frame ∧ (scope.define b).1 = ⟨frame, scope.outer⟩ := by
  unfold Scope.define
  split
  · exact ⟨_, .inl rfl, rfl⟩
  · exact ⟨_, .inr ⟨b, rfl⟩, rfl⟩

theorem moves_bindName (name : Ident) (type : Ty) (kind : BindingKind) :
    Moves st (bindName o name type kind)
      (Statute.bindName ⟨st.env, o, st.typeParams⟩ st.scope name type kind) := by
  unfold Moves bindName Statute.bindName
  rw [run_bind, run_define, pure_bind]
  cases st.scope.define ⟨name.name, type, name.span, kind⟩ with
  | mk next d =>
    cases d with
    | fresh | duplicate span => rfl
    | shadows span =>
      dsimp only
      split <;> rfl

theorem steps_bindName (name : Ident) (type : Ty) (kind : BindingKind) :
    Steps st (bindName o name type kind)
      (Statute.bindName ⟨st.env, o, st.typeParams⟩ st.scope name type kind) := by
  refine ⟨_, onlyAdds_bindName _ _ _ _ _, moves_bindName st name type kind, fun r => ?_,
    fun _ => rfl⟩
  have hdefined := atMostOneMore_define st.scope ⟨name.name, type, name.span, kind⟩
  unfold Statute.bindName
  split
  next heq =>
    rw [heq] at hdefined
    exact hdefined
  next heq =>
    rw [heq] at hdefined
    split <;> exact hdefined
  next heq =>
    rw [heq] at hdefined
    exact hdefined

theorem steps_checkPattern (scrutinee : Ty) (p : Pattern) :
    Steps st (checkPattern o scrutinee p)
      (Statute.checkPattern ⟨st.env, o, st.typeParams⟩ st.scope scrutinee p) := by
  cases p with
  | wildcard span => exact (Does.pure ()).steps
  | literal span v =>
    exact ((Does.lift (tame_literalType v span).onlyAdds).bind fun t => .lift (.faultIf _ _ _)).steps
  | variant span type variant =>
    have hcheck : Does st (inContext o fun cx => do
        let t ← variantType cx.env type variant span
        expectFits cx scrutinee t span) _ :=
      .inContext o fun cx => (tame_variantType _ _ _).onlyAdds.bind fun t => onlyAdds_expectFits _ _ _ _
    exact hcheck.steps
  | binding name => exact steps_bindName st name scrutinee _
  | satisfies span test =>
    have hcheck : Does st (inContext o fun cx => checkTest cx.env test) _ :=
      .inContext o fun cx => (tame_checkTest _).onlyAdds
    exact hcheck.steps

mutual

theorem does_infer (st : CheckState) (want : Option Ty) (e : Expr) :
    Does st (infer o want e) (Statute.infer ⟨st.env, o, st.typeParams⟩ st.scope want e) := by
  cases e with
  | literal span v => exact .lift (tame_literalType v span).onlyAdds
  | name span id =>
    rw [infer, Statute.infer]
    refine .read ?_
    cases st.scope.lookup id.name with
    | some b => exact .pure _
    | none => exact (Does.lift (.fault _ _)).map _
  | variant span type variant => exact .inContext o fun cx => (tame_variantType _ _ _).onlyAdds
  | unary span op e =>
    rw [infer, Statute.infer]
    exact (does_infer st none e).bind fun t => .lift (tame_unaryType op t _).onlyAdds
  | binary span op l r =>
    rw [infer, Statute.infer]
    refine (does_infer st none l).bind fun a => (does_infer st none r).bind fun b => ?_
    exact .lift (tame_binaryType op a b _ _).onlyAdds
  | member span base field =>
    rw [infer, Statute.infer]
    exact (does_infer st none base).bind fun t =>
      .inContext o fun cx => (tame_memberType t _ field).onlyAdds
  | call span callee args =>
    rw [infer, Statute.infer]
    exact (does_inferArgs st args).bind fun tys =>
      .inContext o fun cx => onlyAdds_callType cx callee tys
  | record span type fields =>
    rw [infer, Statute.infer]
    refine .read ?_
    dsimp only
    cases recordShape? st.env type.name with
    | none => exact (Does.lift (.fault _ _)).bind fun _ => (does_inferValues st fields).map _
    | some shape =>
      exact (does_inferFields st shape _ [] fields).bind fun r => (Does.lift (.faults _)).map _
  | select span place e arms =>
    rw [infer, Statute.infer]
    refine (does_infer st none e).bind fun t => (Does.lift (.faults _)).bind fun _ => ?_
    refine (Does.lift (.faults _)).bind fun _ => (does_inferArms st want t arms).bind fun tys => ?_
    exact .inContext o fun cx => onlyAdds_joinArms cx _ tys
  | satisfies span e test =>
    rw [infer, Statute.infer]
    exact (does_infer st none e).bind fun _ =>
      (Does.inContext o fun cx => (tame_checkTest test).onlyAdds).map _
  | quantified span q var type body =>
    rw [infer, Statute.infer]
    refine (does_resolve st type).bind fun bound => ?_
    exact (steps_bindName { st with scope := st.scope.push } var bound _).framed_bind
      (fun scope => does_infer { st with scope } none body)
      fun t => (Does.lift (.faultIf _ _ _)).map _

theorem does_inferArgs (st : CheckState) (es : List Expr) :
    Does st (inferArgs o es) (Statute.inferArgs ⟨st.env, o, st.typeParams⟩ st.scope es) := by
  cases es with
  | nil => exact .pure _
  | cons e es =>
    rw [inferArgs, Statute.inferArgs]
    exact (does_infer st none e).bind fun t => (does_inferArgs st es).map _

theorem does_inferValues (st : CheckState) (fields : List (Ident × Expr)) :
    Does st (inferValues o fields)
      (Statute.inferValues ⟨st.env, o, st.typeParams⟩ st.scope fields) := by
  cases fields with
  | nil => exact .pure _
  | cons f fs =>
    obtain ⟨name, e⟩ := f
    rw [inferValues, Statute.inferValues]
    exact (does_infer st none e).bind fun _ => does_inferValues st fs

theorem does_inferFields (st : CheckState) (s : RecordShape) (b : Binding) (given : List String)
    (fields : List (Ident × Expr)) :
    Does st (inferFields o s b given fields)
      (Statute.inferFields ⟨st.env, o, st.typeParams⟩ st.scope s b given fields) := by
  cases fields with
  | nil => exact .pure _
  | cons f fs =>
    obtain ⟨name, e⟩ := f
    rw [inferFields, Statute.inferFields]
    split
    · exact (Does.lift (.fault _ _)).bind fun _ => does_inferFields st s b given fs
    cases s.field? name.name with
    | none =>
      refine (Does.lift (.fault _ _)).bind fun _ => (does_infer st none e).bind fun _ => ?_
      exact does_inferFields st s b _ fs
    | some f =>
      refine (does_infer st _ e).bind fun got => ?_
      refine (Does.inContext o fun cx => onlyAdds_fieldBinding cx s b _ got _).bind fun b' => ?_
      refine (Does.lift (.faults _)).bind fun _ => (Does.lift (.faults _)).bind fun _ => ?_
      exact does_inferFields st s b' _ fs

theorem does_inferArms (st : CheckState) (want : Option Ty) (scrutinee : Ty)
    (arms : List (Arm Expr Expr)) :
    Does st (inferArms o want scrutinee arms)
      (Statute.inferArms ⟨st.env, o, st.typeParams⟩ st.scope want scrutinee arms) := by
  match arms with
  | [] => exact .pure _
  | ⟨_, p, none, body⟩ :: arms =>
    rw [inferArms, Statute.inferArms]
    exact (steps_checkPattern { st with scope := st.scope.push } scrutinee p).framed_bind
      (fun scope => does_infer { st with scope } want body)
      fun t => (does_inferArms st want scrutinee arms).map _
  | ⟨_, p, some g, body⟩ :: arms =>
    rw [inferArms, Statute.inferArms]
    exact (steps_checkPattern { st with scope := st.scope.push } scrutinee p).framed_bind
      (fun scope => (does_infer { st with scope } none g).bind fun c =>
        (Does.lift (.faultIf _ _ _)).bind fun _ => does_infer { st with scope } want body)
      fun t => (does_inferArms st want scrutinee arms).map _

end

/-!
## Statements
-/

theorem does_expectBool (site : ConditionSite) (e : Expr) :
    Does st (expectBool o site e)
      (Statute.expectBool ⟨st.env, o, st.typeParams⟩ st.scope site e) :=
  (does_infer st none e).bind fun _ => .lift (.faultIf _ _ _)

theorem does_expectValue (declared : Ty) (e : Expr) :
    Does st (expectValue o declared e)
      (Statute.expectValue ⟨st.env, o, st.typeParams⟩ st.scope declared e) :=
  (does_infer st _ e).bind fun got =>
    (Does.inContext o fun cx => onlyAdds_expectFits cx _ got _).bind fun _ => .lift (.faults _)

theorem steps_checkDeclaration (d : Declaration) :
    Steps st (checkDeclaration o d)
      (Statute.checkDeclaration ⟨st.env, o, st.typeParams⟩ st.scope d) := by
  refine (does_resolve st d.type).bind_steps fun declared => ?_
  exact (does_expectValue st declared d.value).bind_steps fun _ =>
    steps_bindName st d.name declared _

theorem does_checkAssign (target : Ident) (value : Expr) :
    Does st (checkAssign o target value)
      (Statute.checkAssign ⟨st.env, o, st.typeParams⟩ st.scope target value) := by
  unfold checkAssign Statute.checkAssign
  refine .read ?_
  cases st.scope.lookup target.name with
  | none => exact (Does.lift (.fault _ _)).bind fun _ => (does_infer st none value).map _
  | some b => exact does_expectValue st b.type value

mutual

theorem steps_checkStmt (st : CheckState) (result : Ty) (s : Stmt) :
    Steps st (checkStmt o result s)
      (Statute.checkStmt ⟨st.env, o, st.typeParams⟩ result st.scope s) := by
  cases s with
  | declare d => exact steps_checkDeclaration st d
  | assign span target value => exact (does_checkAssign st target value).steps
  | ret span value => exact (does_expectValue st result value).steps
  | branch span cond yes no =>
    have hyes := (staysInside_checkStmts { st with scope := st.scope.push } result yes).framed
    cases no with
    | none =>
      rw [checkStmt, Statute.checkStmt]
      exact (does_expectBool st _ cond).bind_steps fun _ =>
        hyes.bind_steps fun _ => (Does.pure ()).steps
    | some b =>
      have hno := (staysInside_checkStmts { st with scope := st.scope.push } result b).framed
      rw [checkStmt, Statute.checkStmt]
      exact (does_expectBool st _ cond).bind_steps fun _ => hyes.bind_steps fun _ => hno.steps
  | select span e arms =>
    rw [checkStmt, Statute.checkStmt]
    refine (does_infer st none e).bind_steps fun t => ?_
    refine (Does.lift (.faults _)).bind_steps fun _ => ?_
    exact (Does.lift (.faults _)).bind_steps fun _ => (does_checkArms st result t arms).steps
  | eval e => exact ((does_infer st none e).map _).steps
  | pass span => exact (Does.pure ()).steps

theorem staysInside_checkStmts (st : CheckState) (result : Ty) (stmts : List Stmt) :
    StaysInside st (checkStmts o result stmts)
      (Statute.checkStmts ⟨st.env, o, st.typeParams⟩ result st.scope stmts) := by
  cases stmts with
  | nil => exact (Does.pure ()).staysInside
  | cons s rest =>
    rw [checkStmts, Statute.checkStmts]
    exact (steps_checkStmt st result s).bind_staysInside fun scope =>
      staysInside_checkStmts { st with scope } result rest

theorem does_checkArms (st : CheckState) (result : Ty) (scrutinee : Ty)
    (arms : List (Arm Expr (List Stmt))) :
    Does st (checkArms o result scrutinee arms)
      (Statute.checkArms ⟨st.env, o, st.typeParams⟩ result st.scope scrutinee arms) := by
  match arms with
  | [] => exact .pure ()
  | ⟨_, p, g, body⟩ :: arms =>
    have hpattern := steps_checkPattern (o := o) { st with scope := st.scope.push } scrutinee p
    have hbody (scope : Scope) : Does { st with scope } (framed (checkStmts o result body)) _ :=
      (staysInside_checkStmts { st with scope := scope.push } result body).framed
    have hrest := does_checkArms st result scrutinee arms
    rw [checkArms, Statute.checkArms]
    cases g with
    | none => exact hpattern.framed_bind hbody fun _ => hrest
    | some g =>
      exact hpattern.framed_bind
        (fun scope => (does_expectBool { st with scope } _ g).bind fun _ => hbody scope)
        fun _ => hrest

end

end Same

end Working

/-- The scope that a statement hands on differs from its own by at most one name of the innermost
frame. -/
theorem scope_of_checkStmt (cx : Context) (result : Ty) (scope : Scope) (s : Stmt) (r : Report) :
    ∃ frame, Working.AtMostOneMore scope.inner frame ∧
      ((checkStmt cx result scope s).run r).1 = ⟨frame, scope.outer⟩ := by
  obtain ⟨x', -, -, hnear, heq⟩ :=
    Working.steps_checkStmt ⟨cx.env, scope, cx.typeParams, []⟩ (o := cx.options) result s
  obtain rfl := heq rfl
  exact hnear r

/-- Checking an expression has no lasting effect but on the report, which only grows, and checking a
statement adds at most one name to the innermost frame. So it is with the checker that works on one
state, in every state; and in those where no alias is being expanded it does what `infer` and
`checkStmt` do. -/
theorem checking_restores_state (o : CheckOptions) :
    (∀ (want : Option Ty) (e : Expr) (st : CheckState) (r : Report),
      ∃ t r', ((Working.infer o want e).run st).run r = ((t, st), r') ∧ r.Le r') ∧
    (∀ (result : Ty) (s : Stmt) (st : CheckState) (r : Report),
      ∃ frame r', ((Working.checkStmt o result s).run st).run r =
          (((), { st with scope := ⟨frame, st.scope.outer⟩ }), r') ∧
        Working.AtMostOneMore st.scope.inner frame ∧ r.Le r') ∧
    ∀ (env : Env) (ps : List String) (scope : Scope),
      (∀ (want : Option Ty) (e : Expr),
        Working.Acts ⟨env, scope, ps, []⟩ (Working.infer o want e)
            (infer ⟨env, o, ps⟩ scope want e) ∧
          ∀ r : Report, r.Le ((infer ⟨env, o, ps⟩ scope want e).run r).2) ∧
      ∀ (result : Ty) (s : Stmt),
        Working.Moves ⟨env, scope, ps, []⟩ (Working.checkStmt o result s)
            (checkStmt ⟨env, o, ps⟩ result scope s) ∧
          ∀ r : Report, ∃ frame r', (checkStmt ⟨env, o, ps⟩ result scope s).run r =
              (⟨frame, scope.outer⟩, r') ∧
            Working.AtMostOneMore scope.inner frame ∧ r.Le r' := by
  refine ⟨fun want e st r => ?_, fun result s st r => ?_, fun env ps scope =>
    ⟨fun want e => ⟨?_, ?_⟩, fun result s => ⟨?_, fun r => ?_⟩⟩⟩
  · obtain ⟨x', hadds, hacts, -⟩ := Working.does_infer (o := o) st want e
    rw [hacts]
    exact ⟨_, _, rfl, hadds.grows r⟩
  · obtain ⟨x', hadds, hmoves, hnear, -⟩ := Working.steps_checkStmt (o := o) st result s
    obtain ⟨frame, hframe, hscope⟩ := hnear r
    refine ⟨frame, (x'.run r).2, ?_, hframe, hadds.grows r⟩
    rw [hmoves, ← hscope]
    rfl
  · obtain ⟨x', -, hacts, heq⟩ := Working.does_infer (o := o) ⟨env, scope, ps, []⟩ want e
    exact heq rfl ▸ hacts
  · exact (onlyAdds_infer want e).grows
  · obtain ⟨x', -, hmoves, -, heq⟩ :=
      Working.steps_checkStmt (o := o) ⟨env, scope, ps, []⟩ result s
    exact heq rfl ▸ hmoves
  · obtain ⟨frame, hframe, hscope⟩ := scope_of_checkStmt ⟨env, o, ps⟩ result scope s r
    have hgrows := (onlyAdds_checkStmt ⟨env, o, ps⟩ result scope s).grows r
    exact ⟨frame, _, Prod.ext hscope rfl, hframe, hgrows⟩

end Statute
