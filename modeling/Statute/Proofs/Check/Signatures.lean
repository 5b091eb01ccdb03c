import Statute.Proofs.Check.Outline
import Statute.Proofs.Check.Rounds

/-!
# Legal tests and functions

Legal tests and functions are collected when the types are known. What this can do to the
declarations is said by `Env.Signs`: each is added as it is declared, under a new name, or not at
all. Where it goes through, `Item.Signed` says what is known of each item. The definitions of types
stay as they are, so that all items are resolved alike.
-/

namespace Statute

open Checking List

variable {env env' : Env} {items : List Item}

theorem Returns.value {β : Type} {x : Checking β} {P : β → Prop} (h : Returns x P) : P x.value :=
  h {}

theorem Settles.returns {β : Type} {x : Checking β} {P Q : β → Prop} (h : Settles x P Q) :
    Returns x P := by
  intro r
  rw [h.onlyAdds.run_eq_value r]
  exact h.always

section Each

variable {α β : Type} {params : List String} {type : α → TypeExpr} {make : α → Ty → β}

/-- Types are resolved one by one, and each goes through if all do. -/
theorem settles_resolveEach (as : List α) : Settles (resolveEach env params type make as)
    (fun bs => bs = as.map fun a => make a (resolve env [] params (type a)).value)
    fun _ => ∀ a ∈ as, GoesThrough (resolve env [] params (type a)) := by
  induction as with
  | nil => exact .pure rfl (by simp)
  | cons a as ih =>
    refine (tame_resolveIn _ _ _ _).onlyAdds.through.bind fun t ht => ih.bind fun bs hbs => ?_
    subst ht hbs
    exact .pure rfl fun hrest hfirst => forall_mem_cons.mpr ⟨hfirst, hrest⟩

end Each

/-- The legal test with the types of its requirements. -/
def TestDecl.testIn (d : TestDecl) (env : Env) : LegalTest :=
  ⟨d.name.name, d.span,
    d.requirements.map fun r => ⟨r.name.name, (resolve env [] [] r.type).value, r.span⟩⟩

/-- The signature of the function. -/
def FunctionDecl.signatureIn (d : FunctionDecl) (env : Env) : Signature :=
  ⟨d.name.name, d.span, d.typeParams.map (·.name),
    d.params.map fun p => (p.name.name, (resolve env [] (d.typeParams.map (·.name)) p.type).value),
    (resolve env [] (d.typeParams.map (·.name)) d.result).value⟩

theorem TestDecl.testIn_congr (d : TestDecl) (h : env.outline = env'.outline) :
    d.testIn env = d.testIn env' := by
  unfold testIn
  simp only [resolve_congr h]

theorem FunctionDecl.signatureIn_congr (d : FunctionDecl) (h : env.outline = env'.outline) :
    d.signatureIn env = d.signatureIn env' := by
  unfold signatureIn
  simp only [resolve_congr h]

/-- The types of the item go through, what is wrong with a legal test is nothing, and a function is
found under its name in the end. -/
def Item.Signed (env env' : Env) : Item → Prop
  | .test d => (d.testIn env).faults = [] ∧
      ∀ r ∈ d.requirements, GoesThrough (resolve env [] [] r.type)
  | .function d => env'.function? d.name.name = some (d.signatureIn env) ∧
      (∀ r ∈ d.params, GoesThrough (resolve env [] (d.typeParams.map (·.name)) r.type)) ∧
      GoesThrough (resolve env [] (d.typeParams.map (·.name)) d.result)
  | .synonym d =>
      GoesThrough (resolveIn env [] env.size [d.name.name] (d.params.map (·.name)) d.target)
  | _ => True

theorem Item.signed_congr {env₁ : Env} (h : env.outline = env₁.outline) (i : Item) :
    i.Signed env env' ↔ i.Signed env₁ env' := by
  cases i <;> simp only [Signed, TestDecl.testIn_congr _ h, FunctionDecl.signatureIn_congr _ h,
    resolve_congr h, resolveIn_congr h, Env.size_congr h]

/-!
## What is added
-/

/-- What collecting the legal tests and functions of items can do. -/
inductive Env.Signs : Env → List Item → Env → Prop where
  | nil {env : Env} : env.Signs [] env
  | skip {env env' : Env} {i : Item} {items : List Item} (h : env.Signs items env') :
      env.Signs (i :: items) env'
  | test {env env' : Env} {d : TestDecl} {items : List Item}
      (hnew : ∀ u ∈ env.tests, u.name ≠ d.name.name)
      (h : Signs { env with tests := env.tests ++ [d.testIn env] } items env') :
      env.Signs (.test d :: items) env'
  | function {env env' : Env} {d : FunctionDecl} {items : List Item}
      (hnew : ∀ f ∈ env.functions, f.name ≠ d.name.name)
      (h : Signs { env with functions := env.functions ++ [d.signatureIn env] } items env') :
      env.Signs (.function d :: items) env'

namespace Env.Signs

/-- The definitions of types stay as they are. -/
theorem defs (h : env.Signs items env') : env'.defs = env.defs := by
  induction h with
  | nil => rfl
  | skip _ ih | test _ _ ih | function _ _ ih => exact ih

theorem outline (h : env.Signs items env') : env'.outline = env.outline := by
  unfold Env.outline
  rw [h.defs]

/-- A function that is found is found later, too. -/
theorem function? (h : env.Signs items env') {name f} (hf : env.function? name = some f) :
    env'.function? name = some f := by
  induction h with
  | nil => exact hf
  | skip _ ih | test _ _ ih => exact ih hf
  | function _ _ ih =>
    refine ih ?_
    unfold Env.function? at hf ⊢
    rw [find?_append, hf]
    rfl

theorem tests (h : env.Signs items env') {t : LegalTest} (ht : t ∈ env'.tests) :
    t ∈ env.tests ∨ ∃ d, Item.test d ∈ items ∧ t = d.testIn env := by
  induction h with
  | nil => exact .inl ht
  | skip _ ih | function _ _ ih =>
    refine (ih ht).imp id fun ⟨d, hd, heq⟩ => ⟨d, mem_cons_of_mem _ hd, ?_⟩
    exact heq.trans (d.testIn_congr rfl)
  | @test env env' d items _ _ ih =>
    rcases ih ht with ht | ⟨d', hd, rfl⟩
    · grind
    · exact .inr ⟨d', mem_cons_of_mem _ hd, d'.testIn_congr rfl⟩

theorem functions (h : env.Signs items env') {f : Signature} (hf : f ∈ env'.functions) :
    f ∈ env.functions ∨ ∃ d, Item.function d ∈ items ∧ f = d.signatureIn env := by
  induction h with
  | nil => exact .inl hf
  | skip _ ih | test _ _ ih =>
    refine (ih hf).imp id fun ⟨d, hd, heq⟩ => ⟨d, mem_cons_of_mem _ hd, ?_⟩
    exact heq.trans (d.signatureIn_congr rfl)
  | @function env env' d items _ _ ih =>
    rcases ih hf with hf | ⟨d', hd, rfl⟩
    · grind
    · exact .inr ⟨d', mem_cons_of_mem _ hd, d'.signatureIn_congr rfl⟩

end Env.Signs

/-!
## Collecting
-/

theorem settles_collectTest (env : Env) (d : TestDecl) : Settles (collectTest env d)
    (fun e => e = env ∨ (∀ u ∈ env.tests, u.name ≠ d.name.name) ∧
      e = { env with tests := env.tests ++ [d.testIn env] })
    fun e => (Item.test d).Signed env e := by
  rw [collectTest, resolveRequirements_eq]
  refine (settles_resolveEach _).bind fun reqs hreqs => ?_
  subst hreqs
  refine (Passes.faults _).settles.bind fun _ _ => ?_
  split
  next e h => exact .pure (.inr (Env.of_addTest h)) fun hfaults htypes => ⟨hfaults, htypes⟩
  · exact .fault (.inl rfl)

theorem settles_collectFunction (env : Env) (d : FunctionDecl) : Settles (collectFunction env d)
    (fun e => e = env ∨ (∀ f ∈ env.functions, f.name ≠ d.name.name) ∧
      e = { env with functions := env.functions ++ [d.signatureIn env] })
    fun e => (Item.function d).Signed env e := by
  simp only [collectFunction, resolveParams_eq]
  refine (settles_resolveEach _).bind fun params hparams => ?_
  refine (tame_resolveIn _ _ _ _).onlyAdds.through.bind fun result hresult => ?_
  subst hparams hresult
  split
  next e h =>
    obtain ⟨hnew, rfl⟩ := Env.of_addFunction h
    refine .pure (.inr ⟨hnew, rfl⟩) fun hresult hparams => ⟨?_, hparams, hresult⟩
    have hnone : env.function? d.name.name = none := by simpa [Env.function?] using hnew
    unfold Env.function? at hnone ⊢
    rw [find?_append, hnone, Option.none_or, find?_cons_of_pos (by simp)]
    rfl
  · exact .fault (.inl rfl)

/-- What collecting signatures does, and what is known of each item if it goes through. -/
theorem settles_collectSignatures (env : Env) (items : List Item) :
    Settles (collectSignatures env items) (env.Signs items)
      fun env' => ∀ i ∈ items, i.Signed env env' := by
  induction items generalizing env with
  | nil => exact .pure .nil (by simp)
  | cons i items ih =>
    -- what is known of the first item, and of the rest in later declarations
    have hcons {env₁ env' : Env} (h₁ : env₁.defs = env.defs) (hi : i.Signed env env')
        (hrest : ∀ j ∈ items, j.Signed env₁ env') : ∀ j ∈ i :: items, j.Signed env env' :=
      forall_mem_cons.mpr ⟨hi, fun j hj =>
        (j.signed_congr (by unfold Env.outline; rw [h₁])).mp (hrest j hj)⟩
    cases i with
    | test d =>
      refine (settles_collectTest env d).bind fun env₁ h₁ => (ih env₁).mono (fun _ h => ?_) ?_
      · rcases h₁ with rfl | ⟨hnew, rfl⟩
        · exact .skip h
        · exact .test hnew h
      · refine fun _ hrest hfirst => hcons ?_ hfirst hrest
        rcases h₁ with rfl | ⟨-, rfl⟩ <;> rfl
    | function d =>
      refine (settles_collectFunction env d).bind fun env₁ h₁ =>
        (ih env₁).both.mono (fun _ h => ?_) ?_
      · rcases h₁ with rfl | ⟨hnew, rfl⟩
        · exact .skip h
        · exact .function hnew h
      · refine fun _ hrest hfirst => hcons ?_ ⟨hrest.1.function? hfirst.1, hfirst.2⟩ hrest.2
        rcases h₁ with rfl | ⟨-, rfl⟩ <;> rfl
    | synonym d =>
      refine ((tame_resolveIn _ _ _ _).onlyAdds.map _).through.bind fun _ _ =>
        (ih env).mono (fun _ => .skip) fun _ hrest hfirst => hcons rfl ?_ hrest
      exact (hfirst.bind (tame_resolveIn _ _ _ _).onlyAdds (.pure _)).1
    | struct | enum | principle | value | scope =>
      exact (ih env).mono (fun _ => .skip) fun _ hrest => hcons rfl trivial hrest

namespace Program

variable (p : Program)

theorem signs : p.typed.Signs p.leaves p.declared := (settles_collectSignatures _ _).always

theorem defs_declared : p.declared.defs = p.typed.defs := p.signs.defs

end Program

end Statute
