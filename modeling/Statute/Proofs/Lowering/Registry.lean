import Statute.Proofs.Lowering.Course
import Statute.Proofs.Lowering.Sorts

/-!
# What free sorts stand for

The draft registers the struct type that each free sort stands for, and forgets none: what is
registered stays, `Draft.Extends`, and comes from a struct type that occurs in the program,
`Draft.Registers`. Lowering keeps to that whatever it is asked to lower, `steady_lowerIn`, even
where it meets an obstacle. That matters where the value of a declared name cannot be lowered: the
obstacle is forgotten then, but not what was registered on the way.
-/

namespace Statute

open Logic

variable {ty : Ty} {s : SmtSort} {T : String → List Ty → Prop} {E : ObstacleKind → Prop}

namespace Draft

/-- Free sorts bear the names of the struct types they stand for, and these may occur. -/
def Registers (T : String → List Ty → Prop) (d : Draft) : Prop :=
  ∀ e ∈ d.structs, e.1 = structSortName (.struct e.2.1 e.2.2) ∧ T e.2.1 e.2.2

/-- The sort is that of the type, and is registered if the type is a struct type. -/
def Sorted (T : String → List Ty → Prop) (d : Draft) (ty : Ty) (s : SmtSort) : Prop :=
  ty.coreSort? = some s ∧ ∀ n args, ty.core = .struct n args →
    T n args ∧ (d.structs.lookup (structSortName (.struct n args))).isSome = true

variable {T : String → List Ty → Prop} {d d' : Draft}

theorem Sorted.mono (h : d.Sorted T ty s) (hle : d.Extends d') : d'.Sorted T ty s := by
  refine ⟨h.1, fun n args hcore => ?_⟩
  obtain ⟨hT, hfound⟩ := h.2 n args hcore
  obtain ⟨later, hlater⟩ := hle
  refine ⟨hT, ?_⟩
  rw [← hlater, List.lookup_append]
  simp [hfound]

/-- Other types than struct types are not registered. -/
theorem Sorted.of_ne (hs : ty.coreSort? = some s) (hne : ∀ n args, ty.core ≠ .struct n args) :
    d.Sorted T ty s :=
  ⟨hs, fun n args hcore => absurd hcore (hne n args)⟩

theorem Sorted.of_prim {p : Prim} (hs : p.coreSort? = some s) : d.Sorted T (.prim p) s :=
  .of_ne hs (by simp [Ty.core])

theorem Sorted.core (h : d.Sorted T ty s) : d.Sorted T ty.core s := by
  refine ⟨(Ty.coreSort?_core ty).trans h.1, fun n args hcore => h.2 n args ?_⟩
  rw [← hcore, Ty.core_core]

end Draft

open Draft (Registers)

section Sorts

variable {env : Env} {T : String → List Ty → Prop} {E : ObstacleKind → Prop} {d : Draft}

theorem Draft.registers_declareSort (hadmits : ∀ n args, ty.core = .struct n args → T n args)
    (hd : d.Registers T) : (d.declareSort env ty).Registers T := by
  intro e he
  rcases (d.addsSort_declareSort env ty).structs e he with he | ⟨hname, hcore⟩
  · exact hd e he
  · exact ⟨hname, hadmits _ _ hcore⟩

theorem Draft.sorted_declareSort {limits : Limits}
    (hadmits : ∀ n args, ty.core = .struct n args → T n args)
    (hs : ty.encoding? = some (s, limits)) : (d.declareSort env ty).Sorted T ty s := by
  refine ⟨Ty.coreSort?_of_encoding? hs, fun n args hcore => ⟨hadmits n args hcore, ?_⟩⟩
  exact (d.addsSort_declareSort env ty).noted n args hcore

theorem ends_addFunction {f : FunDecl} (hd : d.Registers T) :
    Ends (Registers T) E (Lowering.addFunction f) d fun _ _ => True :=
  .modify hd (List.prefix_refl _) trivial

theorem ends_warnHidden {cx locals q x} (hd : d.Registers T) :
    Ends (Registers T) E (warnHidden cx locals q x) d fun _ _ => True := by
  unfold warnHidden
  split
  · exact .modify hd (List.prefix_refl _) trivial
  · exact .pure hd trivial

theorem ends_fresh {name : String} (hd : d.Registers T) :
    Ends (Registers T) E (Lowering.fresh name) d fun _ _ => True :=
  .of_ok rfl hd (List.prefix_refl _) trivial

theorem ends_enumSort {n : String} (hd : d.Registers T) :
    Ends (Registers T) E (enumSort env n) d fun s _ => s = .enum n :=
  .of_ok (run_enumSort env n d) (Draft.registers_declareSort (fun _ _ hcore => nomatch hcore) hd)
    (d.addsSort_declareSort _ _).extended rfl

/-- The sort of a type, unless the logic has none for it. -/
theorem ends_sortOf {span : Span} (hE : ∀ what, E (.unsupported what))
    (hadmits : ∀ n args, ty.core = .struct n args → T n args) (hd : d.Registers T) :
    Ends (Registers T) E (sortOf env span ty) d fun r d' => d'.Sorted T ty r.1 := by
  refine (Run.sortOf hE hd (Draft.registers_declareSort hadmits hd)
    (d.addsSort_declareSort _ _).extended).mono ?_
  rintro r d' - ⟨hr, rfl⟩
  exact Draft.sorted_declareSort hadmits hr

end Sorts

/-!
## Whatever is lowered
-/

/-- The step keeps the register in order, from wherever it starts. -/
def Steady (T : String → List Ty → Prop) {β : Type} (x : Lowering β) : Prop :=
  ∀ d : Draft, d.Registers T → Ends (Registers T) (fun _ => True) x d fun _ _ => True

variable {cx : LoweringContext}

/-- With any room for the values to be opened, lowering keeps the register in order. -/
theorem steady_lowerIn (hclosed : Closes cx T)
    (hvalues : ∀ l ∈ cx.values, l.value.Admitted (cx.setting T {})) (pending : Nat) {e : Expr}
    (hadmitted : e.Admitted (cx.setting T {})) : Steady T (lowerIn cx pending [] 0 e) := by
  -- all but the struct types is left open
  let A : Allowance := ⟨fun _ => True, T, fun _ => True, fun _ => True, fun _ => True⟩
  have hallowed {e : Expr} (he : e.Admitted (cx.setting T {})) :
      e.Everywhere (Expr.AllowedHere cx.env A) := by
    refine he.imp fun e he => ?_
    cases e with
    | member span base field =>
      exact fun n args ty hT hty => ⟨hclosed.fields n args field.name ty hT hty, fun _ => trivial⟩
    | call span callee args =>
      exact fun sig hsig htypes => ⟨hclosed.results _ sig hsig htypes,
        hclosed.params _ sig hsig htypes, fun _ _ _ _ => trivial⟩
    | quantified => exact he
    | select => exact fun _ _ _ _ _ _ => trivial
    | satisfies => exact fun _ => trivial
    | _ => trivial
  have hsuffices : A.Suffices cx :=
    ⟨fun _ _ _ _ => trivial, fun l hl _ => hclosed.values l (List.mem_of_find?_eq_some hl),
      fun l hl _ => ⟨hallowed (hvalues l (List.mem_of_find?_eq_some hl)), fun _ _ => trivial⟩,
      fun _ _ _ _ _ _ _ _ _ _ _ => trivial⟩
  have hcourse := course_lowerIn hsuffices (n := pending) (hallowed hadmitted)
    fun _ _ => trivial
  intro d hd
  obtain ⟨hwithin, hle, -⟩ := hcourse d ⟨fun _ _ => .inl trivial, hd, fun _ _ => trivial,
    fun _ _ => trivial, fun _ _ => trivial⟩
  exact ⟨hwithin.structs, hle, fun _ _ => trivial, fun _ _ => trivial⟩

/-- A declared value becomes a constant of the sort of its type, whatever becomes of its value. -/
theorem ends_lowerValue (hclosed : Closes cx T) {lowerBody : Expr → Lowering Lowered}
    {l : Declaration} {d : Draft} (hbody : Steady T (lowerBody l.value)) (hl : l ∈ cx.values)
    (hE : ∀ what, E (.unsupported what))
    (htype : ∀ o, typeOf cx.env l.type = .error o → E o.fault.kind) (hd : d.Registers T) :
    Ends (Registers T) E (lowerValue cx lowerBody l) d fun r d' =>
      ∃ ty, typeOf cx.env l.type = .ok ty ∧ d'.Sorted T ty r.2 := by
  have hadmits {ty : Ty} (hty : typeOf cx.env l.type = .ok ty) :
      ∀ n args, ty.core = .struct n args → T n args :=
    hclosed.values l hl ty (stands_of_typeOf hty)
  have hsorted {ty : Ty} {s : SmtSort} {limits : Limits} {d' : Draft}
      (hty : typeOf cx.env l.type = .ok ty) (hs : ty.encoding? = some (s, limits))
      (hle : (d.declareSort cx.env ty).Extends d') : d'.Sorted T ty s :=
    (Draft.sorted_declareSort (hadmits hty) hs).mono hle
  have hcases := introduces_lowerValue cx lowerBody l d
  generalize hrun : (lowerValue cx lowerBody l).run.run d = outcome at hcases
  cases hcases with
  | untyped ho => exact .of_error hrun hd (List.prefix_refl _) (htype _ ho)
  | unsorted ho => exact .of_error hrun hd (List.prefix_refl _) (ho ▸ hE _)
  | @known ty s limits hty hs =>
    exact .of_ok hrun (Draft.registers_declareSort (hadmits hty) hd)
      (d.addsSort_declareSort cx.env ty).extended ⟨ty, hty, hsorted hty hs (List.prefix_refl _)⟩
  | @new ty s limits c hty hs hnew hc =>
    subst hc
    -- whatever becomes of the value, the constant is there
    obtain ⟨hd', hle, -⟩ := hbody ((d.declareSort cx.env ty).declare _)
      (Draft.registers_declareSort (hadmits hty) hd)
    exact .of_ok hrun hd' ((d.addsSort_declareSort cx.env ty).extended.trans hle)
      ⟨ty, hty, hsorted hty hs hle⟩

theorem ends_calledFunction {env : Env} {d : Draft} {callee : Ident} {n : Nat}
    (hE : ∀ what, E (.unsupported what))
    (hunknown : env.function? callee.name = none → E (.unboundVariable callee.name))
    (hd : d.Registers T) :
    Ends (Registers T) E (calledFunction env callee n) d fun f _ =>
      env.function? callee.name = some f ∧ f.typeParams = [] ∧ f.params.length = n := by
  refine (decides_calledFunction.run hd fun k _ hk => ?_).mono fun _ _ _ hf => hf.1
  rcases hk with ⟨hnone, rfl⟩ | ⟨what, rfl⟩
  · exact hunknown hnone
  · exact hE what

end Statute
