import Statute.Proofs.Check.Declarations
import Statute.Proofs.Check.Typing
import Statute.Proofs.Program.Lets

/-!
# The scopes that principles are checked in

Items are checked one after the other, and a declaration adds its name to the scope that the items
after it are checked in. `Reaches cx scope items p scope'` says that on the way the principle `p` is
checked in `scope'`. What that scope holds are the declarations in force where the principle stands,
the nearest first, `visited_of_check`: so a name is looked up in the innermost scope around the
principle that declares it before.
-/

namespace Statute

open Checking

/-!
## Bodies
-/

section Bodies

variable {cx : Context} {scope : Scope}

theorem onlyAdds_infer (want : Option Ty) (e : Expr) : OnlyAdds (infer cx scope want e) :=
  .of_parallel fun _ h => parallel_infer h scope want e

/-- A value that is accepted has a type that fits. -/
theorem passes_expectValue (declared : Ty) (e : Expr) :
    Passes (expectValue cx scope declared e) fun _ => ∃ t, Typed cx scope (some declared) e t ∧
      fits cx.env declared t ∧ constantFaults declared e = [] := by
  refine (passes_infer cx scope (some declared) e).bind fun t => ?_
  refine (Passes.faultIf _ _ _).bind fun _ => (Passes.faults _).mono fun _ hconstant hfits ht => ?_
  exact ⟨t, ht, by simpa using hfits, hconstant⟩

/-- A declaration adds its name with the type that is written. -/
theorem passes_checkDeclaration (d : Declaration) :
    Passes (checkDeclaration cx scope d) fun next => ∃ t, Gives (cx.resolve d.type) t ∧
      next = scope.add ⟨d.name.name, t, d.name.span, .variable⟩ ∧
      ∀ x ∈ d.value.reads, (scope.lookup x).isSome := by
  refine (onlyAdds_resolve cx d.type).gives.bind fun t => ?_
  refine (passes_expectValue t d.value).bind fun _ => ?_
  refine (passes_bindName d.name t .variable).mono fun next hnext hvalue ht => ?_
  obtain ⟨u, hu, -⟩ := hvalue
  exact ⟨t, ht, hnext, hu.found⟩

theorem onlyAdds_checkStmt (cx : Context) (result : Ty) (scope : Scope) (s : Stmt) :
    OnlyAdds (checkStmt cx result scope s) :=
  .of_parallel fun _ h => parallel_checkStmt h result scope s

theorem onlyAdds_checkStmts (cx : Context) (result : Ty) (scope : Scope) (stmts : List Stmt) :
    OnlyAdds (checkStmts cx result scope stmts) :=
  .of_parallel fun _ h => parallel_checkStmts h result scope stmts

theorem onlyAdds_bindParams (cx : Context) (scope : Scope) (params : List (Ident × Ty)) :
    OnlyAdds (bindParams cx scope params) :=
  .of_parallel fun _ h => parallel_bindParams h scope params

theorem onlyAdds_checkFunction (f : FunctionDecl) : OnlyAdds (checkFunction cx scope f) :=
  .of_parallel fun _ h => parallel_checkFunction h scope f

theorem passes_checkPrinciple (p : Principle) :
    Passes (checkPrinciple cx scope p) fun _ =>
      ∃ t, Typed cx scope.push none p.body t ∧ t.isBool := by
  refine (passes_infer cx scope.push none p.body).bind fun t => ?_
  exact (Passes.faultIf _ _ _).mono fun _ hbool ht => ⟨t, ht, by simpa using hbool⟩

end Bodies

/-!
## Items
-/

/-- In the course of checking the items from a scope, the principle is checked in the other. -/
inductive Reaches (cx : Context) : Scope → List Item → Principle → Scope → Prop where
  | here {scope p items} : Reaches cx scope (.principle p :: items) p scope
  | inside {scope scope' span name inner items p} (h : Reaches cx scope.push inner p scope') :
      Reaches cx scope (.scope span name inner :: items) p scope'
  | later {scope next scope' i items p} (hi : Gives (checkItem cx scope i) next)
      (h : Reaches cx next items p scope') : Reaches cx scope (i :: items) p scope'

/-- The names are those of the declarations, in the same order, with the types that are written. The
value of a declaration reads only names that were there before it. -/
inductive Shows (cx : Context) : List Bound → List Declaration → Prop where
  | nil : Shows cx [] []
  | cons {bounds inForce d t} (h : Shows cx bounds inForce) (ht : Gives (cx.resolve d.type) t)
      (hreads : ∀ x ∈ d.value.reads, (bounds.find? fun b => b.name == x).isSome = true) :
      Shows cx (⟨d.name.name, t, d.name.span, .variable⟩ :: bounds) (d :: inForce)

namespace Shows

variable {cx : Context} {bounds : List Bound} {inForce : List Declaration}

/-- A name that is found stands for its nearest declaration. -/
theorem find? (h : Shows cx bounds inForce) {x : String}
    (hx : (bounds.find? fun b => b.name == x).isSome) :
    ∃ d before t, nearest? inForce x = some (d, before) ∧ Gives (cx.resolve d.type) t ∧
      (bounds.find? fun b => b.name == x) = some ⟨x, t, d.name.span, .variable⟩ := by
  induction h with
  | nil => cases hx
  | @cons bounds inForce d t h ht hreads ih =>
    by_cases hname : d.name.name = x
    · refine ⟨d, inForce, t, if_pos hname, ht, ?_⟩
      simp [hname]
    have hskip : (List.find? (fun b => b.name == x)
        (⟨d.name.name, t, d.name.span, .variable⟩ :: bounds)) =
          bounds.find? fun b => b.name == x := List.find?_cons_of_neg (by simpa using hname)
    rw [hskip] at hx ⊢
    obtain ⟨e, before, u, he, hu, hfound⟩ := ih hx
    exact ⟨e, before, u, (if_neg hname).trans he, hu, hfound⟩

/-- What the value of a declaration in force reads was in force before it. -/
theorem reads (h : Shows cx bounds inForce) {d : Declaration} {before}
    (hd : d :: before <:+ inForce) :
    ∀ x ∈ d.value.reads, ∃ e before', nearest? before x = some (e, before') := by
  induction h with
  | nil => exact absurd (List.suffix_nil.mp hd) (by simp)
  | @cons bounds inForce e t h ht hreads ih =>
    rcases List.suffix_cons_iff.mp hd with heq | hd
    · cases heq
      intro x hx
      obtain ⟨e, before', -, he, -⟩ := h.find? (hreads x hx)
      exact ⟨e, before', he⟩
    · exact ih hd

end Shows

/-- The declarations in force after an item. -/
def Item.after (inForce : List Declaration) : Item → List Declaration
  | .value d => d :: inForce
  | _ => inForce

theorem Item.sitesOf_cons (inForce : List Declaration) (i : Item) (items : List Item) :
    Item.sitesOf inForce (i :: items) =
      i.sites inForce ++ Item.sitesOf (i.after inForce) items := by
  cases i with
  | _ => rfl

/-- The checker comes to the principle of the site, with the declarations in force there in scope,
and finds it to be a statement. -/
def Visited (cx : Context) (scope : Scope) (items : List Item) (s : Site) : Prop :=
  ∃ scope', Reaches cx scope items s.principle scope' ∧ Shows cx scope'.bounds s.inForce ∧
    ∃ t, Typed cx scope'.push none s.principle.body t ∧ t.isBool = true

mutual

theorem passes_checkItem (cx : Context) (scope : Scope) (i : Item) :
    Passes (checkItem cx scope i) fun next => ∀ inForce, Shows cx scope.bounds inForce →
      Shows cx next.bounds (i.after inForce) ∧
        ∀ s ∈ i.sites inForce, ∀ items, Visited cx scope (i :: items) s := by
  cases i with
  | value d =>
    refine (passes_checkDeclaration d).mono fun next hnext inForce hshows => ?_
    obtain ⟨t, ht, rfl, hreads⟩ := hnext
    have hcons : Shows cx (⟨d.name.name, t, d.name.span, .variable⟩ :: scope.bounds)
        (d :: inForce) := by
      refine .cons hshows ht fun x hx => ?_
      rw [← Scope.lookup_eq_find?]
      exact hreads x hx
    exact ⟨hcons, fun s hs => nomatch hs⟩
  | principle p =>
    refine (passes_checkPrinciple p).bind fun _ => .pure fun htyped inForce hshows => ⟨hshows, ?_⟩
    intro s hs items
    obtain rfl := List.mem_singleton.mp hs
    exact ⟨scope, .here, hshows, htyped⟩
  | scope span name inner =>
    -- what the inner items declare is gone after them
    refine (passes_checkItems cx scope.push inner).bind fun _ => ?_
    refine .pure fun hvisited inForce hshows => ⟨hshows, fun s hs items => ?_⟩
    obtain ⟨scope', hreaches, hrest⟩ := hvisited inForce hshows s hs
    exact ⟨scope', .inside hreaches, hrest⟩
  | function f =>
    refine (onlyAdds_checkFunction f).gives.bind fun _ => ?_
    exact .pure fun _ inForce hshows => ⟨hshows, fun s hs => nomatch hs⟩
  | struct | enum | synonym | test =>
    exact .pure fun inForce hshows => ⟨hshows, fun s hs => nomatch hs⟩

/-- All principles of the items are visited. -/
theorem passes_checkItems (cx : Context) (scope : Scope) (items : List Item) :
    Passes (checkItems cx scope items) fun _ => ∀ inForce, Shows cx scope.bounds inForce →
      ∀ s ∈ Item.sitesOf inForce items, Visited cx scope items s := by
  cases items with
  | nil => exact .pure fun inForce _ s hs => nomatch hs
  | cons i items =>
    rw [checkItems]
    refine (passes_checkItem cx scope i).gives.bind fun next => ?_
    refine (passes_checkItems cx next items).mono fun _ hrest hi inForce hshows s hs => ?_
    obtain ⟨hgives, hitem⟩ := hi
    obtain ⟨hnext, hhere⟩ := hitem inForce hshows
    rw [Item.sitesOf_cons] at hs
    rcases List.mem_append.mp hs with hs | hs
    · exact hhere s hs items
    · obtain ⟨scope', hreaches, hvisit⟩ := hrest _ hnext s hs
      exact ⟨scope', .later hgives hreaches, hvisit⟩

end

variable {p : Program} {options : CheckOptions} {cp : CheckedProgram}

/-- The items of an accepted program go through, with all its declarations known. -/
theorem gives_checkItems (h : p.check options = .ok cp) :
    Gives (checkItems ⟨cp.env, options, []⟩ {} p.items) () := by
  obtain ⟨-, henv, herrors⟩ := run_of_check h
  -- the items are checked last, so the errors after them are those of the whole check
  have hlast : ∃ r, (checkAll options p).run {} = (((checkAll options p).run {}).1,
      ((checkItems ⟨((checkAll options p).run {}).1, options, []⟩ {} p.items).run r).2) :=
    ⟨_, rfl⟩
  obtain ⟨r, hr⟩ := hlast
  rw [henv] at hr
  exact ⟨r, rfl, by rw [hr] at herrors; exact herrors⟩

/-- The checker visits all principles of an accepted program. -/
theorem visited_of_check (h : p.check options = .ok cp) :
    ∀ s ∈ p.sites, Visited ⟨cp.env, options, []⟩ {} p.items s :=
  (passes_checkItems _ {} p.items).result _ (gives_checkItems h) [] .nil

/-- One item is checked after the other. -/
theorem passes_checkItems_cons (cx : Context) (scope : Scope) (i : Item) (items : List Item) :
    Passes (checkItems cx scope (i :: items)) fun _ =>
      ∃ next, Gives (checkItem cx scope i) next ∧ Gives (checkItems cx next items) () := by
  refine (passes_checkItem cx scope i).onlyAdds.gives.bind fun next => ?_
  exact (passes_checkItems cx next items).onlyAdds.passes fun _ hrest hi => ⟨next, hi, hrest⟩

theorem passes_checkItem_scope (cx : Context) (scope : Scope) (span : Span) (name : Ident)
    (inner : List Item) :
    Passes (checkItem cx scope (.scope span name inner)) fun _ =>
      Gives (checkItems cx scope.push inner) () := by
  exact (passes_checkItems cx scope.push inner).onlyAdds.gives.bind fun _ => .pure fun h => h

/-- A principle that is come to has a type in the scope in which it is come to. -/
theorem Reaches.infers {cx} {scope scope' : Scope} {items} {q : Principle}
    (h : Reaches cx scope items q scope') (hgives : Gives (checkItems cx scope items) ()) :
    ∃ t, Gives (infer cx scope'.push none q.body) t := by
  induction h with
  | @here scope q items =>
    obtain ⟨next, hitem, -⟩ := (passes_checkItems_cons cx scope _ items).result _ hgives
    have hpasses : Passes (checkItem cx scope (.principle q)) fun _ =>
        ∃ t, Gives (infer cx scope.push none q.body) t := by
      refine Passes.bind (P := fun _ => ∃ t, Gives (infer cx scope.push none q.body) t) ?_
        fun _ => .pure fun ht => ht
      refine (onlyAdds_infer none q.body).gives.bind fun t => ?_
      exact (OnlyAdds.faultIf _ _ _).passes fun _ _ ht => ⟨t, ht⟩
    exact hpasses.result next hitem
  | @inside scope scope' span name inner items q _ ih =>
    obtain ⟨next, hitem, -⟩ := (passes_checkItems_cons cx scope _ items).result _ hgives
    exact ih ((passes_checkItem_scope cx scope span name inner).result next hitem)
  | @later scope next scope' i items q hi _ ih =>
    obtain ⟨next', hitem, hrest⟩ := (passes_checkItems_cons cx scope _ items).result _ hgives
    obtain rfl := Gives.unique (passes_checkItem cx scope i).onlyAdds hi hitem
    exact ih hrest

end Statute
