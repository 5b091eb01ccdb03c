import Statute.Proofs.Match.Ambiguity

/-!
# What the options of a check change

A check with an option switched off goes through the same steps as one with it on, and its report is
that of the other less what the option asks for, `run_checkAll`. Errors are told apart by how they
are reported, and sorting is stable: so dropping some of them in the end comes to the same as not
having found them.
-/

namespace Statute

open Checking List

/-- The finding is not about ambiguous variants. -/
def Finding.isOther (f : Finding) : Bool := !f.isAmbiguity

/-- What is left of a full report under the options. -/
def Report.under (r : Report) (o : CheckOptions) : Report where
  errors := if o.exclusivity then r.errors else r.errors.filter Finding.isOther
  warnings := if o.shadowing then r.warnings else []
  cyclic := r.cyclic

variable {fs : List Finding}

namespace Report

theorem under_faults (hfs : ∀ f ∈ fs, f.isAmbiguity = false) (r : Report) (o : CheckOptions) :
    ({ r with errors := r.errors ++ fs } : Report).under o =
      { r.under o with errors := (r.under o).errors ++ fs } := by
  have hkept : fs.filter Finding.isOther = fs :=
    filter_eq_self.mpr fun f hf => by rw [Finding.isOther, hfs f hf]; rfl
  unfold under
  cases o.exclusivity
  · simp [hkept]
  · rfl

theorem under_warn (f : Fault) (span : Span) (r : Report) (o : CheckOptions) :
    ((warn f span).run r).2.under o =
      ((if o.shadowing then warn f span else pure () : Checking Unit).run (r.under o)).2 := by
  unfold under
  cases o.shadowing <;> rfl

theorem under_verdicts (body : List Stmt) (info : EnumInfo) (r : Report) (o : CheckOptions) :
    ((faults (exclusivityFault? body info).toList).run r).2.under o =
      ((if o.exclusivity then faults (exclusivityFault? body info).toList else pure () :
        Checking Unit).run (r.under o)).2 := by
  have hdropped : (exclusivityFault? body info).toList.filter Finding.isOther = [] := by
    refine filter_eq_nil_iff.mpr fun f hf => ?_
    obtain ⟨vs, hkind⟩ := kind_of_exclusivityFault? (Option.mem_toList.mp hf)
    simp [Finding.isOther, Finding.isAmbiguity, hkind, FaultKind.isAmbiguity]
  unfold under
  cases o.exclusivity
  · show (⟨(r.errors ++ _).filter _, _, _⟩ : Report) = ⟨_, _, _⟩
    rw [filter_append, hdropped, append_nil]
    rfl
  · rfl

end Report

theorem parallel_under (hfs : ∀ f ∈ fs, f.isAmbiguity = false) (o : CheckOptions) :
    Parallel (fun r r' => r' = r.under o) (faults fs) (faults fs) := by
  rintro r _ rfl
  exact ⟨rfl, (Report.under_faults hfs r o).symm⟩

/-- A full check and one under the options `o` go along with each other. -/
theorem tolerant_under (o : CheckOptions) : Tolerant (fun r r' => r' = r.under o) {} o where
  faults fs hfs := parallel_under (fun f hf => Fault.isAmbiguity_of_isOrdinary (hfs f hf)) o
  bounds t value := by
    refine parallel_under (fun f hf => ?_) o
    rcases fault_of_mem_constantFaults hf with ⟨u, hfault⟩ | ⟨v, u, hfault⟩
    all_goals
      rw [Finding.isAmbiguity, hfault]
      rfl
  cycle opened name := by
    rintro r _ rfl
    refine ⟨rfl, ?_⟩
    show ((if r.cyclic.contains name.name then pure () else _ : Checking Unit).run (r.under o)).2 =
      ((if r.cyclic.contains name.name then pure () else _ : Checking Unit).run r).2.under o
    split
    · rfl
    · exact (Report.under_faults (forall_mem_singleton.mpr rfl)
        { r with cyclic := r.cyclic ++ opened.dropWhile (· != name.name) } o).symm
  warn f span := by
    rintro r _ rfl
    exact ⟨rfl, (Report.under_warn f span r o).symm⟩
  verdicts body info := by
    rintro r _ rfl
    exact ⟨rfl, (Report.under_verdicts body info r o).symm⟩

/-- The report of a full check of the program. -/
def Program.report (p : Program) : Report := ((checkAll {} p).run {}).2

theorem run_checkAll (o : CheckOptions) (p : Program) :
    (checkAll o p).run {} = (p.declared, p.report.under o) := by
  have hstart : ({} : Report) = ({} : Report).under o := by
    unfold Report.under
    split <;> split <;> rfl
  obtain ⟨hvalue, hreport⟩ := parallel_checkAll (tolerant_under o)
    (fun _ _ _ => parallel_under (forall_mem_singleton.mpr rfl) o) p {} {} hstart
  exact Prod.ext (hvalue.symm.trans value_checkAll) hreport

/-!
## Errors as they are returned
-/

namespace Finding

/-- Keeps a finding unless it is reported like one kept before. -/
def keep (kept : List Finding) (f : Finding) : List Finding :=
  if kept.any fun g => g.diagnostic == f.diagnostic then kept else kept ++ [f]

section Filter

variable {q : Finding → Bool} (hq : ∀ f g, f.diagnostic = g.diagnostic → q f = q g)

include hq

/-- Whether a finding is kept depends on those that are reported alike. -/
theorem filter_keep (kept : List Finding) {f : Finding} (hf : q f) :
    (keep kept f).filter q = keep (kept.filter q) f := by
  have hsame : ((kept.filter q).any fun g => g.diagnostic == f.diagnostic) =
      kept.any fun g => g.diagnostic == f.diagnostic := by
    rw [any_filter]
    congr 1
    funext g
    -- a finding that is reported like `f` stays, as `f` does
    cases hg : g.diagnostic == f.diagnostic
    · rw [Bool.and_false]
    · rw [hq g f (eq_of_beq hg), hf, Bool.true_and]
  unfold keep
  rw [hsame]
  split
  · rfl
  · rw [filter_append, filter_cons_of_pos hf, filter_nil]

omit hq in
theorem filter_keep_of_not (kept : List Finding) {f : Finding} (hf : ¬q f) :
    (keep kept f).filter q = kept.filter q := by
  unfold keep
  split
  · rfl
  · rw [filter_append, filter_cons_of_neg hf, filter_nil, append_nil]

theorem filter_foldl_keep (kept fs : List Finding) :
    (fs.foldl keep kept).filter q = (fs.filter q).foldl keep (kept.filter q) := by
  induction fs generalizing kept with
  | nil => rfl
  | cons f fs ih =>
    rw [foldl_cons, ih]
    by_cases hf : q f = true
    · rw [filter_keep hq kept hf, filter_cons_of_pos hf, foldl_cons]
    · rw [filter_keep_of_not kept hf, filter_cons_of_neg hf]

theorem filter_distinct (fs : List Finding) :
    (distinct fs).filter q = distinct (fs.filter q) :=
  filter_foldl_keep hq [] fs

end Filter

end Finding

variable {α : Type}

/-- Where a new first element comes to stand in the sorted list. -/
theorem mergeSort_cons_split {le : α → α → Bool}
    (htrans : ∀ a b c, le a b → le b c → le a c)
    (htotal : ∀ a b, (le a b || le b a)) (a : α) (l : List α) :
    ∃ l₁ l₂, (a :: l).mergeSort le = l₁ ++ a :: l₂ ∧ l.mergeSort le = l₁ ++ l₂ ∧
      (∀ b ∈ l₁, le a b = false) ∧ ∀ b ∈ l₂, le a b := by
  obtain ⟨l₁, l₂, hcons, hrest, hbefore⟩ := mergeSort_cons htrans htotal a l
  have hsorted := pairwise_mergeSort htrans htotal (a :: l)
  rw [hcons] at hsorted
  have hafter := (pairwise_cons.mp (pairwise_append.mp hsorted).2.1).1
  exact ⟨l₁, l₂, hcons, hrest, fun b hb => by simpa using hbefore b hb, hafter⟩

/-- A list is cut in only one way into elements that fail a test and elements that pass it. -/
theorem cut_unique {q : α → Bool} {k₁ k₂ l₁ l₂ : List α} (h : k₁ ++ k₂ = l₁ ++ l₂)
    (hk₁ : ∀ b ∈ k₁, q b = false) (hk₂ : ∀ b ∈ k₂, q b) (hl₁ : ∀ b ∈ l₁, q b = false)
    (hl₂ : ∀ b ∈ l₂, q b) : k₁ = l₁ ∧ k₂ = l₂ := by
  have hlast : k₂ = l₂ := by
    have hboth := congrArg (List.filter q) h
    rwa [filter_append, filter_append, filter_eq_self.mpr hk₂,
      filter_eq_self.mpr hl₂, filter_eq_nil_iff.mpr fun b hb => by simp [hk₁ b hb],
      filter_eq_nil_iff.mpr fun b hb => by simp [hl₁ b hb]] at hboth
  subst hlast
  exact ⟨append_cancel_right h, rfl⟩

/-- What stays after sorting stands as if only that had been sorted. -/
theorem filter_mergeSort {le : α → α → Bool}
    (htrans : ∀ a b c, le a b → le b c → le a c)
    (htotal : ∀ a b, (le a b || le b a)) (p : α → Bool) (l : List α) :
    (l.mergeSort le).filter p = (l.filter p).mergeSort le := by
  induction l with
  | nil => simp
  | cons a l ih =>
    -- `a` comes behind the smaller elements and before all others, filtered or not
    obtain ⟨l₁, l₂, hcons, hrest, hbefore, hafter⟩ := mergeSort_cons_split htrans htotal a l
    by_cases ha : p a = true
    · obtain ⟨k₁, k₂, kcons, krest, kbefore, kafter⟩ :=
        mergeSort_cons_split htrans htotal a (l.filter p)
      have hsame : k₁ ++ k₂ = l₁.filter p ++ l₂.filter p := by
        rw [← krest, ← ih, hrest, filter_append]
      obtain ⟨rfl, rfl⟩ := cut_unique hsame kbefore kafter
        (fun b hb => hbefore b (mem_of_mem_filter hb))
        (fun b hb => hafter b (mem_of_mem_filter hb))
      rw [filter_cons_of_pos ha, kcons, hcons, filter_append, filter_cons_of_pos ha]
    · grind

namespace Finding

theorem filter_inOrder (q : Finding → Bool) (fs : List Finding) :
    (inOrder fs).filter q = inOrder (fs.filter q) := by
  refine filter_mergeSort (fun a b c hab hbc => ?_) (fun a b => ?_) _ _
  · grind
  · grind

end Finding

/-!
## Options
-/

/-- All that a check finds out about a program, accepted or not. -/
structure Outcome where
  env : Env
  errors : List Finding
  warnings : List Finding

/-- What a check under the options finds out. -/
def Program.outcome (p : Program) (o : CheckOptions) : Outcome :=
  let (env, report) := (checkAll o p).run {}
  ⟨env, Finding.inOrder (Finding.distinct report.errors), report.warnings⟩

/-- What is returned: the checked program if there are no errors, and otherwise the errors. -/
def Outcome.result (x : Outcome) (p : Program) : Except (List Finding) CheckedProgram :=
  match x.errors with
  | [] => .ok ⟨p, x.env, x.warnings⟩
  | errors => .error errors

namespace Outcome

/-- The same without warnings. -/
def silent (x : Outcome) : Outcome := { x with warnings := [] }

/-- The same without the errors about ambiguous variants. -/
def tolerant (x : Outcome) : Outcome := { x with errors := x.errors.filter Finding.isOther }

theorem result_silent (x : Outcome) (p : Program) :
    x.silent.result p = (x.result p).map fun cp => { cp with warnings := [] } := by
  unfold result silent
  cases x.errors <;> rfl

theorem isOk_result_iff (x : Outcome) (p : Program) :
    (x.result p).isOk ↔ x.errors = [] := by
  unfold result
  cases x.errors with
  | nil => exact ⟨fun _ => rfl, fun _ => rfl⟩
  | cons f fs => exact ⟨fun h => absurd h Bool.false_ne_true, fun h => absurd h (by simp)⟩

end Outcome

namespace Program

variable (p : Program) (o : CheckOptions)

theorem check_eq_result : p.check o = (p.outcome o).result p := rfl

theorem outcome_eq : p.outcome o =
    ⟨p.declared, Finding.inOrder (Finding.distinct (p.report.under o).errors),
      (p.report.under o).warnings⟩ := by
  unfold outcome
  rw [run_checkAll]

theorem outcome_without_shadowing :
    p.outcome { o with shadowing := false } = (p.outcome { o with shadowing := true }).silent := by
  rw [outcome_eq, outcome_eq]
  rfl

theorem outcome_without_exclusivity :
    p.outcome { o with exclusivity := false } =
      (p.outcome { o with exclusivity := true }).tolerant := by
  rw [outcome_eq, outcome_eq]
  have herrors : Finding.inOrder (Finding.distinct (p.report.errors.filter Finding.isOther)) =
      (Finding.inOrder (Finding.distinct p.report.errors)).filter Finding.isOther := by
    rw [Finding.filter_inOrder, Finding.filter_distinct]
    exact fun _ _ hsame => congrArg (fun d : Diagnostic => !d.kind.isAmbiguity) hsame
  exact congrArg (Outcome.mk _ · _) herrors

/-- The options of a check do not interfere. Without warnings about shadowing a program is accepted
or refused as before, with the same errors and declarations. Without the check for exclusive enums
the errors about ambiguous variants are gone and all else stays: the other errors in their order,
the declarations and the warnings. -/
theorem options_independent :
    p.outcome { o with shadowing := false } = (p.outcome { o with shadowing := true }).silent ∧
    p.check { o with shadowing := false } =
      (p.check { o with shadowing := true }).map (fun cp => { cp with warnings := [] }) ∧
    p.outcome { o with exclusivity := false } =
      (p.outcome { o with exclusivity := true }).tolerant ∧
    p.check { o with exclusivity := true } = (p.outcome { o with exclusivity := true }).result p ∧
    p.check { o with exclusivity := false } =
      (p.outcome { o with exclusivity := true }).tolerant.result p ∧
    ((p.check { o with exclusivity := false }).isOk = true ↔
      ∀ f ∈ (p.outcome { o with exclusivity := true }).errors, f.isAmbiguity = true) := by
  have hexclusivity := p.outcome_without_exclusivity o
  refine ⟨p.outcome_without_shadowing o, ?_, hexclusivity, rfl, ?_, ?_⟩
  · rw [check_eq_result, outcome_without_shadowing, Outcome.result_silent, check_eq_result]
  · rw [check_eq_result, hexclusivity]
  · rw [check_eq_result, Outcome.isOk_result_iff, hexclusivity, Outcome.tolerant,
      filter_eq_nil_iff]
    simp [Finding.isOther]

end Program

end Statute
