import Statute.Proofs.Check.Structs
import Statute.Proofs.Lowering.Closed
import Statute.Proofs.Lowering.Spelling
import Statute.Proofs.Reading

/-!
# Symbols stand for one thing each

The functions of a form are named after fields of struct types, requirements of legal tests and
functions of the program. Different things can get one name in this way, see `symbols_confused`.
They do not if the names of a program keep apart as `Env.WellNamed` says, `symbols_stand_for_one`.
-/

namespace Statute

open Logic List

variable {s : SmtSort}

/-!
## Sorts and functions
-/

/-- Basic sorts, and those of the enums and of the legible struct types of a program. -/
def Logic.SmtSort.Legible (env : Env) : SmtSort → Prop
  | .int | .real | .bool | .string => True
  | .enum n => Statute.Legible env (.enum n)
  | .free s => ∃ n args, Statute.Legible env (.struct n args) ∧ s = structSortName (.struct n args)

/-- The fields of legible struct types, the requirements of the legal tests of a program for
subjects of legible sorts, and the functions of the program. -/
def Source.Legible (env : Env) : Source → Prop
  | .field struct args _ => Statute.Legible env (.struct struct args)
  | .requirement test name subject =>
    (∃ t ∈ env.tests, t.name = test ∧ name ∈ t.requirementNames) ∧ subject.Legible env
  | .function name => ∃ f ∈ env.functions, f.name = name

section

variable {env : Env} (hnames : env.WellNamed)

include hnames

/-- The sorts of enums and structs do not have the names of basic sorts. -/
theorem text_not_basic (h : s.Legible env) (hs : (∃ n, s = .enum n) ∨ ∃ n, s = .free n) :
    s.text ∉ ["Int", "Real", "Bool", "String"] := by
  rcases hs with ⟨n, rfl⟩ | ⟨m, rfl⟩
  · exact hnames.sorts n (Statute.Legible.mem_typeNames h n mem_cons_self)
  obtain ⟨n, args, hn, rfl⟩ := h
  show structSortName (.struct n args) ∉ ["Int", "Real", "Bool", "String"]
  obtain ⟨d, -, -, -, hstart⟩ := structSortName_starts hnames hn
  split at hstart
  · rw [hstart]
    exact hnames.sorts n (hn.mem_typeNames n mem_cons_self)
  -- the names of basic sorts have no underscore
  have hbasic : ∀ b ∈ ["Int", "Real", "Bool", "String"], '_' ∉ b.toList := by decide
  exact fun hmem => hbasic _ hmem (hstart.subset (by simp))

variable (hbuiltin : ∀ n d, env.lookup n = some d → Prim.ofName? n = none)

include hbuiltin

theorem enum_ne_structSortName {m n args} (hm : Legible env (.enum m))
    (hn : Legible env (.struct n args)) : m ≠ structSortName (.struct n args) := by
  intro heq
  have hspell : spell (Ty.enum m).tokens = spell (Ty.struct n args).tokens := by
    rw [Ty.tokens, Ty.tokens, spell_cons, spell_cons, spell_nil, append_nil,
      ← toList_structSortName hnames hn, heq]
  have htokens := hm.tokens_injective hnames hn hspell
  cases (hm.read hbuiltin _ [] [] hn (by rw [htokens])).1

/-- The text of a sort tells the sort. -/
theorem text_injective {s' : SmtSort} (h : s.Legible env) (h' : s'.Legible env)
    (heq : s.text = s'.text) : s = s' := by
  cases s with
  | enum n =>
    cases s' with
    | enum n' => rw [show n = n' from heq]
    | free m' =>
      obtain ⟨n', args, hn', rfl⟩ := h'
      exact absurd heq (enum_ne_structSortName hnames hbuiltin h hn')
    | int | real | bool | string =>
      exact absurd (heq ▸ by simp [SmtSort.text]) (text_not_basic hnames h (.inl ⟨n, rfl⟩))
  | free m =>
    cases s' with
    | enum n' =>
      obtain ⟨n, args, hn, rfl⟩ := h
      exact absurd heq.symm (enum_ne_structSortName hnames hbuiltin h' hn)
    | free m' => rw [show m = m' from heq]
    | int | real | bool | string =>
      exact absurd (heq ▸ by simp [SmtSort.text]) (text_not_basic hnames h (.inr ⟨m, rfl⟩))
  | int | real | bool | string =>
    cases s' with
    | enum n' =>
      exact absurd (heq ▸ by simp [SmtSort.text]) (text_not_basic hnames h' (.inl ⟨n', rfl⟩))
    | free m' =>
      exact absurd (heq ▸ by simp [SmtSort.text]) (text_not_basic hnames h' (.inr ⟨m', rfl⟩))
    | int | real | bool | string =>
      revert heq
      decide

end

/-- What stands before the first dot, and what after it. -/
theorem eq_of_dot {a a' b b' : String} (ha : '.' ∉ a.toList) (ha' : '.' ∉ a'.toList)
    (h : a ++ "." ++ b = a' ++ "." ++ b') : a = a' ∧ b = b' := by
  have hlist : a.toList ++ '.' :: b.toList = a'.toList ++ '.' :: b'.toList := by
    simpa using congrArg String.toList h
  obtain ⟨hfirst, hrest⟩ := eq_of_mark ha ha' hlist
  exact ⟨hfirst, String.toList_injective hrest⟩

theorem dot_notMem_structSortName (t : Ty) : '.' ∉ (structSortName t).toList := by
  intro hmem
  rw [structSortName, String.toList_ofList] at hmem
  rcases mem_plainFrom hmem with h | h
  · cases h
  · cases h

/-- The symbol of a requirement starts with the name of the legal test. It is the plain one if that
is for subjects of the sort, and has the name of the sort at its end otherwise. -/
theorem requirementSymbol_cases (v : Vocabulary) (test name : String) (s : SmtSort) :
    (requirementSymbol v test name s = test ++ "." ++ name ∧
      ∀ f, v.function? (test ++ "." ++ name) = some f → f.params.head? = some s) ∨
    requirementSymbol v test name s = test ++ "." ++ (name ++ "." ++ s.text) := by
  unfold requirementSymbol
  dsimp only
  split
  next f hf =>
    split
    next hs => grind
    · exact .inr (by simp only [String.append_assoc])
  next hf => exact .inl ⟨rfl, by simp [hf]⟩

namespace Source

section

variable {env : Env} {v : Vocabulary} (hnames : env.WellNamed) {name : String}

include hnames

/-- A requirement and a field have different symbols. -/
theorem field_ne_requirement {struct field test args}
    (h : (Source.field struct args field).Legible env)
    (h' : (Source.requirement test name s).Legible env) :
    (Source.field struct args field).symbol v ≠ (Source.requirement test name s).symbol v := by
  intro heq
  obtain ⟨⟨t, ht, rfl, -⟩, -⟩ := h'
  obtain ⟨hdot, hapart⟩ := hnames.tests t ht
  obtain ⟨rest, hrest⟩ : ∃ rest, requirementSymbol v t.name name s = t.name ++ "." ++ rest := by
    rcases requirementSymbol_cases v t.name name s with ⟨hsymbol, -⟩ | hsymbol
    · exact ⟨_, hsymbol⟩
    · exact ⟨_, hsymbol⟩
  have hsort := (eq_of_dot (dot_notMem_structSortName _) hdot (heq.trans hrest)).1
  obtain ⟨d, hd, rfl, hstruct, hstart⟩ := structSortName_starts hnames h
  have hother := hapart d hd hstruct
  split at hstart
  next hparams => grind
  next hparams => grind

/-- A function of the program has no dot in its symbol; others have one. -/
theorem function_ne {g : Source} (h : (Source.function name).Legible env)
    (hg : ∀ other, g ≠ .function other) : (Source.function name).symbol v ≠ g.symbol v := by
  intro heq
  obtain ⟨f, hf, rfl⟩ := h
  refine hnames.functions f hf ?_
  rw [show f.name = g.symbol v from heq]
  cases g with
  | function other => exact absurd rfl (hg other)
  | field struct args field => simp [Source.symbol]
  | requirement test name s =>
    rcases requirementSymbol_cases v test name s with ⟨hsymbol, -⟩ | hsymbol
    · simp [Source.symbol, hsymbol]
    · simp [Source.symbol, hsymbol]

variable (hbuiltin : ∀ n d, env.lookup n = some d → Prim.ofName? n = none)

include hbuiltin

/-- Requirements have symbols of their own, and so have those of one legal test for subjects of
different sorts: the plain symbol is that of one sort only. -/
theorem requirement_injective {test test' name' : String} {s' : SmtSort}
    (h : (Source.requirement test name s).Legible env)
    (h' : (Source.requirement test' name' s').Legible env)
    (hdeclared : (Source.requirement test name s).Declared v)
    (heq : (Source.requirement test name s).symbol v = (Source.requirement test' name' s').symbol v) :
    Source.requirement test name s = .requirement test' name' s' := by
  obtain ⟨⟨t, ht, rfl, hname⟩, hs⟩ := h
  obtain ⟨⟨t', ht', rfl, hname'⟩, hs'⟩ := h'
  have hdot := (hnames.tests t ht).1
  have hdot' := (hnames.tests t' ht').1
  have hplain := hnames.requirements t ht name hname
  have hplain' := hnames.requirements t' ht' name' hname'
  have hlonger {a b c : String} (ha : '.' ∉ a.toList) : a ≠ b ++ "." ++ c := by
    rintro rfl
    simp at ha
  obtain ⟨f, hf⟩ := hdeclared
  rw [Source.symbol] at hf
  rw [Source.symbol, Source.symbol] at heq
  rcases requirementSymbol_cases v t.name name s with ⟨hsymbol, hsort⟩ | hsymbol
  · rw [hsymbol] at heq hf
    rcases requirementSymbol_cases v t'.name name' s' with ⟨hsymbol', hsort'⟩ | hsymbol'
    · grind [eq_of_dot]
    · grind [eq_of_dot]
  · rw [hsymbol] at heq
    rcases requirementSymbol_cases v t'.name name' s' with ⟨hsymbol', -⟩ | hsymbol'
    · grind [eq_of_dot]
    · grind [eq_of_dot, text_injective]

/-- Different functions that a form declares have different symbols. -/
theorem symbol_injective {g g' : Source} (h : g.Legible env) (h' : g'.Legible env)
    (hdeclared : g.Declared v) (heq : g.symbol v = g'.symbol v) : g = g' := by
  cases g with
  | field struct args field =>
    cases g' with
    | field struct' args' field' =>
      obtain ⟨hsort, rfl⟩ :=
        eq_of_dot (dot_notMem_structSortName _) (dot_notMem_structSortName _) heq
      obtain ⟨rfl, rfl⟩ := structSortName_injective hnames hbuiltin h h' hsort
      rfl
    | requirement test name s => exact absurd heq (field_ne_requirement hnames h h')
    | function name => exact absurd heq.symm (function_ne hnames h' (by simp))
  | requirement test name s =>
    cases g' with
    | field struct args field => exact absurd heq.symm (field_ne_requirement hnames h' h)
    | requirement test' name' s' => exact requirement_injective hnames hbuiltin h h' hdeclared heq
    | function name => exact absurd heq.symm (function_ne hnames h' (by simp))
  | function name =>
    cases g' with
    | function name' => exact congrArg Source.function heq
    | field | requirement => exact absurd heq (function_ne hnames h (by simp))

end

end Source

/-- The symbols of a form stand for one thing each, if the names of the program keep apart. Its
sorts are those of enums and struct types, and its formula calls the functions that the rules say.
Different struct types have different sorts, and different functions different symbols: fields of
struct types, requirements of legal tests for subjects of a sort, and functions of the program. -/
theorem symbols_stand_for_one {p : Program} {options : CheckOptions} {cp : CheckedProgram}
    (hcheck : p.check options = .ok cp) (hnames : cp.env.WellNamed) (maxDepth : Nat) {q : Principle}
    {f : Form} (hf : (LoweringContext.ofProgram cp maxDepth).lower q = .ok f) :
    (∀ s ∈ f.vocabulary.sorts,
      (∃ n info, cp.env.enum? n = some info ∧ s = .enum info.name info.variants) ∨
        ∃ n args, s = .free (structSortName (.struct n args))) ∧
    (∃ u u', Yields ((LoweringContext.ofProgram cp maxDepth).setting (fun _ _ => True) f.vocabulary)
      u [] q.body (f.formula, .bool) u') ∧
    (∀ n args n' args', Legible cp.env (.struct n args) → Legible cp.env (.struct n' args') →
      structSortName (.struct n args) = structSortName (.struct n' args') → n = n' ∧ args = args') ∧
    ∀ g g' : Source, g.Legible cp.env → g'.Legible cp.env → g.Declared f.vocabulary →
      g'.Declared f.vocabulary → g.symbol f.vocabulary = g'.symbol f.vocabulary → g = g' := by
  have hbuiltin : ∀ n d, cp.env.lookup n = some d → Prim.ofName? n = none :=
    fun n d hd => (lookup_of_check hcheck hd).2.2
  obtain ⟨d, hd, hvocabulary, -, hyields⟩ := exists_proper hf
  refine ⟨fun s hs => ?_, ⟨_, _, hyields⟩, fun n args n' args' h h' heq => ?_,
    fun g g' h h' hdeclared _ heq => ?_⟩
  · rcases hd.sorts s (hvocabulary ▸ hs) with henum | ⟨n, args, -, hfree⟩
    · exact .inl henum
    · exact .inr ⟨n, args, hfree⟩
  · exact structSortName_injective hnames hbuiltin h h' heq
  · exact Source.symbol_injective hnames hbuiltin h h' hdeclared heq

/-!
### Pairs of persons and grades
-/

def pairType (first second : String) : TypeExpr :=
  .named {} "Pair" [.named {} ⟨first, {}⟩ [], .named {} ⟨second, {}⟩ []]

/-- If the person of the first pair and the grade of the second are capable, then the grades of both
have one rank. -/
def ranking : Principle where
  span := {}
  name := "Ranking"
  body :=
    .quantified {} .all "p" (pairType "Person" "Grade") <|
      .quantified {} .all "q" (pairType "Grade" "Person") <|
        .binary {} .implies
          (.binary {} .and
            (.satisfies {} (.member {} "p" "first") "Capable")
            (.satisfies {} (.member {} "q" "first") "Capable"))
          (.binary {} .eq
            (.call {} "rank" [.member {} "p" "second"])
            (.call {} "rank" [.member {} "q" "first"]))

def estates : Program where
  name := "estates"
  items :=
    [.enum ⟨{}, "Grade", ["low", "high"], false⟩,
      .struct ⟨{}, "Person", [], none, [⟨{}, "age", .prim {} .int, none⟩]⟩,
      .struct ⟨{}, "Pair", ["A", "B"], none,
        [⟨{}, "first", .var {} "A", none⟩,
          ⟨{}, "second", .var {} "B", none⟩]⟩,
      .test ⟨{}, "Capable", [⟨{}, "adult", .prim {} .bool⟩]⟩,
      .function ⟨{}, "rank", [], [⟨{}, "g", .named {} "Grade" []⟩],
        .prim {} .int, [.ret {} (.literal {} (.int 0))]⟩,
      .principle ranking]

def estatesEnv : Env where
  defs := [⟨"Grade", {}, [], .enum ⟨"Grade", ["low", "high"], false⟩⟩,
    ⟨"Person", {}, [], .struct none [⟨"age", .prim .int, {}, none, "Person"⟩]⟩,
    ⟨"Pair", {}, ["A", "B"], .struct none [⟨"first", .var "A", {}, none, "Pair"⟩,
      ⟨"second", .var "B", {}, none, "Pair"⟩]⟩]
  tests := [⟨"Capable", {}, [⟨"adult", .prim .bool, {}⟩]⟩]
  functions := [⟨"rank", {}, [], [("g", .enum "Grade")], .prim .int⟩]

def rankingForm : Form where
  principle := "Ranking"
  vocabulary :=
    { sorts := [.free "Pair_Person_Grade", .free "Pair_Grade_Person", .free "Person",
        .enum "Grade" ["low", "high"]]
      functions := [⟨"Pair_Person_Grade.first", [.free "Pair_Person_Grade"], .free "Person"⟩,
        ⟨"Capable.adult", [.free "Person"], .bool⟩,
        ⟨"Pair_Grade_Person.first", [.free "Pair_Grade_Person"], .enum "Grade"⟩,
        ⟨"Capable.adult.Grade", [.enum "Grade"], .bool⟩,
        ⟨"Pair_Person_Grade.second", [.free "Pair_Person_Grade"], .enum "Grade"⟩,
        ⟨"rank", [.enum "Grade"], .int⟩] }
  assumptions := []
  formula :=
    .quant .all "p" (.free "Pair_Person_Grade") <| .quant .all "q" (.free "Pair_Grade_Person") <|
      .implies
        (.and [.apply "Capable.adult" [.apply "Pair_Person_Grade.first" [.var "p"]],
          .apply "Capable.adult.Grade" [.apply "Pair_Grade_Person.first" [.var "q"]]])
        (.cmp .eq (.apply "rank" [.apply "Pair_Person_Grade.second" [.var "p"]])
          (.apply "rank" [.apply "Pair_Grade_Person.first" [.var "q"]]))
  warnings := []

/-- The functions of the form, in order. -/
def rankingSources : List Source :=
  [.field "Pair" [.struct "Person" [], .enum "Grade"] "first",
    .requirement "Capable" "adult" (.free "Person"),
    .field "Pair" [.enum "Grade", .struct "Person" []] "first",
    .requirement "Capable" "adult" (.enum "Grade"),
    .field "Pair" [.struct "Person" [], .enum "Grade"] "second", .function "rank"]

theorem wellNamed_estates : estatesEnv.WellNamed where
  neat := by decide
  sorts := by decide
  apart := by decide
  tests := by decide
  requirements := by decide
  functions := by decide

theorem legible_rankingSources : ∀ g ∈ rankingSources, g.Legible estatesEnv := by
  have hgrade : Legible estatesEnv (.enum "Grade") := .enum rfl rfl
  have hperson : Legible estatesEnv (.struct "Person" []) := .struct rfl rfl rfl (by simp)
  have hpairs : Legible estatesEnv (.struct "Pair" [.struct "Person" [], .enum "Grade"]) ∧
      Legible estatesEnv (.struct "Pair" [.enum "Grade", .struct "Person" []]) :=
    ⟨.struct rfl rfl rfl (by simp [hgrade, hperson]),
      .struct rfl rfl rfl (by simp [hgrade, hperson])⟩
  have htest : ∃ t ∈ estatesEnv.tests, t.name = "Capable" ∧ "adult" ∈ t.requirementNames :=
    ⟨_, mem_cons_self, rfl, by decide⟩
  have hsort : (SmtSort.free "Person").Legible estatesEnv := ⟨"Person", [], hperson, by decide⟩
  have hfunction : ∃ f ∈ estatesEnv.functions, f.name = "rank" := ⟨_, mem_cons_self, rfl⟩
  simp only [rankingSources, forall_mem_cons]
  exact ⟨hpairs.1, ⟨htest, hsort⟩, hpairs.2, ⟨htest, hgrade⟩, hpairs.1, hfunction, by simp⟩

theorem declared_rankingSources : ∀ g ∈ rankingSources, g.Declared rankingForm.vocabulary := by
  have hdeclared : ∀ g ∈ rankingSources,
      (rankingForm.vocabulary.function? (g.symbol rankingForm.vocabulary)).isSome = true := by
    decide +kernel
  exact fun g hg => Option.isSome_iff_exists.mp (hdeclared g hg)

theorem check_estates : estates.check = .ok ⟨estates, estatesEnv, []⟩ := check_eq_ok rfl

theorem lower_ranking :
    (LoweringContext.ofProgram ⟨estates, estatesEnv, []⟩).lower ranking = .ok rankingForm :=
  rfl

/-- The sorts of the two kinds of pairs differ, and so do the functions of the form: a legal test
for persons and grades, the fields of pairs, and the rank of a grade. -/
theorem ranking_symbols_apart :
    estates.check = .ok ⟨estates, estatesEnv, []⟩ ∧ estatesEnv.WellNamed ∧
    (LoweringContext.ofProgram ⟨estates, estatesEnv, []⟩).lower ranking = .ok rankingForm ∧
    structSortName (.struct "Pair" [.struct "Person" [], .enum "Grade"]) ≠
      structSortName (.struct "Pair" [.enum "Grade", .struct "Person" []]) ∧
    (∀ g ∈ rankingSources, g.Legible estatesEnv ∧ g.Declared rankingForm.vocabulary) ∧
    (rankingSources.map (Source.symbol rankingForm.vocabulary)).Nodup := by
  have hlegible := legible_rankingSources
  have hdeclared := declared_rankingSources
  obtain ⟨-, -, hsorts, hfunctions⟩ :=
    symbols_stand_for_one check_estates wellNamed_estates _ lower_ranking
  refine ⟨check_estates, wellNamed_estates, lower_ranking, fun heq => ?_,
    fun g hg => ⟨hlegible g hg, hdeclared g hg⟩, List.Nodup.map_on ?_ (by simp [rankingSources])⟩
  · have hargs := (hsorts _ _ _ _ (hlegible _ mem_cons_self)
      (hlegible _ (mem_cons_of_mem _ (mem_cons_of_mem _ mem_cons_self))) heq).2
    cases hargs
  · intro g hg g' hg' heq
    exact hfunctions g g' (hlegible g hg) (hlegible g' hg') (hdeclared g hg) (hdeclared g' hg') heq

/-!
### Things that share a symbol
-/

/-- The form of a principle of an accepted program has one symbol for two different functions. -/
def Program.Confuses (p : Program) (q : Principle) (g g' : Source) : Prop :=
  ∃ env f, p.check = .ok ⟨p, env, []⟩ ∧ q ∈ p.principles ∧
    (LoweringContext.ofProgram ⟨p, env, []⟩).lower q = .ok f ∧ g.Legible env ∧ g'.Legible env ∧
    g.Declared f.vocabulary ∧ g'.Declared f.vocabulary ∧
    g.symbol f.vocabulary = g'.symbol f.vocabulary ∧ g ≠ g'

/-- For every box of an integer there is an integer box with the same content. -/
def boxing : Principle where
  span := {}
  name := "Boxing"
  body :=
    .quantified {} .all "a" (.named {} "Box" [.prim {} .int]) <|
      .quantified {} .some "b" (.named {} "Box_int" []) <|
        .binary {} .eq (.member {} "a" "v")
          (.member {} "b" "v")

def boxes : Program where
  name := "boxes"
  items :=
    [.struct ⟨{}, "Box", ["T"], none, [⟨{}, "v", .var {} "T", none⟩]⟩,
      .struct ⟨{}, "Box_int", [], none, [⟨{}, "v", .prim {} .int, none⟩]⟩,
      .principle boxing]

def boxesEnv : Env where
  defs := [⟨"Box", {}, ["T"], .struct none [⟨"v", .var "T", {}, none, "Box"⟩]⟩,
    ⟨"Box_int", {}, [], .struct none [⟨"v", .prim .int, {}, none, "Box_int"⟩]⟩]

def boxingForm : Form where
  principle := "Boxing"
  vocabulary :=
    { sorts := [.free "Box_int"], functions := [⟨"Box_int.v", [.free "Box_int"], .int⟩] }
  assumptions := []
  formula := .quant .all "a" (.free "Box_int") <| .quant .some "b" (.free "Box_int") <|
    .cmp .eq (.apply "Box_int.v" [.var "a"]) (.apply "Box_int.v" [.var "b"])
  warnings := []

theorem boxes_confused :
    boxes.Confuses boxing (.field "Box" [.prim .int] "v") (.field "Box_int" [] "v") := by
  refine ⟨boxesEnv, boxingForm, check_eq_ok rfl, mem_singleton_self _, rfl, ?_, ?_, ⟨_, rfl⟩,
    ⟨_, rfl⟩, by decide, by simp⟩
  · exact .struct rfl rfl rfl fun a ha => mem_singleton.mp ha ▸ .prim
  · exact .struct rfl rfl rfl (by simp)

/-- Who passes the legal test for permits has a permit. -/
def permission : Principle where
  span := {}
  name := "Permission"
  body :=
    .quantified {} .all "p" (.named {} "Permit" []) <|
      .binary {} .implies (.satisfies {} "p" "Permit")
        (.member {} "p" "valid")

def permits : Program where
  name := "permits"
  items :=
    [.struct ⟨{}, "Permit", [], none, [⟨{}, "valid", .prim {} .bool, none⟩]⟩,
      .test ⟨{}, "Permit", [⟨{}, "valid", .prim {} .bool⟩]⟩,
      .principle permission]

def permitsEnv : Env where
  defs := [⟨"Permit", {}, [], .struct none [⟨"valid", .prim .bool, {}, none, "Permit"⟩]⟩]
  tests := [⟨"Permit", {}, [⟨"valid", .prim .bool, {}⟩]⟩]

def permissionForm : Form where
  principle := "Permission"
  vocabulary :=
    { sorts := [.free "Permit"], functions := [⟨"Permit.valid", [.free "Permit"], .bool⟩] }
  assumptions := []
  formula := .quant .all "p" (.free "Permit")
    (.implies (.apply "Permit.valid" [.var "p"]) (.apply "Permit.valid" [.var "p"]))
  warnings := []

theorem permits_confused :
    permits.Confuses permission (.field "Permit" [] "valid")
      (.requirement "Permit" "valid" (.free "Permit")) := by
  have hpermit : Legible permitsEnv (.struct "Permit" []) := .struct rfl rfl rfl (by simp)
  have hvalid : (Source.requirement "Permit" "valid" (.free "Permit")).Legible permitsEnv :=
    ⟨⟨_, mem_cons_self, rfl, by decide⟩, "Permit", [], hpermit, by decide⟩
  exact ⟨permitsEnv, permissionForm, check_eq_ok rfl, mem_singleton_self _, rfl, hpermit,
    hvalid, ⟨_, rfl⟩, ⟨_, rfl⟩, by decide, by simp⟩

/-- Names that do not keep apart are confused: the sort and the field of a box of an integer are
those of another struct, and a field of a permit is the requirement of a legal test. -/
theorem symbols_confused :
    structSortName (.struct "Box" [.prim .int]) = structSortName (.struct "Box_int" []) ∧
    boxes.Confuses boxing (.field "Box" [.prim .int] "v") (.field "Box_int" [] "v") ∧
    permits.Confuses permission (.field "Permit" [] "valid")
      (.requirement "Permit" "valid" (.free "Permit")) :=
  ⟨by decide, boxes_confused, permits_confused⟩

end Statute
