import Mathlib.Data.List.Basic
import Statute.Lowering.Draft

/-!
# The names of sorts

The sort of a struct type is named after the text of the type, in which everything but letters and
digits becomes an underscore. If the names of types keep apart as `Env.WellNamed` says, this name
can be read back as the type: it spells the tokens of the type, `Legible.plainFrom_text`, and these
are read in one way only, `Legible.read`. So struct types have sorts of their own,
`structSortName_injective`.
-/

namespace Statute

open List

variable {cs : List Char} {t : Ty}

/-!
## Texts of letters and digits
-/

/-- The text is empty or starts with something else than a letter or a digit. -/
def Breaks (cs : List Char) : Prop := ∀ c ∈ cs.head?, c.isAlphanum = false

theorem plainFrom_of_breaks (h : Breaks cs) (pending : Bool) :
    plainFrom pending cs = plainFrom true cs := by
  cases cs with
  | nil => rfl
  | cons c cs =>
    have hc : c.isAlphanum = false := h c rfl
    simp [plainFrom, hc]

/-- A text is reduced piece by piece. -/
theorem plainFrom_append {rest : List Char} (hrest : Breaks rest) (pending : Bool)
    (cs : List Char) :
    plainFrom pending (cs ++ rest) = plainFrom pending cs ++ plainFrom true rest := by
  induction cs generalizing pending with
  | nil => exact plainFrom_of_breaks hrest pending
  | cons c cs ih =>
    rw [cons_append, plainFrom, plainFrom]
    split
    · split <;> rw [ih false] <;> rfl
    · exact ih true

theorem mem_plainFrom {pending : Bool} {c : Char} (h : c ∈ plainFrom pending cs) :
    c = '_' ∨ c.isAlphanum := by
  induction cs generalizing pending with
  | nil => cases h
  | cons d cs ih =>
    unfold plainFrom at h
    split at h
    next hd =>
      split at h
      · grind
      · grind
    · exact ih h

/-- A name of letters and digits with single underscores between them. It is the same after it has
been reduced. -/
def Neat (n : String) : Prop := plainFrom true n.toList = '_' :: n.toList

instance (n : String) : Decidable (Neat n) := inferInstanceAs (Decidable (_ = _))

theorem length_plainFrom (pending : Bool) (cs : List Char) :
    (plainFrom pending cs).length ≤ cs.length + pending.toNat := by
  induction cs generalizing pending with
  | nil => simp [plainFrom]
  | cons c cs ih =>
    have hfalse : (plainFrom false cs).length ≤ cs.length := ih false
    have htrue : (plainFrom true cs).length ≤ cs.length + 1 := ih true
    unfold plainFrom
    split
    · split
      next hpending => grind
      · rw [length_cons, length_cons]
        omega
    · rw [length_cons]
      omega

/-- A neat name starts with a letter or a digit. -/
theorem Neat.starts {n : String} (h : Neat n) :
    ∃ c cs, n.toList = c :: cs ∧ c.isAlphanum := by
  unfold Neat at h
  cases hn : n.toList with
  | nil =>
    rw [hn] at h
    cases h
  | cons c cs =>
    refine ⟨c, cs, rfl, ?_⟩
    by_contra hc
    -- otherwise the first character is lost, and one underscore does not make up for it
    rw [hn, plainFrom, if_neg hc] at h
    have hlength := length_plainFrom true cs
    rw [h, length_cons, length_cons, Bool.toNat_true] at hlength
    omega

/-!
## The tokens of a type
-/

/-- A struct or an enum, and not another name of a type. -/
def TypeDef.isNominal (d : TypeDef) : Bool :=
  match d.body with
  | .synonym _ => false
  | _ => true

def TypeDef.isStruct (d : TypeDef) : Bool :=
  match d.body with
  | .struct _ _ => true
  | _ => false

/-- The names of built-in types, structs and enums. -/
def Env.typeNames (env : Env) : List String :=
  Prim.all.map Prim.text ++ (env.defs.filter TypeDef.isNominal).map TypeDef.name

/-- Some struct of the program has parameters. -/
def Env.Generic (env : Env) : Prop := ∃ d ∈ env.defs, d.isStruct = true ∧ d.params ≠ []

instance (env : Env) : Decidable env.Generic := inferInstanceAs (Decidable (∃ d ∈ _, _ ∧ _))

/-- Built-in types, and the enums and structs of a program with as many arguments as the struct has
parameters, all of this kind. -/
inductive Legible (env : Env) : Ty → Prop where
  | prim {p} : Legible env (.prim p)
  | enum {n d info} (hd : env.lookup n = some d) (hbody : d.body = .enum info) :
      Legible env (.enum n)
  | struct {n d parent fields args} (hd : env.lookup n = some d)
      (hbody : d.body = .struct parent fields) (hlength : d.params.length = args.length)
      (hargs : ∀ a ∈ args, Legible env a) : Legible env (.struct n args)

mutual

/-- The names that the text of a type is made of, in order. -/
def Ty.tokens : Ty → List String
  | .prim p => [p.text]
  | .enum n => [n]
  | .struct n args => n :: Ty.tokensOf args
  | _ => []

def Ty.tokensOf : List Ty → List String
  | [] => []
  | t :: ts => t.tokens ++ Ty.tokensOf ts

end

variable {n : String}

variable {ts ts' : List Ty}

section

variable {env : Env}

theorem mem_typeNames_of_lookup {d : TypeDef} (hd : env.lookup n = some d)
    (hnominal : d.isNominal) : n ∈ env.typeNames := by
  have hname : d.name = n := by simpa using find?_some hd
  have hmem : d ∈ env.defs.filter TypeDef.isNominal :=
    mem_filter.mpr ⟨mem_of_find?_eq_some hd, hnominal⟩
  exact mem_append_right _ (hname ▸ mem_map_of_mem hmem)

theorem mem_tokensOf : n ∈ Ty.tokensOf ts ↔ ∃ t ∈ ts, n ∈ t.tokens := by
  induction ts with
  | nil => simp [Ty.tokensOf]
  | cons t ts ih => simp [Ty.tokensOf, ih]

theorem Legible.mem_typeNames (h : Legible env t) : ∀ n ∈ t.tokens, n ∈ env.typeNames := by
  induction h with
  | @prim p =>
    intro n hn
    obtain rfl := mem_singleton.mp hn
    exact mem_append_left _ (mem_map_of_mem (by cases p <;> decide))
  | enum hd hbody =>
    intro n hn
    obtain rfl := mem_singleton.mp hn
    exact mem_typeNames_of_lookup hd (by rw [TypeDef.isNominal, hbody])
  | struct hd hbody hlength hargs ih =>
    intro n hn
    rcases mem_cons.mp hn with rfl | hn
    · exact mem_typeNames_of_lookup hd (by rw [TypeDef.isNominal, hbody])
    · obtain ⟨a, ha, hn⟩ := mem_tokensOf.mp hn
      exact ih a ha n hn

theorem Legible.tokens_ne_nil (h : Legible env t) : t.tokens ≠ [] := by
  cases h <;> exact cons_ne_nil _ _

/-- Without parameters a type has one token. -/
theorem Legible.tokens_of_not_generic (hgeneric : ¬env.Generic) (h : Legible env t) :
    ∃ n, t.tokens = [n] := by
  cases h with
  | prim | enum => exact ⟨_, rfl⟩
  | @struct n d parent fields args hd hbody hlength hargs =>
    have hparams : d.params = [] := by
      by_contra hparams
      exact hgeneric ⟨d, mem_of_find?_eq_some hd, by rw [TypeDef.isStruct, hbody], hparams⟩
    rw [hparams] at hlength
    obtain rfl := length_eq_zero_iff.mp hlength.symm
    exact ⟨n, rfl⟩

/-- Arguments are read one by one, if each can be. -/
theorem tokensOf_injective {rest rest' : List String}
    (hread : ∀ t ∈ ts, ∀ t' rest rest', Legible env t' →
      t.tokens ++ rest = t'.tokens ++ rest' → t = t' ∧ rest = rest')
    (hts' : ∀ t ∈ ts', Legible env t) (hlength : ts.length = ts'.length)
    (h : Ty.tokensOf ts ++ rest = Ty.tokensOf ts' ++ rest') : ts = ts' ∧ rest = rest' := by
  induction ts generalizing ts' with
  | nil =>
    obtain rfl := length_eq_zero_iff.mp hlength.symm
    exact ⟨rfl, h⟩
  | cons t ts ih =>
    cases ts' with
    | nil => cases hlength
    | cons t' ts' =>
      obtain ⟨hfirst, hothers⟩ := forall_mem_cons.mp hread
      obtain ⟨ht', hrest'⟩ := forall_mem_cons.mp hts'
      rw [Ty.tokensOf, Ty.tokensOf, append_assoc, append_assoc] at h
      obtain ⟨rfl, htail⟩ := hfirst t' _ _ ht' h
      obtain ⟨rfl, hrest⟩ := ih hothers hrest' (by simpa using hlength) htail
      exact ⟨rfl, hrest⟩

/-- The tokens of a type can be read in one way only: a name says how many arguments follow. -/
theorem Legible.read (hbuiltin : ∀ n d, env.lookup n = some d → Prim.ofName? n = none)
    (h : Legible env t) :
    ∀ t' rest rest', Legible env t' →
      t.tokens ++ rest = t'.tokens ++ rest' → t = t' ∧ rest = rest' := by
  have hprim {n : String} {d : TypeDef} {p : Prim} (hd : env.lookup n = some d) : p.text ≠ n := by
    grind [Prim.ofName?_text]
  induction h with
  | @prim p =>
    intro t' rest rest' ht' heq
    cases ht' with
    | @prim p' =>
      obtain ⟨htext, hrest⟩ := List.cons.inj heq
      have hp := Prim.ofName?_text p
      rw [htext, Prim.ofName?_text p'] at hp
      exact ⟨by rw [Option.some.inj hp], hrest⟩
    | enum hd _ | struct hd _ _ _ => exact absurd (List.cons.inj heq).1 (hprim hd)
  | @enum n d info hd hbody =>
    intro t' rest rest' ht' heq
    cases ht' with
    | prim => exact absurd (List.cons.inj heq).1.symm (hprim hd)
    | enum =>
      obtain ⟨rfl, hrest⟩ := List.cons.inj heq
      exact ⟨rfl, hrest⟩
    | struct hd' hbody' _ _ =>
      obtain ⟨rfl, -⟩ := List.cons.inj heq
      cases hd.symm.trans hd'
      cases hbody.symm.trans hbody'
  | @struct n d parent fields args hd hbody hlength hargs ih =>
    intro t' rest rest' ht' heq
    cases ht' with
    | prim => exact absurd (List.cons.inj heq).1.symm (hprim hd)
    | enum hd' hbody' =>
      obtain ⟨rfl, -⟩ := List.cons.inj heq
      cases hd.symm.trans hd'
      cases hbody.symm.trans hbody'
    | struct hd' _ hlength' hargs' =>
      obtain ⟨rfl, htail⟩ := List.cons.inj heq
      cases hd.symm.trans hd'
      obtain ⟨rfl, hrest⟩ := tokensOf_injective ih hargs' (hlength.symm.trans hlength') htail
      exact ⟨rfl, hrest⟩

end

/-!
## Names that keep apart
-/

/-- The names of a program keep apart. Those of types are neat, and none is that of a basic sort. If
a struct has parameters, then none of them followed by an underscore is the start of another. Legal
tests do not have names that the sort of a struct type may have. And there is no dot in the names of
legal tests, of requirements and of functions. -/
structure Env.WellNamed (env : Env) : Prop where
  neat : ∀ n ∈ env.typeNames, Neat n
  sorts : ∀ n ∈ env.typeNames, n ∉ ["Int", "Real", "Bool", "String"]
  apart : env.Generic → ∀ n ∈ env.typeNames, ∀ m ∈ env.typeNames, ¬(n ++ "_").toList <+: m.toList
  tests : ∀ t ∈ env.tests, '.' ∉ t.name.toList ∧ ∀ d ∈ env.defs, d.isStruct = true →
    if d.params = [] then d.name ≠ t.name else ¬(d.name ++ "_").toList <+: t.name.toList
  requirements : ∀ t ∈ env.tests, ∀ r ∈ t.requirementNames, '.' ∉ r.toList
  functions : ∀ f ∈ env.functions, '.' ∉ f.name.toList

/-- The names one after the other, each after an underscore. -/
def spell (names : List String) : List Char := names.flatMap fun n => '_' :: n.toList

@[simp] theorem spell_nil : spell [] = [] := rfl

@[simp] theorem spell_cons (n : String) (ns : List String) :
    spell (n :: ns) = '_' :: (n.toList ++ spell ns) := by
  simp [spell]

theorem spell_append (ns ms : List String) : spell (ns ++ ms) = spell ns ++ spell ms :=
  flatMap_append

/-- A name that goes on where another one ends goes on with an underscore. -/
theorem eq_nil_of_spell {m : String} {ns ms : List String}
    (hapart : ¬(n ++ "_").toList <+: m.toList) (hm : m.toList = n.toList ++ cs)
    (h : spell ns = cs ++ spell ms) : cs = [] := by
  cases cs with
  | nil => rfl
  | cons c cs =>
    cases ns with
    | nil => cases h
    | cons n' ns =>
      obtain ⟨rfl, -⟩ := List.cons.inj h
      refine absurd ⟨cs, ?_⟩ hapart
      rw [hm, String.toList_append, append_assoc]
      rfl

/-- Names that keep apart can be told from what they spell. -/
theorem spell_injective {names ns ms : List String}
    (hapart : ∀ n ∈ names, ∀ m ∈ names, ¬(n ++ "_").toList <+: m.toList)
    (hns : ∀ n ∈ ns, n ∈ names) (hms : ∀ m ∈ ms, m ∈ names) (h : spell ns = spell ms) :
    ns = ms := by
  induction ns generalizing ms with
  | nil =>
    cases ms with
    | nil => rfl
    | cons m ms => cases h
  | cons n ns ih =>
    cases ms with
    | nil => cases h
    | cons m ms =>
      obtain ⟨hn, hlater⟩ := forall_mem_cons.mp hns
      obtain ⟨hm, hlater'⟩ := forall_mem_cons.mp hms
      have htail := (List.cons.inj h).2
      -- the shorter of the first names is the start of the other
      rcases append_eq_append_iff.mp htail with ⟨cs, hm', hrest⟩ | ⟨cs, hn', hrest⟩
      · obtain rfl := eq_nil_of_spell (hapart n hn m hm) hm' hrest
        obtain rfl : n = m := String.toList_injective (by simpa using hm'.symm)
        rw [ih hlater hlater' hrest]
      obtain rfl := eq_nil_of_spell (hapart m hm n hn) hn' hrest
      obtain rfl : n = m := String.toList_injective (by simpa using hn')
      rw [ih hlater hlater' hrest.symm]

theorem Ty.text_struct_cons (n : String) (a : Ty) (args : List Ty) :
    (Ty.struct n (a :: args)).text =
      n ++ "<" ++ ", ".intercalate (Ty.texts (a :: args)) ++ ">" :=
  rfl

theorem Ty.texts_cons (t : Ty) (ts : List Ty) : Ty.texts (t :: ts) = t.text :: Ty.texts ts := rfl

/-- The text of arguments spells their tokens, if that of each does. -/
theorem plainFrom_texts (hts : ∀ t ∈ ts, plainFrom true t.text.toList = spell t.tokens) :
    plainFrom true (", ".intercalate (Ty.texts ts)).toList = spell (Ty.tokensOf ts) := by
  induction ts with
  | nil => rfl
  | cons t ts ih =>
    obtain ⟨ht, hts⟩ := forall_mem_cons.mp hts
    rw [Ty.tokensOf, spell_append, ← ht, ← ih hts]
    cases ts with
    | nil =>
      exact (append_nil _).symm
    | cons u ts =>
      rw [Ty.texts_cons, Ty.texts_cons, String.intercalate_cons_cons, String.toList_append,
        String.toList_append, append_assoc]
      exact plainFrom_append (fun c hc => by cases hc; rfl) true _

section

variable {env : Env} (hnames : env.WellNamed)

include hnames

/-- The text of a type spells its tokens. -/
theorem Legible.plainFrom_text (h : Legible env t) :
    plainFrom true t.text.toList = spell t.tokens := by
  have hneat {n : String} (hn : n ∈ env.typeNames) : plainFrom true n.toList = spell [n] := by
    rw [hnames.neat n hn]
    simp
  have hnamesOf := h.mem_typeNames
  induction h with
  | prim | enum => exact hneat (hnamesOf _ (mem_singleton_self _))
  | @struct n d parent fields args hd hbody hlength hargs ih =>
    have hn := hneat (hnamesOf n mem_cons_self)
    have htexts := plainFrom_texts fun a ha => ih a ha (hargs a ha).mem_typeNames
    cases args with
    | nil => exact hn
    | cons a args =>
      have hinner (inner : List Char) :
          plainFrom true ("<".toList ++ (inner ++ ">".toList)) = plainFrom true inner :=
        calc plainFrom true ("<".toList ++ (inner ++ ">".toList))
          _ = plainFrom true (inner ++ ['>']) := rfl
          _ = plainFrom true inner ++ [] := plainFrom_append (fun c hc => by cases hc; rfl) true _
          _ = plainFrom true inner := append_nil _
      rw [Ty.text_struct_cons, String.toList_append, String.toList_append, String.toList_append,
        append_assoc, append_assoc, plainFrom_append (fun c hc => by cases hc; rfl), hn,
        hinner, htexts, ← spell_append]
      rfl

variable {args : List Ty}

/-- The name of the sort of a struct type spells its tokens, but for the underscore at the start. -/
theorem toList_structSortName (h : Legible env (.struct n args)) :
    (structSortName (.struct n args)).toList = n.toList ++ spell (Ty.tokensOf args) := by
  have htext := h.plainFrom_text hnames
  obtain ⟨c, cs, hn, hc⟩ := (hnames.neat n (h.mem_typeNames n mem_cons_self)).starts
  -- the text starts with the name, so with a letter or a digit
  obtain ⟨rest, hrest⟩ : ∃ rest, (Ty.struct n args).text.toList = c :: rest := by
    cases args with
    | nil => exact ⟨cs, hn⟩
    | cons a args =>
      rw [Ty.text_struct_cons, String.append_assoc, String.append_assoc, String.toList_append, hn]
      exact ⟨_, rfl⟩
  rw [hrest, plainFrom, if_pos hc, if_pos rfl] at htext
  rw [structSortName, String.toList_ofList, hrest, plainFrom, if_pos hc, if_neg Bool.false_ne_true]
  exact (List.cons.inj htext).2

/-- It is the name of the struct, or starts with that and an underscore if there are parameters. -/
theorem structSortName_starts (h : Legible env (.struct n args)) :
    ∃ d ∈ env.defs, d.name = n ∧ d.isStruct ∧
      if d.params = [] then structSortName (.struct n args) = n
      else (n ++ "_").toList <+: (structSortName (.struct n args)).toList := by
  have htext := toList_structSortName hnames h
  cases h with
  | @struct _ d parent fields _ hd hbody hlength hargs =>
    refine ⟨d, mem_of_find?_eq_some hd, by simpa using find?_some hd,
      by rw [TypeDef.isStruct, hbody], ?_⟩
    cases args with
    | nil =>
      rw [if_pos (length_eq_zero_iff.mp hlength)]
      exact String.toList_injective (htext.trans (append_nil _))
    | cons a args =>
      have hparams : d.params ≠ [] := fun hparams => by simp [hparams] at hlength
      obtain ⟨m, ms, hm⟩ := exists_cons_of_ne_nil (hargs a mem_cons_self).tokens_ne_nil
      rw [if_neg hparams, htext, Ty.tokensOf, hm, cons_append, spell_cons]
      refine ⟨m.toList ++ spell (ms ++ Ty.tokensOf args), ?_⟩
      rw [String.toList_append, append_assoc]
      rfl

/-- What types spell tells their tokens. -/
theorem Legible.tokens_injective {t' : Ty} (h : Legible env t) (h' : Legible env t')
    (heq : spell t.tokens = spell t'.tokens) : t.tokens = t'.tokens := by
  by_cases hgeneric : env.Generic
  · exact spell_injective (hnames.apart hgeneric) h.mem_typeNames h'.mem_typeNames heq
  obtain ⟨n, hn⟩ := h.tokens_of_not_generic hgeneric
  obtain ⟨n', hn'⟩ := h'.tokens_of_not_generic hgeneric
  rw [hn, hn', spell_cons, spell_cons, spell_nil, append_nil, append_nil] at heq
  rw [hn, hn', String.toList_injective (List.cons.inj heq).2]

variable (hbuiltin : ∀ n d, env.lookup n = some d → Prim.ofName? n = none)

include hbuiltin

/-- Struct types have sorts of their own. -/
theorem structSortName_injective {n' args'} (h : Legible env (.struct n args))
    (h' : Legible env (.struct n' args'))
    (heq : structSortName (.struct n args) = structSortName (.struct n' args')) :
    n = n' ∧ args = args' := by
  have hspell : spell (Ty.struct n args).tokens = spell (Ty.struct n' args').tokens := by
    rw [Ty.tokens, Ty.tokens, spell_cons, spell_cons, ← toList_structSortName hnames h,
      ← toList_structSortName hnames h', heq]
  have htokens := h.tokens_injective hnames h' hspell
  have hread := h.read hbuiltin _ [] [] h' (by rw [htokens])
  exact Ty.struct.inj hread.1

end

end Statute
