import Statute.Proofs.Check.Formed
import Statute.Proofs.Conflict.Rendering
import Statute.Proofs.Conflict.Symmetry

/-!
# Which conflicts are found

A struct, an enum or a legal test that two programs declare is compared by the texts of its parts.
For enums these are the variants, so a conflict is found just when the lists of variants differ. For
legal tests it is found just when the names or types of the requirements differ: requirements are
truth values, and the few types of such can be told from their texts.

For structs a conflict is only found if the declarations differ, but they may differ and look the
same, `differences_unnoticed`. This does not happen where they are plainly written, `PlainStruct`.
-/

namespace Statute

open List

variable {s : String} {kinds : String → NameKind} {toLeft : Bool}

/-- There is a conflict of the kind about the name. -/
def Reported (a b : CheckedProgram) (kind : ConflictKind) (name : String) : Prop :=
  ∃ r, conflictReport? a b = some r ∧ ∃ c ∈ r.conflicts, c.kind = kind ∧ c.name = name

def Field.typed (f : Field) : String × Ty := (f.name, f.type)

def Requirement.typed (r : Requirement) : String × Ty := (r.name, r.type)

section Reports

variable {a b : CheckedProgram} {kind : ConflictKind} {name : String}

theorem reported_iff : Reported a b kind name ↔
    ∃ x y, Lists (conflictsBetween a.program.name b.program.name a.env b.env) kind name x y := by
  constructor
  · intro h
    obtain ⟨r, hr, c, hc, rfl, rfl⟩ := h
    rw [conflicts_of_report hr] at hc
    exact ⟨_, _, lists_of_mem hc⟩
  · intro h
    obtain ⟨x, y, hlists⟩ := h
    obtain ⟨r, hr, c, hc, hkind, hname, -⟩ := exists_report hlists
    exact ⟨r, hr, c, hc, hkind, hname⟩

/-- A name that both programs declare as of one kind is reported if its shapes differ. -/
theorem reported_iff_members (kind : ConflictKind) (ha : a.env.Distinct) (hb : b.env.Distinct)
    {s t : DeclaredShape} (hs : (a.env.shapes kind).get? name = some s)
    (ht : (b.env.shapes kind).get? name = some t) :
    Reported a b kind name ↔ s.members ≠ t.members := by
  rw [reported_iff]
  constructor
  · intro h
    obtain ⟨x, y, hlists⟩ := h
    rcases lists_conflictsBetween.mp hlists with
      ⟨s', t', hs', ht', hne, -⟩ | ⟨rfl, ⟨s', t', -, ht', -⟩ | ⟨t', s', -, hs', -⟩⟩
    · grind
    · exact (hb.struct_ne_enum ht ht').elim
    · exact (ha.struct_ne_enum hs hs').elim
  · intro hne
    exact ⟨s.span, t.span, lists_conflictsBetween.mpr (.inl ⟨s, t, hs, ht, hne, rfl, rfl⟩)⟩

end Reports

/-!
## Types of accepted programs
-/

theorem comma_notMem_subsection (h : Citation.isSubsection s) : ',' ∉ s.toList := by
  have hdigit : Decimal.isDigit ',' = false := by decide
  have hletter : Citation.isLetter ',' = false := by decide
  have hall {p : Char → Bool} {cs : List Char} (hp : p ',' = false) (hcs : cs.all p = true) :
      ',' ∉ cs := by
    intro hmem
    rw [all_eq_true.mp hcs ',' hmem] at hp
    cases hp
  unfold Citation.isSubsection at h
  simp only [Bool.or_eq_true, Bool.and_eq_true] at h
  rcases h with (h | h) | ⟨-, h⟩
  · exact hall hdigit h
  · exact hall hletter h
  -- digits first, and letters after them
  rw [← takeWhile_append_dropWhile (p := Decimal.isDigit) (l := s.toList), mem_append]
  intro hmem
  rcases hmem with hmem | hmem
  · exact hall hdigit all_takeWhile hmem
  · exact hall hletter h hmem

theorem isSubsection_of_problem? {c : Citation} (h : c.problem? = none) :
    Citation.isSubsection c.subsection := by
  unfold Citation.problem? at h
  split at h
  · cases h
  split at h
  · cases h
  split at h
  · cases h
  split at h
  · cases h
  split at h
  · split at h
    next hsub => exact hsub
    · cases h
  · cases h

variable {n : String} {t : Ty}

section Accepted

variable {p : Program} {options : CheckOptions} {cp : CheckedProgram}

theorem ofName?_of_hasStruct (h : p.check options = .ok cp) {arity : Nat}
    (hn : cp.env.HasStruct n arity) : Prim.ofName? n = none := by
  obtain ⟨id, hid, -⟩ := hn
  have hplace : cp.env.idOf? n = some id := (Option.filter_eq_some_iff.mp hid).1
  obtain ⟨hlt, hname, -⟩ := findIdx?_eq_some_iff_getElem.mp hplace
  have hsome : (cp.env.lookup n).isSome = true :=
    find?_isSome.mpr ⟨_, getElem_mem hlt, hname⟩
  obtain ⟨d, hd⟩ := Option.isSome_iff_exists.mp hsome
  exact (lookup_of_check h hd).2.2

theorem wordedHere_of_sound (h : p.check options = .ok cp) (ht : t.SoundHere cp.env) :
    t.WordedHere := by
  cases t with
  | unknown => exact ht
  | struct n args => exact ofName?_of_hasStruct h ht
  | enum n =>
    replace ht : (cp.env.enum? n).isSome = true := ht
    unfold Env.enum? at ht
    split at ht
    next hd => exact (lookup_of_check h hd).2.2
    · cases ht
  | citation c => exact comma_notMem_subsection (isSubsection_of_problem? ht)
  | moneyIn code =>
    intro hmem
    exact absurd (ht.2 '>' hmem) (by decide)
  | _ => trivial

/-- A plain type of an accepted program can be read back from its text. -/
theorem readable_of_check (h : p.check options = .ok cp) (ht : t ∈ cp.env.types)
    (hplain : ∀ u ∈ t.parts, u.PlainHere kinds toLeft) : t.Readable kinds toLeft :=
  fun u hu => ⟨hplain u hu, wordedHere_of_sound h (sound_types_of_check h t ht u hu)⟩

theorem type_mem_types {d : TypeDef} (hd : d ∈ cp.env.defs) {parent fields}
    (hbody : d.body = .struct parent fields) {f : Field} (hf : f ∈ fields) :
    f.type ∈ cp.env.types := by
  refine mem_append_left _ (mem_flatMap.mpr ⟨d, hd, ?_⟩)
  unfold TypeDef.types
  rw [hbody]
  exact mem_map_of_mem hf

/-- A truth value is a built-in type, perhaps with periods around it: nothing in it misleads. -/
theorem plain_of_core_bool {env : Env} (ht : t.Sound env) (hcore : t.core = .bool)
    (kinds : String → NameKind) (toLeft : Bool) :
    (∀ u ∈ t.parts, u.PlainHere kinds toLeft) ∧ ':' ∉ t.text.toList := by
  have hnumeric {u : Ty} (hu : u.core = .bool) : ¬u.isNumeric = true := by
    rw [← Ty.isNumeric_core, hu]
    decide
  have hdate (d : Option Date) : ':' ∉ (Ty.dateText d).toList := fun hmem =>
    not_isNumberMark (by decide) (isNumberMark_of_mem_dateText hmem)
  fun_induction Ty.core t with
  -- limits and `Positive` only go around numbers
  | case1 base lo hi ih => exact absurd (Ty.Every.refine_iff.mp ht).1.1 (hnumeric hcore)
  | case3 inner ih => exact absurd (Ty.Every.positive_iff.mp ht).1 (hnumeric hcore)
  | case2 inner opens closes ih =>
    obtain ⟨hparts, htext⟩ := ih (Ty.Every.temporal_iff.mp ht).2 hcore
    refine ⟨Ty.Every.temporal_iff.mpr ⟨trivial, hparts⟩, ?_⟩
    rw [Ty.text.eq_def]
    simp [htext, hdate]
  | case4 inner ih =>
    obtain ⟨hparts, htext⟩ := ih (Ty.Every.nonEmpty_iff.mp ht).2 hcore
    refine ⟨Ty.Every.nonEmpty_iff.mpr ⟨trivial, hparts⟩, ?_⟩
    rw [Ty.text.eq_def]
    simp [htext]
  | case8 q =>
    cases hcore
    exact ⟨Ty.Every.leaf rfl trivial, by decide⟩
  | case5 | case6 | case7 | case9 | case10 | case11 | case12 | case13 | case14 => cases hcore

end Accepted

/-!
## The texts of members
-/

theorem toList_typedText (n : String) (t : Ty) :
    (typedText n t).toList = n.toList ++ ':' :: ' ' :: t.text.toList := by
  simp [typedText]

/-- What is told by each of some texts is told by all of them. -/
theorem map_eq_of_texts {α β : Type} {text : α → String} {part : α → β} {xs ys : List α}
    (hpart : ∀ x ∈ xs, ∀ y ∈ ys, text x = text y → part x = part y)
    (h : xs.map text = ys.map text) : xs.map part = ys.map part := by
  induction xs generalizing ys with
  | nil =>
    cases ys with
    | nil => rfl
    | cons => cases h
  | cons x xs ih =>
    cases ys with
    | nil => cases h
    | cons y ys => grind

/-- A struct is plainly written: the names of type parameters and fields are words, and nothing in
the types of the fields misleads. -/
structure PlainStruct (kinds : String → NameKind) (toLeft : Bool) (params : List String)
    (fields : List Field) : Prop where
  params : ∀ n ∈ params, IsWord n
  names : ∀ f ∈ fields, IsWord f.name
  types : ∀ f ∈ fields, ∀ u ∈ f.type.parts, u.PlainHere kinds toLeft

/-- The first of the marks by which the members of a struct are told apart. -/
def memberMark (s : String) : Option Char := s.toList.find? fun c => ['<', ' ', ':'].contains c

theorem memberMark_params (s : String) : memberMark ("<" ++ s ++ ">") = some '<' := by
  simp [memberMark]

theorem memberMark_parent (s : String) : memberMark ("extends " ++ s) = some ' ' := by
  simp [memberMark]

theorem memberMark_field (hn : IsWord n) (t : Ty) : memberMark (typedText n t) = some ':' := by
  have hnone : n.toList.find? (fun c => ['<', ' ', ':'].contains c) = none := by
    refine find?_eq_none.mpr fun c hc hmark => hn.2 c hc ?_
    have hsub : ['<', ' ', ':'] ⊆ typeMarks := by decide
    exact hsub (contains_iff_mem.mp hmark)
  rw [memberMark, toList_typedText, find?_append, hnone]
  rfl

/-- The member for type parameters, if there are any. -/
def paramsMember (params : List String) : List String :=
  if params.isEmpty then [] else ["<" ++ ", ".intercalate params ++ ">"]

/-- The member for the parent, if there is one. -/
def parentMember (parent : Option String) : List String :=
  (parent.map fun n => "extends " ++ n).toList

/-- The member for a field. -/
def fieldMember (f : Field) : String := typedText f.name f.type

theorem members_structShape (env : Env) (d : TypeDef) (parent : Option Nat) (fields : List Field) :
    (structShape env d parent fields).members =
      paramsMember d.params ++ parentMember (parent.map env.nameOf) ++ fields.map fieldMember := by
  unfold parentMember
  rw [Option.map_map]
  rfl

section Members

variable {params params' : List String} {parent parent' : Option String}
  {fields fields' : List Field}

theorem memberMark_of_mem_params (h : s ∈ paramsMember params) : memberMark s = some '<' := by
  unfold paramsMember at h
  split at h
  · cases h
  · grind [memberMark_params]

theorem memberMark_of_mem_parent (h : s ∈ parentMember parent) : memberMark s = some ' ' := by
  obtain ⟨n, -, rfl⟩ := Option.map_eq_some_iff.mp (Option.mem_toList.mp h)
  exact memberMark_parent n

theorem memberMark_of_mem_fields (hnames : ∀ f ∈ fields, IsWord f.name)
    (h : s ∈ fields.map fieldMember) : memberMark s = some ':' := by
  obtain ⟨f, hf, rfl⟩ := mem_map.mp h
  exact memberMark_field (hnames f hf) f.type

theorem filter_marked {xs : List String} {m : Option Char} (h : ∀ s ∈ xs, memberMark s = m)
    (m' : Option Char) :
    (xs.filter fun s => memberMark s == m') = if m = m' then xs else [] := by
  split
  next heq => exact filter_eq_self.mpr fun s hs => beq_iff_eq.mpr ((h s hs).trans heq)
  next hne =>
    exact filter_eq_nil_iff.mpr fun s hs heq => hne ((h s hs).symm.trans (beq_iff_eq.mp heq))

/-- Members with different marks are told apart. -/
theorem members_injective (hnames : ∀ f ∈ fields, IsWord f.name)
    (hnames' : ∀ f ∈ fields', IsWord f.name)
    (h : paramsMember params ++ parentMember parent ++ fields.map fieldMember =
      paramsMember params' ++ parentMember parent' ++ fields'.map fieldMember) :
    paramsMember params = paramsMember params' ∧ parentMember parent = parentMember parent' ∧
      fields.map fieldMember = fields'.map fieldMember := by
  -- each of the three parts is what is left of the whole for one mark
  have hmarked (m : Option Char) := congrArg (List.filter fun s => memberMark s == m) h
  simp only [filter_append, filter_marked fun s => memberMark_of_mem_params,
    filter_marked fun s => memberMark_of_mem_parent,
    filter_marked fun s => memberMark_of_mem_fields hnames,
    filter_marked fun s => memberMark_of_mem_fields hnames'] at hmarked
  exact ⟨by simpa using hmarked (some '<'), by simpa using hmarked (some ' '),
    by simpa using hmarked (some ':')⟩

theorem params_of_member (hwords : ∀ n ∈ params, IsWord n) (hwords' : ∀ n ∈ params', IsWord n)
    (h : paramsMember params = paramsMember params') : params = params' := by
  cases params with
  | nil =>
    cases params' with
    | nil => rfl
    | cons => cases h
  | cons n params =>
    cases params' with
    | nil => cases h
    | cons n' params' =>
      have hinside : (", ".intercalate (n :: params)).toList =
          (", ".intercalate (n' :: params')).toList := by
        simpa using congrArg String.toList (List.cons.inj h).1
      rw [toList_comma_intercalate, toList_comma_intercalate] at hinside
      have hcomma {m : String} (hm : IsWord m) : ',' ∉ m.toList := fun hmem => hm.2 ',' hmem (by decide)
      exact eq_of_laterTexts (fun m hm => hcomma (hwords m hm)) (fun m hm => hcomma (hwords' m hm))
        (congrArg (',' :: ' ' :: ·) hinside)

theorem parent_of_member (h : parentMember parent = parentMember parent') : parent = parent' := by
  cases parent with
  | none =>
    cases parent' with
    | none => rfl
    | some => cases h
  | some n =>
    cases parent' with
    | none => cases h
    | some n' => rw [String.append_right_inj "extends " |>.mp (List.cons.inj h).1]

theorem fields_of_members (hnames : ∀ f ∈ fields, IsWord f.name)
    (hnames' : ∀ f ∈ fields', IsWord f.name) (htypes : ∀ f ∈ fields, f.type.Readable kinds toLeft)
    (htypes' : ∀ f ∈ fields', f.type.Readable kinds toLeft)
    (h : fields.map fieldMember = fields'.map fieldMember) :
    fields.map Field.typed = fields'.map Field.typed := by
  refine map_eq_of_texts (fun f hf f' hf' heq => ?_) h
  have hcolon {n : String} (hn : IsWord n) : ':' ∉ n.toList := fun hmem => hn.2 ':' hmem (by decide)
  have hlists := congrArg String.toList heq
  unfold fieldMember at hlists
  rw [toList_typedText, toList_typedText] at hlists
  obtain ⟨hname, htext⟩ := eq_of_mark (hcolon (hnames f hf)) (hcolon (hnames' f' hf')) hlists
  have htype := (htypes f hf).text_injective (htypes' f' hf')
    (String.toList_injective (List.cons.inj htext).2)
  exact Prod.ext hname htype

end Members

/-!
## What is reported
-/

section Exact

variable {p q : Program} {options options' : CheckOptions} {a b : CheckedProgram}

/-- Enums are compared by their variants. -/
theorem reported_enum_iff (ha : p.check options = .ok a) (hb : q.check options' = .ok b)
    {d e : TypeDef} (hd : d ∈ a.env.defs) (he : e ∈ b.env.defs) (hname : d.name = e.name)
    {info info' : EnumInfo} (hbody : d.body = .enum info) (hbody' : e.body = .enum info') :
    Reported a b .enum d.name ↔ info.variants ≠ info'.variants := by
  have hda := distinct_of_check ha
  have hdb := distinct_of_check hb
  exact reported_iff_members .enum hda hdb
    (hda.get?_enumShapes.mpr ⟨d, hd, rfl, info, hbody, rfl⟩)
    (hdb.get?_enumShapes.mpr ⟨e, he, hname.symm, info', hbody', rfl⟩)

theorem plain_of_requirement (h : p.check options = .ok a) {t : LegalTest} (ht : t ∈ a.env.tests)
    {r : Requirement} (hr : r ∈ t.requirements) (kinds : String → NameKind) (toLeft : Bool) :
    r.type.Readable kinds toLeft ∧ ':' ∉ r.type.text.toList := by
  have hmem : r.type ∈ a.env.types :=
    mem_append_right _ (Env.mem_signatureTypes.mpr (.inl ⟨t, ht, mem_map_of_mem hr⟩))
  have hcore : r.type.core = .bool := (proper_of_check h ht).2 r hr
  obtain ⟨hplain, hcolon⟩ := plain_of_core_bool (sound_types_of_check h r.type hmem) hcore kinds toLeft
  exact ⟨readable_of_check h hmem hplain, hcolon⟩

/-- Legal tests are compared by their requirements. -/
theorem reported_test_iff (ha : p.check options = .ok a) (hb : q.check options' = .ok b)
    {t u : LegalTest} (ht : t ∈ a.env.tests) (hu : u ∈ b.env.tests) (hname : t.name = u.name) :
    Reported a b .legalTest t.name ↔
      t.requirements.map Requirement.typed ≠ u.requirements.map Requirement.typed := by
  have hda := distinct_of_check ha
  have hdb := distinct_of_check hb
  rw [reported_iff_members .legalTest hda hdb (hda.get?_testShapes.mpr ⟨t, ht, rfl, rfl⟩)
    (hdb.get?_testShapes.mpr ⟨u, hu, hname.symm, rfl⟩)]
  refine not_congr ⟨fun h => ?_, fun h => ?_⟩
  · refine map_eq_of_texts (fun r hr s hs heq => ?_) h
    let kinds : String → NameKind := fun _ => .struct
    obtain ⟨hread, hcolon⟩ := plain_of_requirement ha ht hr kinds true
    obtain ⟨hread', hcolon'⟩ := plain_of_requirement hb hu hs kinds true
    have hlists := congrArg String.toList heq
    rw [toList_typedText, toList_typedText] at hlists
    -- types have no colon, so the name ends at the last one
    obtain ⟨hname, htext⟩ := eq_of_last_mark (by simpa using hcolon) (by simpa using hcolon') hlists
    have htype := hread.text_injective hread' (String.toList_injective (List.cons.inj htext).2)
    exact Prod.ext hname htype
  · have hmembers := congrArg (List.map fun r => typedText r.1 r.2) h
    rwa [map_map, map_map] at hmembers

end Exact

/-- The declarations of a struct in two programs have the same type parameters, the same name of the
parent, and fields of the same names and types. -/
def SameStruct (a b : Env) (d e : TypeDef) (parent parent' : Option Nat)
    (fields fields' : List Field) : Prop :=
  d.params = e.params ∧ parent.map a.nameOf = parent'.map b.nameOf ∧
    fields.map Field.typed = fields'.map Field.typed

section Structs

variable {p q : Program} {options options' : CheckOptions} {a b : CheckedProgram}
  {d e : TypeDef} {parent parent' : Option Nat} {fields fields' : List Field}

theorem reported_struct_iff (ha : p.check options = .ok a) (hb : q.check options' = .ok b)
    (hd : d ∈ a.env.defs) (he : e ∈ b.env.defs) (hname : d.name = e.name)
    (hbody : d.body = .struct parent fields) (hbody' : e.body = .struct parent' fields') :
    Reported a b .struct d.name ↔
      (structShape a.env d parent fields).members ≠ (structShape b.env e parent' fields').members := by
  have hda := distinct_of_check ha
  have hdb := distinct_of_check hb
  exact reported_iff_members .struct hda hdb
    (hda.get?_structShapes.mpr ⟨d, hd, rfl, parent, fields, hbody, rfl⟩)
    (hdb.get?_structShapes.mpr ⟨e, he, hname.symm, parent', fields', hbody', rfl⟩)

theorem SameStruct.members (h : SameStruct a.env b.env d e parent parent' fields fields') :
    (structShape a.env d parent fields).members =
      (structShape b.env e parent' fields').members := by
  obtain ⟨hparams, hparent, hfields⟩ := h
  have hmembers := congrArg (List.map fun f => typedText f.1 f.2) hfields
  rw [map_map, map_map] at hmembers
  rw [members_structShape, members_structShape, hparams, hparent]
  exact congrArg _ hmembers

/-- Plainly written declarations with the same members are the same. -/
theorem sameStruct_of_members (ha : p.check options = .ok a) (hb : q.check options' = .ok b)
    (hd : d ∈ a.env.defs) (he : e ∈ b.env.defs) (hbody : d.body = .struct parent fields)
    (hbody' : e.body = .struct parent' fields') (hplain : PlainStruct kinds toLeft d.params fields)
    (hplain' : PlainStruct kinds toLeft e.params fields') (h : (structShape a.env d parent
      fields).members = (structShape b.env e parent' fields').members) :
    SameStruct a.env b.env d e parent parent' fields fields' := by
  rw [members_structShape, members_structShape] at h
  obtain ⟨hparams, hparent, hfields⟩ := members_injective hplain.names hplain'.names h
  refine ⟨params_of_member hplain.params hplain'.params hparams, parent_of_member hparent, ?_⟩
  have htypes : ∀ f ∈ fields, f.type.Readable kinds toLeft := fun f hf =>
    readable_of_check ha (type_mem_types hd hbody hf) (hplain.types f hf)
  have htypes' : ∀ f ∈ fields', f.type.Readable kinds toLeft := fun f hf =>
    readable_of_check hb (type_mem_types he hbody' hf) (hplain'.types f hf)
  exact fields_of_members hplain.names hplain'.names htypes htypes' hfields

end Structs

/-- For enums and legal tests of one name a conflict is found just when they are declared
differently. For structs it is found only if they are, and if they are plainly written, just when
they are. -/
theorem conflicts_exact {p q : Program} {options options' : CheckOptions} {a b : CheckedProgram}
    (ha : p.check options = .ok a) (hb : q.check options' = .ok b) :
    (∀ d ∈ a.env.defs, ∀ e ∈ b.env.defs, d.name = e.name → ∀ info info', d.body = .enum info →
      e.body = .enum info' → (Reported a b .enum d.name ↔ info.variants ≠ info'.variants)) ∧
    (∀ t ∈ a.env.tests, ∀ u ∈ b.env.tests, t.name = u.name →
      (Reported a b .legalTest t.name ↔
        t.requirements.map Requirement.typed ≠ u.requirements.map Requirement.typed)) ∧
    ∀ d ∈ a.env.defs, ∀ e ∈ b.env.defs, d.name = e.name → ∀ parent fields parent' fields',
      d.body = .struct parent fields → e.body = .struct parent' fields' →
      (Reported a b .struct d.name → ¬SameStruct a.env b.env d e parent parent' fields fields') ∧
      ∀ kinds toLeft, PlainStruct kinds toLeft d.params fields →
        PlainStruct kinds toLeft e.params fields' →
        (Reported a b .struct d.name ↔
          ¬SameStruct a.env b.env d e parent parent' fields fields') := by
  refine ⟨fun d hd e he hname info info' => reported_enum_iff ha hb hd he hname,
    fun t ht u hu => reported_test_iff ha hb ht hu, ?_⟩
  intro d hd e he hname parent fields parent' fields' hbody hbody'
  have hreported := reported_struct_iff ha hb hd he hname hbody hbody'
  have hdiffers (h : Reported a b .struct d.name) :
      ¬SameStruct a.env b.env d e parent parent' fields fields' :=
    fun hsame => hreported.mp h hsame.members
  refine ⟨hdiffers, fun kinds toLeft hplain hplain' => ⟨hdiffers, fun hne => ?_⟩⟩
  refine hreported.mpr fun hmembers => hne ?_
  exact sameStruct_of_members ha hb hd he hbody hbody' hplain hplain' hmembers

/-!
Two codes of sanctions that differ in the highest fine and in whether a hearing is for a period.
-/

/-- A code with its highest fine and with the type of hearings. -/
def sanctionCode (limit : Int) (hearing : TypeExpr) : Program where
  name := "sanctions"
  items :=
    [.enum ⟨{}, "Verdict", ["Upheld", "Quashed"], false⟩,
      .struct ⟨{}, "Measure", [], none, []⟩,
      .struct ⟨{}, "Sanction", ["T"], some "Measure",
        [⟨{}, "basis", .citation {} ⟨"12", "3a", "Penal Code"⟩, none⟩,
          ⟨{}, "fine", .union {} (.refine {} (.prim {} .int) (some 0) (some limit))
            (.moneyIn {} "USD"), none⟩,
          ⟨{}, "targets", .array {} (.var {} "T"), none⟩,
          ⟨{}, "verdict", .temporal {} (.named {} "Verdict" []) none none, none⟩]⟩,
      .test ⟨{}, "Fair", [⟨{}, "heard", hearing⟩]⟩]

def verdictDef : TypeDef := ⟨"Verdict", {}, [], .enum ⟨"Verdict", ["Upheld", "Quashed"], false⟩⟩

def sanctionFields (limit : Int) : List Field :=
  [⟨"basis", .citation ⟨"12", "3a", "Penal Code"⟩, {}, none, "Sanction"⟩,
    ⟨"fine", .union (.refine .int (some 0) (some limit)) (.moneyIn "USD"), {}, none, "Sanction"⟩,
    ⟨"targets", .array (.var "T"), {}, none, "Sanction"⟩,
    ⟨"verdict", .temporal (.enum "Verdict") none none, {}, none, "Sanction"⟩]

def sanctionDef (limit : Int) : TypeDef :=
  ⟨"Sanction", {}, ["T"], .struct (some 1) (sanctionFields limit)⟩

def fairTest (hearing : Ty) : LegalTest := ⟨"Fair", {}, [⟨"heard", hearing, {}⟩]⟩

def sanctionEnv (limit : Int) (hearing : Ty) : Env where
  defs := [verdictDef, ⟨"Measure", {}, [], .struct none []⟩, sanctionDef limit]
  tests := [fairTest hearing]

theorem check_permanent : (sanctionCode 100 (.prim {} .bool)).check =
    .ok ⟨sanctionCode 100 (.prim {} .bool), sanctionEnv 100 .bool, []⟩ := check_eq_ok rfl

theorem check_temporary : (sanctionCode 500 (.temporal {} (.prim {} .bool) none none)).check =
    .ok ⟨sanctionCode 500 (.temporal {} (.prim {} .bool) none none),
      sanctionEnv 500 (.temporal .bool none none), []⟩ := check_eq_ok rfl

/-- What the names in the code stand for. -/
def sanctionKinds (n : String) : NameKind :=
  if n = "Verdict" then .enum else if n = "T" then .variable else .struct

/-- The codes agree on verdicts, and differ on sanctions and on what is fair. -/
theorem sanctions_compared_exactly :
    let a : CheckedProgram :=
      ⟨sanctionCode 100 (.prim {} .bool), sanctionEnv 100 .bool, []⟩
    let b : CheckedProgram := ⟨sanctionCode 500 (.temporal {} (.prim {} .bool) none none),
      sanctionEnv 500 (.temporal .bool none none), []⟩
    (sanctionCode 100 (.prim {} .bool)).check = .ok a ∧
    (sanctionCode 500 (.temporal {} (.prim {} .bool) none none)).check = .ok b ∧
    PlainStruct sanctionKinds true ["T"] (sanctionFields 100) ∧
    PlainStruct sanctionKinds true ["T"] (sanctionFields 500) ∧
    ¬Reported a b .enum "Verdict" ∧ Reported a b .legalTest "Fair" ∧
    Reported a b .struct "Sanction" := by
  intro a b
  obtain ⟨henum, htest, hstruct⟩ := conflicts_exact check_permanent check_temporary
  have hplain : PlainStruct sanctionKinds true ["T"] (sanctionFields 100) :=
    ⟨by decide, by decide, by decide⟩
  have hplain' : PlainStruct sanctionKinds true ["T"] (sanctionFields 500) :=
    ⟨by decide, by decide, by decide⟩
  refine ⟨check_permanent, check_temporary, hplain, hplain', fun h => ?_, ?_, ?_⟩
  · exact (henum verdictDef mem_cons_self verdictDef mem_cons_self rfl _ _ rfl rfl).mp h rfl
  · refine (htest (fairTest .bool) mem_cons_self _ mem_cons_self rfl).mpr ?_
    simp [fairTest, Requirement.typed]
  · have hmem (limit : Int) (hearing : Ty) :
        sanctionDef limit ∈ (sanctionEnv limit hearing).defs := by simp [sanctionEnv]
    refine ((hstruct (sanctionDef 100) (hmem 100 _) (sanctionDef 500) (hmem 500 _) rfl _ _ _ _ rfl
      rfl).2 sanctionKinds true hplain hplain').mpr fun hsame => ?_
    have hfields : (sanctionFields 100).map Field.typed = (sanctionFields 500).map Field.typed :=
      hsame.2.2
    simp [sanctionFields, Field.typed] at hfields

/-!
## Differences that are overlooked
-/

/-- Two accepted programs declare a struct differently, and no conflict is found about it. -/
def Overlooked (p q : Program) : Prop :=
  ∃ a b, p.check = .ok a ∧ q.check = .ok b ∧ ∃ d ∈ a.env.defs, ∃ e ∈ b.env.defs, d.name = e.name ∧
    ∃ parent fields parent' fields', d.body = .struct parent fields ∧
      e.body = .struct parent' fields' ∧
      ¬SameStruct a.env b.env d e parent parent' fields fields' ∧ ¬Reported a b .struct d.name

/-- A rule rests on something. -/
def ruleOn (items : List Item) (basis : TypeExpr) : Program where
  name := "rules"
  items := items ++ [.struct ⟨{}, "Rule", [], none, [⟨{}, "basis", basis, none⟩]⟩]

def ruleDef (basis : Ty) : TypeDef :=
  ⟨"Rule", {}, [], .struct none [⟨"basis", basis, {}, none, "Rule"⟩]⟩

/-- What a rule rests on is only seen by its text. -/
theorem overlooked_of_text {p q : Program} {a b : CheckedProgram} {u : Ty} (ha : p.check = .ok a)
    (hb : q.check = .ok b) (ht : ruleDef t ∈ a.env.defs) (hu : ruleDef u ∈ b.env.defs) (hne : t ≠ u)
    (htext : t.text = u.text) : Overlooked p q := by
  refine ⟨a, b, ha, hb, ruleDef t, ht, ruleDef u, hu, rfl, none, _, none, _, rfl, rfl,
    fun hsame => hne ?_, fun hreported => ?_⟩
  · exact (Prod.ext_iff.mp (List.cons.inj hsame.2.2).1).2
  · refine (reported_struct_iff ha hb ht hu rfl rfl rfl).mp hreported ?_
    simp [structShape, ruleDef, typedText, htext]

/-- Rules that rest on different things of the same text: two citations, two groupings of a union, a
union with limits and one whose last alternative has limits, an enum and a struct of one name, and a
struct that is named like a form. -/
theorem differences_unnoticed :
    Overlooked (ruleOn [] (.citation {} ⟨"1, 2", "3", "Penal Code"⟩))
      (ruleOn [] (.citation {} ⟨"1", "2", "3, Penal Code"⟩)) ∧
    Overlooked (ruleOn [] (.union {} (.union {} (.prim {} .int) (.prim {} .bool)) (.prim {} .string)))
      (ruleOn [] (.union {} (.prim {} .int) (.union {} (.prim {} .bool) (.prim {} .string)))) ∧
    Overlooked
      (ruleOn [] (.refine {} (.union {} (.prim {} .int) (.prim {} .float)) (some 0) (some 9)))
      (ruleOn [] (.union {} (.prim {} .int) (.refine {} (.prim {} .float) (some 0) (some 9)))) ∧
    Overlooked
      (ruleOn [.enum ⟨{}, "Ground", ["Custom"], false⟩] (.named {} "Ground" []))
      (ruleOn [.struct ⟨{}, "Ground", [], none, []⟩] (.named {} "Ground" [])) ∧
    Overlooked
      (ruleOn [.struct ⟨{}, "Positive", ["T"], none, []⟩]
        (.named {} "Positive" [.prim {} .int]))
      (ruleOn [] (.positive {} (.prim {} .int))) := by
  refine ⟨?_, ?_, ?_, ?_, ?_⟩
  · exact overlooked_of_text (check_eq_ok rfl) (check_eq_ok rfl) mem_cons_self
      mem_cons_self (by simp) rfl
  · exact overlooked_of_text (check_eq_ok rfl) (check_eq_ok rfl) mem_cons_self
      mem_cons_self (by simp) rfl
  · exact overlooked_of_text (check_eq_ok rfl) (check_eq_ok rfl) mem_cons_self
      mem_cons_self (by simp) rfl
  · exact overlooked_of_text (check_eq_ok rfl) (check_eq_ok rfl)
      (mem_cons_of_mem _ mem_cons_self) (mem_cons_of_mem _ mem_cons_self)
      (by simp) rfl
  · exact overlooked_of_text (check_eq_ok rfl) (check_eq_ok rfl)
      (mem_cons_of_mem _ mem_cons_self) mem_cons_self (by simp) rfl

end Statute
