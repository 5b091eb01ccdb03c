import Statute.Logic.Vocabulary
import Statute.Lowering.Types
import Statute.Program.Item

/-!
# Drafts of forms

Lowering builds up a draft: the vocabulary so far, the symbols in use, what is assumed about
constants. The draft survives obstacles: when the value of a declared name cannot be lowered, the
name stays a constant about which nothing is assumed, and what was declared on the way stays too.
-/

namespace Statute

open Logic

/-- What lowering has built so far. -/
structure Draft where
  vocabulary : Vocabulary := {}
  /-- Symbols that may not be given out again. -/
  used : List String := []
  /-- Declared values that have become constants. -/
  declared : List String := []
  /-- The struct type that each free sort stands for: name and arguments. -/
  structs : List (String × String × List Ty) := []
  assumptions : List Term := []
  warnings : List String := []

/-- A step of lowering: it changes the draft and may meet an obstacle. -/
abbrev Lowering := ExceptT Obstacle (StateM Draft)

/-- A lowered expression and its sort. -/
abbrev Lowered := Term × SmtSort

namespace Lowering

/-- Stops at an obstacle. -/
def stop {α : Type} (f : LoweringFault) (span : Span) : Lowering α := throw ⟨f, span⟩

/-- Goes on with a result that may be an obstacle. -/
def ofExcept {α : Type} : Except Obstacle α → Lowering α
  | .ok a => pure a
  | .error o => throw o

/-- Runs a step and looks at its outcome; the draft keeps what the step did either way. -/
def observe {α : Type} (x : Lowering α) : Lowering (Except Obstacle α) :=
  ExceptT.mk (do return .ok (← x.run))

def addSort (d : SortDecl) : Lowering Unit :=
  modify fun s => { s with vocabulary := s.vocabulary.addSort d }

def addFunction (d : FunDecl) : Lowering Unit :=
  modify fun s => { s with vocabulary := s.vocabulary.addFunction d }

def addConstant (d : ConstDecl) : Lowering Unit :=
  modify fun s => { s with vocabulary := s.vocabulary.addConstant d }

def assume (t : Term) : Lowering Unit :=
  modify fun s => { s with assumptions := s.assumptions ++ [t] }

def warn (text : String) : Lowering Unit :=
  modify fun s => { s with warnings := s.warnings ++ [text] }

end Lowering

/-- The first of `name`, `name@2`, `name@3` and so on that is not in use. Among one more candidates
than there are symbols in use one is free. -/
def freshSymbol (used : List String) (name : String) : String :=
  if used.contains name then
    (((List.range (used.length + 1)).map fun i => s!"{name}@{i + 2}").find? fun s =>
      !used.contains s).getD name
  else name

/-- Gives out a symbol for a name. -/
def Lowering.fresh (name : String) : Lowering String := do
  let s ← get
  let symbol := freshSymbol s.used name
  set { s with used := s.used ++ [symbol] }
  return symbol

/-- A text reduced to ASCII letters, digits and single underscores for whatever stands between
them; `pending` says that an underscore is due. -/
def plainFrom (pending : Bool) : List Char → List Char
  | [] => []
  | c :: cs =>
    if c.isAlphanum then
      if pending then '_' :: c :: plainFrom false cs else c :: plainFrom false cs
    else plainFrom true cs

/-- The name of the free sort of a struct type, such as `Box_int` for `Box<int>`. -/
def structSortName (t : Ty) : String := String.ofList (plainFrom false t.text.toList)

/-- The sort of an enum, which is declared on first use. -/
def enumSort (env : Env) (name : String) : Lowering SmtSort := do
  match env.enum? name with
  | some info => Lowering.addSort (.enum info.name info.variants)
  | none => pure ()
  return .enum name

/-- The sort of a type and the limits that the type puts on its values. Sorts are declared on first
use. -/
def sortOf (env : Env) (span : Span) : Ty → Lowering (SmtSort × Limits)
  | .prim p =>
    match p with
    | .int | .date | .duration => pure (.int, none, none)
    | .float | .money | .percent => pure (.real, none, none)
    | .bool => pure (.bool, none, none)
    | .string => pure (.string, none, none)
    | .pass => Lowering.stop .passType span
  | .struct n args => do
    let name := structSortName (.struct n args)
    modify fun s =>
      if (s.structs.lookup name).isSome then s
      else { s with structs := s.structs ++ [(name, n, args)] }
    Lowering.addSort (.free name)
    return (.free name, none, none)
  | .enum name => do return (← enumSort env name, none, none)
  | .refine base lo hi => do
    let (s, _) ← sortOf env span base
    return (s, lo, hi)
  | .citation _ => pure (.string, none, none)
  | .temporal inner _ _ => sortOf env span inner
  | .positive inner =>
    if inner.core.isInt then do
      let (s, _) ← sortOf env span inner
      return (s, (Ty.positive inner).limits?.getD (none, none))
    else Lowering.stop (.noSort (.positive inner)) span
  | .validDate after before =>
    pure (.int, after.map fun d => d.dayNumber + 1, before.map fun d => d.dayNumber - 1)
  | .moneyIn _ => pure (.real, none, none)
  | .nonEmpty t => Lowering.stop (.noSort (.nonEmpty t)) span
  | .union a b => Lowering.stop (.noSort (.union a b)) span
  | .array t => Lowering.stop (.noSort (.array t)) span
  | .var v => Lowering.stop (.noSort (.var v)) span
  | .unknown => Lowering.stop (.noSort .unknown) span

/-- The statement that a term keeps within limits, if there are any. -/
def withinLimits? (v : Term) (l : Limits) : Option Term :=
  match l with
  | (none, none) => none
  | (some lo, none) => some (.cmp .le (.int lo) v)
  | (none, some hi) => some (.cmp .le v (.int hi))
  | (some lo, some hi) => some (.and [.cmp .le (.int lo) v, .cmp .le v (.int hi)])

/-- A term as one of another sort: whole numbers become real ones, all else has to agree already. -/
def coerce? (t : Term) (source target : SmtSort) : Option Term :=
  if source == target then some t
  else
    match source, target with
    | .int, .real =>
      match t with
      | .int n => some (.real (Float.ofInt n))
      | t => some (.toReal t)
    | _, _ => none

/-- A term as one of another sort, or an obstacle. -/
def coerce (t : Term) (source target : SmtSort) (span : Span) : Lowering Term :=
  match coerce? t source target with
  | some t => pure t
  | none => Lowering.stop (.sortMismatch target.text source) span

/-- Stops unless the sort is the expected one. -/
def expectSort (expected got : SmtSort) (span : Span) : Lowering Unit :=
  if expected == got then pure () else Lowering.stop (.sortMismatch expected.text got) span

end Statute
