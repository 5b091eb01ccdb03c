import Statute.Decimal.Nearest
import Statute.Logic.Sexpr
import Statute.Logic.Value

/-!
# Printed models

Solvers print a model as definitions of constants. `readModel` finds these definitions wherever they
stand in the text, and `Value.read` reads the text of a value, given its sort.
-/

namespace Statute.Logic

/-- The text without bars at either end. -/
def unbar (s : String) : String :=
  String.ofList (((s.toList.dropWhile (· == '|')).reverse.dropWhile (· == '|')).reverse)

/-- The constant that a list defines and its value, if the list is such a definition. -/
def definition? : List Sexpr → Option (String × Sexpr)
  | [.atom head, .atom name, .list args, _, value] =>
    if head == "define-fun" && args.isEmpty then some (name, value) else none
  | _ => none

mutual

/-- The definitions of constants in an S-expression, in order, at any depth. -/
def definitions : Sexpr → List (String × Sexpr)
  | .atom _ => []
  | .list items =>
    match definition? items with
    | some d => [d]
    | none => definitionsOf items

/-- The definitions of constants in several S-expressions. -/
def definitionsOf : List Sexpr → List (String × Sexpr)
  | [] => []
  | e :: es => definitions e ++ definitionsOf es

end

/-- The texts of the values of the constants that a printed model defines. Of two definitions of a
constant the first counts. Functions with arguments are left out. -/
def readModel (s : String) : NameMap String :=
  NameMap.ofList
    ((definitionsOf (Sexpr.readAll s)).reverse.map fun (n, v) => (unbar n, v.text))

namespace Value

/-- What stands between a given beginning and a given end. -/
def between? (first last : List Char) (cs : List Char) : Option (List Char) :=
  if first.isPrefixOf cs && last.isSuffixOf (cs.drop first.length) then
    some ((cs.drop first.length).take (cs.length - first.length - last.length))
  else none

/-- The operand of a minus in parentheses. -/
def negated? (cs : List Char) : Option (List Char) :=
  (between? "(-".toList [')'] cs).filter fun inner =>
    match inner with
    | c :: _ => Text.isBlank c
    | [] => false

/-- The negative of a whole number. The least one has no negative in range and stays as it is. -/
def negative (n : Int) : Int := if n = Whole.least then n else -n

/-- Reads a whole number. -/
def readInt? (cs : List Char) : Option Int :=
  match negated? cs with
  | some inner => (Decimal.whole? (Text.trimmed inner)).map negative
  | none => Decimal.whole? cs

/-- The words of a text, divided by blanks. -/
def words (cs : List Char) : List (List Char) :=
  (cs.splitOnP Text.isBlank).filter fun w => !w.isEmpty

/-- Reads a real number: a decimal, a quotient of two, or one of these negated. There can be no more
parentheses inside one another than characters. -/
def readReal? : Nat → List Char → Option Float
  | 0, _ => none
  | fuel + 1, cs =>
    match negated? cs with
    | some inner => (readReal? fuel (Text.trimmed inner)).map fun x => -x
    | none =>
      match between? "(/".toList [')'] cs with
      | some inner =>
        match words inner with
        | n :: d :: _ => do
          let a ← readReal? fuel n
          let b ← readReal? fuel d
          if b != 0.0 then some (a / b) else none
        | _ => none
      | none => Decimal.float? cs

/-- Every doubled quote becomes one. -/
def undouble : List Char → List Char
  | '"' :: '"' :: rest => '"' :: undouble rest
  | c :: rest => c :: undouble rest
  | [] => []

/-- What follows the last place where `mark` stands. -/
def afterLast? (mark : List Char) : List Char → Option (List Char)
  | [] => if mark.isEmpty then some [] else none
  | c :: rest =>
    match afterLast? mark rest with
    | some r => some r
    | none => if mark.isPrefixOf (c :: rest) then some ((c :: rest).drop mark.length) else none

/-- The number of an element of a free sort, which follows a mark. -/
def elementIndex? (cs : List Char) : Option Nat := do
  let _ ← afterLast? "!val!".toList cs
  let inner := (unbar (String.ofList cs)).toList
  Decimal.natUpTo? Decimal.maxWord ((afterLast? "!val!".toList inner).getD inner)

/-- Reads a value of a sort. What cannot be read is kept as it is, but for blanks around it. -/
def read (s : String) (sort : SmtSort) : Value :=
  let cs := Text.trimmed s.toList
  let verbatim := Value.raw (String.ofList cs)
  match sort with
  | .int => ((readInt? cs).map Value.int).getD verbatim
  | .real => ((readReal? (cs.length + 1) cs).map Value.real).getD verbatim
  | .bool =>
    if cs == "true".toList then .bool true
    else if cs == "false".toList then .bool false
    else verbatim
  | .string =>
    match between? ['"'] ['"'] cs with
    | some inner => .str (String.ofList (undouble inner))
    | none => verbatim
  | .enum n =>
    let head := (n ++ ".").toList
    if head.isPrefixOf cs then .variant n (String.ofList (cs.drop head.length)) else verbatim
  | .free n =>
    match elementIndex? cs with
    | some i => .element n i
    | none => verbatim

end Value

end Statute.Logic
