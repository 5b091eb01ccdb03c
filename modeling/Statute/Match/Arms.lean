import Statute.Fault

/-!
# Arms of a `match`

A `match` needs exactly one wildcard arm, and no arm may stand where it can never be chosen: after
the wildcard, or with the same fixed pattern as an earlier arm without guard.
-/

namespace Statute

/-- What decides whether an arm applies: its pattern, and whether it has a guard. -/
structure ArmHead where
  pattern : Pattern
  guarded : Bool

/-- The head of an arm. -/
def Arm.head {γ β : Type} (a : Arm γ β) : ArmHead := ⟨a.pattern, a.guard.isSome⟩

/-- The one value that a fixed pattern matches. -/
inductive FixedPattern where
  | literal (value : Literal)
  | variant (type variant : String)
  deriving BEq

namespace FixedPattern

/-- The value of a literal or variant pattern; other patterns are not fixed. -/
def of? : Pattern → Option FixedPattern
  | .literal _ v => some (.literal v)
  | .variant _ t v => some (.variant t.name v.name)
  | _ => none

def text : FixedPattern → String
  | .literal v => v.text
  | .variant t v => t ++ "::" ++ v

end FixedPattern

/-- A `match` without wildcard arm is not exhaustive, and the second wildcard arm is unreachable. -/
def exhaustivenessFault? (place : Span) (arms : List ArmHead) : Option Finding :=
  match arms.filter fun a => a.pattern.isWildcard with
  | [] => some ⟨.noWildcard, place⟩
  | [_] => none
  | _ :: second :: _ => some ⟨.secondWildcard, second.pattern.span⟩

/-- Walks the arms, given the fixed patterns of earlier unguarded arms and whether a wildcard arm
came before. Further wildcards are not reported here. -/
def unreachableFrom (seen : List FixedPattern) (afterWildcard : Bool) : List ArmHead → List Finding
  | [] => []
  | a :: arms =>
    if a.pattern.isWildcard then unreachableFrom seen true arms
    else if afterWildcard then
      ⟨.afterWildcard, a.pattern.span⟩ :: unreachableFrom seen afterWildcard arms
    else if a.guarded then unreachableFrom seen afterWildcard arms
    else
      match FixedPattern.of? a.pattern with
      | none => unreachableFrom seen afterWildcard arms
      | some key =>
        if seen.contains key then
          ⟨.patternRepeated key.text, a.pattern.span⟩ :: unreachableFrom seen afterWildcard arms
        else unreachableFrom (seen ++ [key]) afterWildcard arms

/-- The arms that can never be chosen: those after the wildcard, and those that repeat the fixed
pattern of an earlier arm without guard. -/
def unreachableArms (arms : List ArmHead) : List Finding := unreachableFrom [] false arms

end Statute
