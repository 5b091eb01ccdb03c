import Statute.Env
import Statute.Match.Arms
import Statute.NameMap
import Statute.Program.Item

/-!
# Exclusive verdicts

For a function that returns a mutually exclusive enum, no variant may depend on the order in which
overlapping conditions are tried. `if` with `else`, and arms with different fixed patterns, exclude
each other. An `if` without `else` does not exclude what follows it, and arms with a guard, a legal
test or a mere name may overlap. Returning different variants across such a split is ambiguous.

The analysis goes through a body once and follows no calls. Code after a region that always returns
is left out.
-/

namespace Statute

/-- What a region of code can return. -/
structure Flow where
  /-- The variants that may be returned, each with the place of its first return. -/
  variants : NameMap Span := {}
  /-- Every path through the region ends in a return. -/
  returns : Bool := false

namespace Flow

/-- Regions of which at most one runs. -/
def exclusive (branches : List Flow) (returns : Bool) : Flow :=
  ⟨branches.foldl (fun m b => m.union b.variants) {}, returns⟩

/-- The variant to blame when two regions return different ones: the first that only the second
region returns, or else its first one. -/
def culprit? (first second : Flow) : Option (String × Span) :=
  (second.variants.entries.find? fun e => !first.variants.contains e.1).or
    second.variants.entries.head?

/-- Two regions with nothing between them that excludes one of them. They may return at most one
variant between them. -/
def sequence (enum : String) (first second : Flow) : Except Finding Flow :=
  let all := (first.variants.union second.variants).keys
  let ambiguous := !first.variants.isEmpty && !second.variants.isEmpty && all.length > 1
  match if ambiguous then first.culprit? second else none with
  | some (variant, span) => .error ⟨.ambiguousVariants enum all variant, span⟩
  | none => .ok (exclusive [first, second] second.returns)

end Flow

/-- What is known after some arms of a `match`. -/
structure ArmsFlow where
  /-- The fixed patterns of earlier unguarded arms. -/
  seen : List FixedPattern := []
  /-- What the arms return that exclude each other. -/
  fixed : List Flow := []
  /-- What the arms return that may overlap each other. -/
  overlapping : Flow := {}
  wildcard : Bool := false
  allReturn : Bool := true

namespace ArmsFlow

/-- The arm may apply along with other ones. -/
def isOpen (a : ArmHead) : Bool :=
  a.guarded ||
    match a.pattern with
    | .satisfies _ _ => true
    | .binding _ => true
    | _ => false

/-- The arm is not looked at: it comes after the wildcard or repeats a fixed pattern. -/
def skips (s : ArmsFlow) (a : ArmHead) : Bool :=
  s.wildcard ||
    (!isOpen a && ((FixedPattern.of? a.pattern).map s.seen.contains).getD false)

/-- Takes in an arm that is looked at, with what its body returns. -/
def add (enum : String) (s : ArmsFlow) (a : ArmHead) (body : Flow) : Except Finding ArmsFlow := do
  let s := { s with
    wildcard := a.pattern.isWildcard
    allReturn := s.allReturn && body.returns }
  if isOpen a then
    return { s with
      overlapping := ← Flow.sequence enum s.overlapping { body with returns := false } }
  else
    return { s with
      seen := s.seen ++ (FixedPattern.of? a.pattern).toList
      fixed := s.fixed ++ [body] }

/-- What the whole `match` returns. -/
def total (s : ArmsFlow) : Flow :=
  Flow.exclusive (s.fixed ++ [s.overlapping]) (s.wildcard && s.allReturn)

end ArmsFlow

mutual

/-- The variants that a returned expression may come to: a variant written out, or those of the arms
of a `match`. -/
def returnedVariants (enum : String) : Expr → Except Finding (NameMap Span)
  | .variant span t v =>
    .ok (if t.name == enum then NameMap.insert {} v.name span else {})
  | .select _ _ _ arms => do return (← returnedByArms enum {} arms).variants
  | _ => .ok {}

/-- What the arms of a returned `match` come to. -/
def returnedByArms (enum : String) (s : ArmsFlow) : List (Arm Expr Expr) → Except Finding Flow
  | [] => .ok s.total
  | ⟨_, p, g, body⟩ :: arms => do
    let head : ArmHead := ⟨p, g.isSome⟩
    if s.skips head then returnedByArms enum s arms
    else
      let variants ← returnedVariants enum body
      returnedByArms enum (← s.add enum head ⟨variants, true⟩) arms

end

mutual

/-- What a statement can return. -/
def stmtFlow (enum : String) : Stmt → Except Finding Flow
  | .ret _ value => do return ⟨← returnedVariants enum value, true⟩
  | .branch _ _ yes no => do
    let a ← blockFlow enum {} yes
    let b ← match no with
      | none => pure {}
      | some b => blockFlow enum {} b
    return Flow.exclusive [a, b] (a.returns && b.returns)
  | .select _ _ arms => armsFlow enum {} arms
  | .declare _ => .ok {}
  | .assign _ _ _ => .ok {}
  | .eval _ => .ok {}
  | .pass _ => .ok {}

/-- What a block can return, after statements that return `before` and do not always return. -/
def blockFlow (enum : String) (before : Flow) : List Stmt → Except Finding Flow
  | [] => .ok before
  | s :: rest => do
    let flow ← Flow.sequence enum before (← stmtFlow enum s)
    if flow.returns then return flow else blockFlow enum flow rest

/-- What the arms of a `match` statement can return. -/
def armsFlow (enum : String) (s : ArmsFlow) : List (Arm Expr (List Stmt)) → Except Finding Flow
  | [] => .ok s.total
  | ⟨_, p, g, body⟩ :: arms => do
    let head : ArmHead := ⟨p, g.isSome⟩
    if s.skips head then armsFlow enum s arms
    else
      let flow ← blockFlow enum {} body
      armsFlow enum (← s.add enum head flow) arms

end

/-- Checks that the body of a function does not return different variants of an exclusive enum
across a split that excludes neither side. -/
def exclusivityFault? (body : List Stmt) (enum : EnumInfo) : Option Finding :=
  match blockFlow enum.name {} body with
  | .ok _ => none
  | .error f => some f

end Statute
