import Statute.Program.Span
import Statute.Types.Ty

/-!
# Scopes

Names in force at a point of a program, frame by frame. The innermost frame comes first; there is
always at least the outermost one. A name may hide one of an outer frame, but is defined at most
once in a frame.
-/

namespace Statute

/-- How a name came to be in scope. -/
inductive BindingKind where
  | variable
  | parameter
  | quantified
  deriving DecidableEq, Repr, Inhabited

/-- A name in scope. -/
structure Bound where
  name : String
  type : Ty
  span : Span
  kind : BindingKind

/-- The names defined at one level, the latest first. -/
abbrev Frame := List Bound

def Frame.find? (f : Frame) (name : String) : Option Bound :=
  List.find? (fun b => b.name == name) f

/-- The frames in force. -/
structure Scope where
  inner : Frame := []
  outer : List Frame := []
  deriving Inhabited

/-- What became of a definition. -/
inductive Defined where
  | fresh
  /-- It hides the definition at this place. -/
  | shadows (span : Span)
  /-- It was not made, because of the one at this place in the same frame. -/
  | duplicate (span : Span)
  deriving DecidableEq, Repr, Inhabited

namespace Scope

/-- All frames, innermost first. -/
def frames (s : Scope) : List Frame := s.inner :: s.outer

/-- Number of frames. -/
def depth (s : Scope) : Nat := s.frames.length

/-- Opens a frame. -/
def push (s : Scope) : Scope := ⟨[], s.inner :: s.outer⟩

/-- Closes the innermost frame; the outermost one stays. -/
def pop (s : Scope) : Scope :=
  match s.outer with
  | [] => s
  | f :: rest => ⟨f, rest⟩

/-- The innermost definition of a name. -/
def lookup (s : Scope) (name : String) : Option Bound :=
  s.frames.findSome? fun f => f.find? name

/-- More than one frame defines the name. -/
def isShadowed (s : Scope) (name : String) : Bool :=
  (s.frames.filter fun f => (f.find? name).isSome).length > 1

/-- Defines a name in the innermost frame. -/
def define (s : Scope) (b : Bound) : Scope × Defined :=
  match s.inner.find? b.name with
  | some earlier => (s, .duplicate earlier.span)
  | none =>
    let hidden := s.outer.findSome? fun f => f.find? b.name
    ({ s with inner := b :: s.inner },
      match hidden with
      | some h => .shadows h.span
      | none => .fresh)

end Scope

end Statute
