/-!
# Places in a text

A span is a range of bytes of a source text together with the lines and columns it covers. Columns
count up to the largest 32-bit number and stay there.
-/

namespace Statute

/-- A line and a column. -/
structure Position where
  line : Nat := 0
  column : Nat := 0
  deriving DecidableEq, Repr, Inhabited

/-- A byte range and the positions of its ends. -/
structure Span where
  offset : Nat := 0
  length : Nat := 0
  start : Position := {}
  stop : Position := {}
  deriving DecidableEq, Repr, Inhabited

namespace Span

/-- The largest column. -/
def maxColumn : Nat := 4294967295

/-- A span within one line. -/
def onLine (line column offset length : Nat) : Span :=
  { offset, length
    start := ⟨line, column⟩
    stop := ⟨line, min maxColumn (column + min maxColumn length)⟩ }

/-- The two ends as `line:column`. -/
def text (s : Span) : String :=
  s!"{s.start.line}:{s.start.column}-{s.stop.line}:{s.stop.column}"

end Span

/-- A name and where it stands. -/
structure Ident where
  name : String
  span : Span := {}
  deriving DecidableEq, Repr, Inhabited

/-- A name by itself, which stands nowhere. -/
instance : Coe String Ident := ⟨fun n => ⟨n, {}⟩⟩

end Statute
