/-!
# Lines of a source map

The segments that start on one line of generated text, in the order of their columns. A segment
reaches to the next one, so `Line.closest?` is the last segment that starts at or before a column.
Segments at one column stay in the order in which they were added. Both operations search by halves;
`Line.closestByScan?` is what `closest?` comes to on lines that are in order.
-/

namespace ModuleWorkers

/-- A place in one of the sources of a map. -/
structure Location where
  source : Nat
  line : Nat
  column : Nat
  name : Option Nat := none
  deriving DecidableEq, Inhabited, Repr

/-- Where a stretch of generated text starts on its line, and what it was generated from, if from
anything. -/
structure Segment where
  column : Nat
  location : Option Location
  deriving DecidableEq, Inhabited, Repr

/-- The segments of a line. -/
structure Line where
  segments : Array Segment := #[]
  deriving DecidableEq, Inhabited, Repr

namespace Line

/-- Whether the segments are in the order of their columns. -/
def IsSorted (l : Line) : Prop := l.segments.toList.Pairwise (·.column ≤ ·.column)

/-- Finds by halves how many of the segments between two indexes, and those in front of them, start
at or before a column. -/
def searchIn (l : Line) (column low high : Nat) : Nat :=
  if low < high then
    let middle := (low + high) / 2
    if (l.segments[middle]?).any (·.column ≤ column) then searchIn l column (middle + 1) high
    else searchIn l column low middle
  else low
termination_by high - low

/-- How many segments start at or before a column. -/
def countUpTo (l : Line) (column : Nat) : Nat := l.searchIn column 0 l.segments.size

/-- Adds a segment behind those that start at or before its column. -/
def add (l : Line) (s : Segment) : Line :=
  if l.segments.back?.any (s.column < ·.column) then
    ⟨l.segments.insertIdxIfInBounds (l.countUpTo s.column) s⟩
  else ⟨l.segments.push s⟩

/-- The last segment that starts at or before a column. -/
def closest? (l : Line) (column : Nat) : Option Segment :=
  match l.countUpTo column with
  | 0 => none
  | k + 1 => l.segments[k]?

/-- The last segment that starts at or before a column, found by looking at all of them. -/
def closestByScan? (l : Line) (column : Nat) : Option Segment :=
  (l.segments.toList.filter (·.column ≤ column)).getLast?

end Line

end ModuleWorkers
