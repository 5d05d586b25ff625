import ModuleWorkers.SourceMap.Basic
/-!
# Composing source maps

If one map leads from a text to another text, and a second one from there to what was authored, the
composed map leads all the way. Places that the second map has nothing for keep their locations, and
places that it says were made up become unmapped.
-/

namespace ModuleWorkers.SourceMap

/-- Follows a location through a map whose tables were merged. -/
def trace (lower : SourceMap) (r : Reindexing) (o : Location) :
    Except SourceMapError (Option Location) :=
  match lower.closest? o.line o.column with
  | none => .ok (some o)
  | some found =>
    match found.location with
    | none => .ok none
    | some traced => do
      let traced ← r.apply traced
      return some { traced with name := traced.name.or o.name }

/-- Follows the location of a segment. -/
def traceSegment (lower : SourceMap) (r : Reindexing) (s : Segment) :
    Except SourceMapError Segment :=
  match s.location with
  | none => .ok s
  | some o => do return { s with location := ← trace lower r o }

/-- Composes a map with the map of what it leads to. -/
def compose (upper lower : SourceMap) : Except SourceMapError SourceMap := do
  let (r, m) := upper.mergeTables lower
  let lines ← m.lines.mapM fun l => return ⟨← l.segments.mapM (traceSegment lower r)⟩
  return { m with lines }

end ModuleWorkers.SourceMap
