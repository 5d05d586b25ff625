import ModuleWorkers.Script.Conversion
import ModuleWorkers.SourceMap.Json
/-!
# Source maps of printed scripts

The marks of a printer, which are byte positions of the source, as segments of a source map, which
count lines and UTF-16 code units.
-/

namespace ModuleWorkers.Script

open ModuleWorkers.Text

/-- The line and column of every byte of a text, and of its end. -/
def bytePlaces (text : List Char) : Array (Nat × Nat) := go text 0 0 #[]
where
  go : List Char → Nat → Nat → Array (Nat × Nat) → Array (Nat × Nat)
    | [], line, column, places => places.push (line, column)
    | c :: rest, line, column, places =>
      let places := places ++ Array.replicate c.utf8Size (line, column)
      if c == '\n' || (c == '\r' && rest.head? != some '\n') then go rest (line + 1) 0 places
      else go rest line (column + units16 c) places

/-- The segments of printed text. -/
def Output.mappings (o : Output) (text : String) : List Mapping :=
  let places := bytePlaces text.toList
  o.marks.reverse.filterMap fun m =>
    (places[m.source - 1]?).map fun (line, column) =>
      ⟨m.line, m.column, some ⟨0, line, column, none⟩⟩

/-- The map of a printed script, which names the file of the script relative to a directory and
holds its text. A text without marks has no sources. -/
def Output.sourceMap (o : Output) (file : Path) (text : String) (mapDir : Path) : SourceMap :=
  let mappings := o.mappings text
  let m := SourceMap.empty mapDir
  if mappings.isEmpty then m
  else
    let m : SourceMap :=
      { m with sources := [⟨Source.relativePath mapDir file.text, text⟩] }
    mappings.foldl (fun m s => m.addMapping s.line s.column s.location) m

/-- A converted script and its map. -/
structure Rendered where
  code : String
  map : SourceMap
  deriving Inhabited

/-- Converts the script in a file and maps what comes out back to it. -/
def render (file : Path) (text : String) (targets : List Target) (url : String) (mapDir : Path) :
    Except ParseError Rendered := do
  let o ← convert text targets url
  return ⟨o.text, o.sourceMap file text mapDir⟩

end ModuleWorkers.Script
