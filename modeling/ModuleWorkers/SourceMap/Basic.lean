import ModuleWorkers.SourceMap.Mappings
import ModuleWorkers.Text.Search
/-!
# Source maps

A source map tells where each stretch of a generated text came from. Locations refer to sources and
names by their indexes in the tables of the map. Absolute paths of sources are kept relative to the
root directory of the map, as far as they can be.
-/

namespace ModuleWorkers

/-- A source of a map. The content is empty if it is not known. -/
structure Source where
  path : String
  content : String := ""
  deriving DecidableEq, Inhabited, Repr

structure SourceMap where
  /-- The directory that sources are relative to. -/
  root : Path
  /-- The name of the generated file. -/
  file : Option String := none
  sources : List Source := []
  names : List String := []
  lines : Array Line := #[]
  deriving Inhabited, Repr

/-- An absolute path of a source as one relative to a root directory. Addresses and relative paths
stay as they are. -/
def Source.relativePath (root : Path) (source : String) : String :=
  if root.text.isEmpty || Text.contains source "://" || !(Path.mk source).isAbsolute then source
  else
    match (Path.mk source).relativeTo? root with
    | some p => p.text
    | none => source

namespace SourceMap

def empty (root : Path) : SourceMap := { root }

/-- Adds a segment to a line, and the lines in front of it that are missing. -/
def addMapping (m : SourceMap) (line column : Nat) (location : Option Location) : SourceMap :=
  let lines := m.lines ++ Array.replicate (line + 1 - m.lines.size) ⟨#[]⟩
  { m with lines := lines.modify line (·.add ⟨column, location⟩) }

/-- The last segment of a line that starts at or before a column. -/
def closest? (m : SourceMap) (line column : Nat) : Option Mapping := do
  let s ← (← m.lines[line]?).closest? column
  return ⟨line, s.column, s.location⟩

/-- All segments, in the order of the generated text. -/
def mappings (m : SourceMap) : List Mapping :=
  m.lines.toList.zipIdx.flatMap fun (l, k) =>
    l.segments.toList.map fun s => ⟨k, s.column, s.location⟩

/-- The index of a source in the table. -/
def sourceIndex? (m : SourceMap) (source : String) : Option Nat :=
  m.sources.findIdx? (·.path == Source.relativePath m.root source)

/-- The index of a source, which is added to the table if it is not there. -/
def addSource (m : SourceMap) (source : String) : Nat × SourceMap :=
  match m.sourceIndex? source with
  | some k => (k, m)
  | none =>
    (m.sources.length,
      { m with sources := m.sources ++ [⟨Source.relativePath m.root source, ""⟩] })

/-- The index of a name, which is added to the table if it is not there. -/
def addName (m : SourceMap) (name : String) : Nat × SourceMap :=
  match m.names.findIdx? (· == name) with
  | some k => (k, m)
  | none => (m.names.length, { m with names := m.names ++ [name] })

def source (m : SourceMap) (index : Nat) : Except SourceMapError Source :=
  match m.sources[index]? with
  | some s => .ok s
  | none => .error .sourceOutOfRange

def setContent (m : SourceMap) (index : Nat) (content : String) :
    Except SourceMapError SourceMap := do
  let s ← m.source index
  return { m with sources := m.sources.set index { s with content } }

/-- Gives a source its content, if it has an index. -/
def withContent (m : SourceMap) (index : Nat) (content : String) : SourceMap :=
  { m with sources := m.sources.modify index fun s => { s with content } }

/-! ## Merging tables -/

/-- Where the sources and names of one map are in the tables of another. -/
structure Reindexing where
  sources : List Nat
  names : List Nat
  deriving Inhabited, Repr

/-- A location with its indexes moved. -/
def Reindexing.apply (r : Reindexing) (o : Location) : Except SourceMapError Location :=
  match r.sources[o.source]?, o.name with
  | none, _ => .error .sourceOutOfRange
  | some source, none => .ok { o with source }
  | some source, some k =>
    match r.names[k]? with
    | some name => .ok { o with source, name := some name }
    | none => .error .nameOutOfRange

/-- Adds sources; a content that is known replaces the one in the table. -/
def mergeSources (m : SourceMap) : List Source → List Nat × SourceMap
  | [] => ([], m)
  | s :: ss =>
    let (k, m) := m.addSource s.path
    let m := if s.content.isEmpty then m else m.withContent k s.content
    let (ks, m) := m.mergeSources ss
    (k :: ks, m)

def mergeNames (m : SourceMap) : List String → List Nat × SourceMap
  | [] => ([], m)
  | n :: ns =>
    let (k, m) := m.addName n
    let (ks, m) := m.mergeNames ns
    (k :: ks, m)

/-- Adds the sources and names of another map. -/
def mergeTables (m other : SourceMap) : Reindexing × SourceMap :=
  let (sources, m) := m.mergeSources other.sources
  let (names, m) := m.mergeNames other.names
  (⟨sources, names⟩, m)

/-- Adds segments with their indexes moved, until one has an index that cannot be. -/
def addMappings (r : Reindexing) (offset : Nat) (m : SourceMap) :
    List Mapping → SourceMap × Except SourceMapError Unit
  | [] => (m, .ok ())
  | s :: ss =>
    match s.location.mapM r.apply with
    | .error e => (m, .error e)
    | .ok location => addMappings r offset (m.addMapping (s.line + offset) s.column location) ss

/-- Adds all of another map, moved down by a number of lines. What was added before a segment with
an index that cannot be stays. -/
def append (m other : SourceMap) (offset : Nat) : SourceMap × Except SourceMapError Unit :=
  let (r, m) := m.mergeTables other
  m.addMappings r offset other.mappings

/-! ## Sources on disk -/

/-- Makes sources that are written relative to the directory of the map relative to the root
directory instead. -/
def relocate (m : SourceMap) (dir : Path) : SourceMap :=
  { m with
    sources := m.sources.map fun s =>
      if Text.contains s.path "://" || (Path.mk s.path).isAbsolute then s
      else { s with path := Source.relativePath m.root (dir / s.path).normal.text } }

end SourceMap

end ModuleWorkers
