import ModuleWorkers.Edits.Provenance
import ModuleWorkers.Plugin.State
import ModuleWorkers.SourceMap.Compose
import ModuleWorkers.SourceMap.Reference
import ModuleWorkers.Worker.Canonical
/-!
# Served scripts

A script whose constructions of workers are made canonical gets a source map that leads back through
the map it had, if it had one. The new map is served where the script refers to; the reference stays
as it is if it names a file that can be read, and else becomes the path of the script with `.map`.
-/

namespace ModuleWorkers

/-- A script as it is served: its path in normal form and its file below the root. -/
structure ServedScript where
  root : Path
  path : String
  file : Path
  deriving Inhabited, Repr

/-- Where a map goes: the script with its reference, the map that the script had, and the path that
the new map is served at. -/
structure MapPlacement where
  buffer : EditBuffer
  inner : Option SourceMap
  path : String
  deriving Inhabited

namespace ServedScript

def ofPath (root : Path) (path : String) : ServedScript :=
  let path := UrlPath.normalize path
  ⟨root, path, root.ofUrl path⟩

def basename (s : ServedScript) : String := UrlPath.basename s.path

/-- A reference to the map beside a script. -/
def comment (basename : String) : String := "//# sourceMappingURL=" ++ basename ++ ".map"

/-- The path that a client requests for the address of a map, unless it is at another host. -/
def mapPath? (s : ServedScript) (url : String) : Option String :=
  if Text.contains url "://" then none
  else if url.startsWith "/" then some (UrlPath.normalize url)
  else some (UrlPath.normalize (UrlPath.dirname s.path ++ "/" ++ url))

/-- The map at an address, if it can be read and is not in a file outside the root. -/
def loadMap? (s : ServedScript) (fs : FileSystem) (url : String) : Option SourceMap :=
  if (SourceMap.referencedFile? s.file url).any (!·.isBelow s.root) then none
  else (SourceMap.load fs s.root s.file url).toOption

/-- The path of a map that may stay where it is. -/
def keptPath? (s : ServedScript) (url : String) : Option String :=
  if url.startsWith "data:" then none else s.mapPath? url

/-- Finds a place for the map of a script. -/
def placeMap (s : ServedScript) (fs : FileSystem) (buffer : EditBuffer) :
    Except EditError MapPlacement :=
  let own := comment s.basename
  match SourceMap.Reference.find? buffer.base with
  | none => do return ⟨← buffer.append ("\n" ++ own), none, s.path ++ ".map"⟩
  | some reference =>
    let inner := s.loadMap? fs reference.url
    match inner, s.keptPath? reference.url with
    | some _, some path => .ok ⟨buffer, inner, path⟩
    | _, _ => do
      return ⟨← buffer.overwrite reference.start reference.stop own, inner, s.path ++ ".map"⟩

/-- The map of a script in its place. -/
def servedMap (s : ServedScript) (p : MapPlacement) : Except SourceMapError SourceMap := do
  let outer := p.buffer.sourceMap (s.root.ofUrl (UrlPath.dirname p.path)) s.file.text true
  let m ← match p.inner with
    | some inner => outer.compose inner
    | none => .ok outer
  return { m with file := some s.basename }

/-- A script with its reference, and the map with its path. Without a place or a map the script
stays as far as it got. -/
def attachMap (s : ServedScript) (fs : FileSystem) (buffer : EditBuffer) :
    EditBuffer × Option (String × SourceMap) :=
  match s.placeMap fs buffer with
  | .error _ => (buffer, none)
  | .ok p =>
    match s.servedMap p with
    | .error _ => (p.buffer, none)
    | .ok m => (p.buffer, some (p.path, m))

end ServedScript

namespace PluginState

/-- Registers the workers that a script constructs. The script is given with canonical
constructions, unless it can stay as it is because it is no script or has nothing to make
canonical. -/
def canonicalize (s : PluginState) (path text : String) (isScript : Bool) :
    Option CanonicalScript × PluginState :=
  let canonical :=
    if isScript then CanonicalScript.ofText text path s.registry else .ok none
  match canonical with
  | .error _ | .ok none => (none, s)
  | .ok (some script) => (some script, { s with registry := script.registry })

/-- Serves the map of a script. -/
def storeMap (s : PluginState) (path : String) (m : SourceMap) : PluginState :=
  { s with virtualFiles := s.virtualFiles.insert path (.text m.toJson) false }

/-- What is served in the place of a text, or nothing if it can stay as it is. -/
def respond (s : PluginState) (fs : FileSystem) (path text : String) (isScript : Bool) :
    Option String × PluginState :=
  match s.canonicalize path text isScript with
  | (none, s) => (none, s)
  | (some script, s) =>
    match (ServedScript.ofPath s.root path).attachMap fs script.buffer with
    | (buffer, some (path, m)) => (some buffer.text, s.storeMap path m)
    | (buffer, none) => (some buffer.text, s)

end PluginState

end ModuleWorkers
