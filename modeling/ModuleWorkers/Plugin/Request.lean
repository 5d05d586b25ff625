import ModuleWorkers.Plugin.Build
/-!
# Requests

A request is answered with a virtual file or the bundle of a worker, which is built first if there
is none. Everything else is left to whoever serves files from disk.
-/

namespace ModuleWorkers

/-- What is known of a path. -/
inductive Lookup
  | found (content : FileContent)
  /-- A worker whose bundle has to be built. -/
  | unbuilt
  | unknown
  deriving Inhabited

/-- The plugin with what it builds bundles with. -/
structure Plugin (σ ε : Type) where
  options : PluginOptions := {}
  pipeline : Pipeline σ ε

/-- The answer to a request: content, nothing, or a failure. -/
abbrev PluginAnswer (ε : Type) := Except (BuildFailure ε) (Option FileContent)

namespace PluginState

def lookup (s : PluginState) (path : String) : Lookup :=
  match s.virtualFiles.get? path with
  | some file => .found file.content
  | none =>
    match s.registry.get? path with
    | none => .unknown
    | some e =>
      match e.bundle with
      | some bundle => .found (.text bundle.code)
      | none => .unbuilt

/-- Whether a path is answered otherwise for clients that get bundles. -/
def isOwned (s : PluginState) (path : String) : Bool :=
  s.registry.contains path || (s.virtualFiles.get? path).any (·.legacyOnly)

/-- The partition of caches for responses to clients that get bundles. -/
def legacyPartition : String := "legacy"

/-- The partition for a response, if it is not the one for all clients. -/
def partition? (options : PluginOptions) (s : PluginState) (path : String) (headers : Headers) :
    Option String :=
  if options.legacy.wantsBundles headers && s.isOwned path then some legacyPartition else none

end PluginState

namespace Plugin

variable {σ ε : Type}

/-- Runs the pipeline for a build that began, and ends the build. -/
def runBuild (p : Plugin σ ε) (fs : FileSystem) (request : BundleRequest)
    (s : PluginState × σ) : Except (BuildFailure ε) String × PluginState × σ :=
  let run := p.pipeline.run s.2 fs request
  let (code, state) :=
    (run.changes.foldl PluginState.emit s.1).finishBuild p.options request.requestedPath run.outcome
  (code, state, run.next)

/-- The content at a path, which is built if it has to be. -/
def resolve (p : Plugin σ ε) (fs : FileSystem) (path : String) (s : PluginState × σ) :
    PluginAnswer ε × PluginState × σ :=
  match s.1.lookup path with
  | .found content => (.ok (some content), s)
  | .unknown => (.ok none, s)
  | .unbuilt =>
    match s.1.beginBuild path with
    | none => (.ok none, s)
    | some (request, state) =>
      let (code, s) := p.runBuild fs request (state, s.2)
      (code.map fun c => some (.text c), s)

/-- Answers a request. -/
def request (p : Plugin σ ε) (fs : FileSystem) (path : String) (headers : Headers)
    (s : PluginState × σ) : PluginAnswer ε × PluginState × σ :=
  let wantsBundles := p.options.legacy.wantsBundles headers
  match s.1.virtualFiles.get? path with
  | some file => (.ok (if wantsBundles || !file.legacyOnly then some file.content else none), s)
  | none => if wantsBundles then p.resolve fs path s else (.ok none, s)

end Plugin

end ModuleWorkers
