import ModuleWorkers.Watch.Host
import ModuleWorkers.Worker.Options
/-!
# Registered workers

The workers that served scripts construct, by the paths they are requested at. An entry says which
file a worker starts with and holds the bundle that was built for it, together with the files that
the bundle depends on. While a build runs, the entry collects the files that change in the
meantime; a build that depends on one of them is not kept.
-/

namespace ModuleWorkers

/-- A bundle as it is served, and its source map. -/
structure WorkerBundle where
  code : String
  map : String
  deriving DecidableEq, Inhabited, Repr


structure WorkerEntry where
  /-- The path that the worker is requested at. -/
  requestedPath : String
  /-- The first file, relative to the base directory. -/
  sourceFile : String
  /-- The directory of the script that constructs the worker, relative to the root directory. -/
  baseDir : String
  options : WorkerOptions
  bundle : Option WorkerBundle := none
  dependencies : PathSet := []
  /-- The listener that waits for changes of the dependencies. -/
  listener : Option ListenerId := none
  /-- The files that changed since the build started that is running. -/
  changes : Option PathSet := none
  deriving Inhabited, Repr

namespace WorkerEntry

def isBuilt (e : WorkerEntry) : Bool := e.bundle.isSome

def basePath (e : WorkerEntry) (root : Path) : Path := root.joinNormal e.baseDir

/-- The file that the worker starts with. -/
def entryFile (e : WorkerEntry) (root : Path) : Path := (e.basePath root).joinNormal e.sourceFile

def beginBuild (e : WorkerEntry) : WorkerEntry := { e with changes := some [] }

def abortBuild (e : WorkerEntry) : WorkerEntry := { e with changes := none }

/-- Whether a file changed during the running build that the build depends on. -/
def isStale (e : WorkerEntry) (dependencies : PathSet) : Bool :=
  e.changes.any (·.any dependencies.contains)

/-- Ends a build. Its files are kept, and its bundle is unless one of the files changed in the
meantime. -/
def storeBuild (e : WorkerEntry) (bundle : WorkerBundle) (dependencies : PathSet)
    (entryFile : Path) (listener : Option ListenerId) : Bool × WorkerEntry :=
  let dependencies := PathSet.insert entryFile dependencies
  let isFresh := !e.isStale dependencies
  (isFresh,
    { e with
      bundle := if isFresh then some bundle else none
      dependencies, listener
      changes := none })

/-- Whether the bundle depends on a file. -/
def dependsOn (e : WorkerEntry) (file : Path) : Bool := e.isBuilt && e.dependencies.contains file

def dropBundle (e : WorkerEntry) : WorkerEntry := { e with bundle := none }

/-- Drops a bundle that depends on a file. -/
def invalidate (e : WorkerEntry) (file : Path) : WorkerEntry :=
  if e.dependsOn file then e.dropBundle else e

/-- Notes a change for the build that is running. -/
def recordChange (e : WorkerEntry) (file : Path) : WorkerEntry :=
  { e with changes := e.changes.map (PathSet.insert file) }

/-- Takes over a later registration. -/
def refresh (e later : WorkerEntry) : WorkerEntry :=
  { e with
    sourceFile := later.sourceFile
    baseDir := later.baseDir
    options := later.options
    bundle := if e.options = later.options then e.bundle else none }

end WorkerEntry

/-- What a registration did. -/
inductive Registration
  | added
  | unchanged
  /-- The options are others, and the bundle was dropped. -/
  | replaced
  deriving DecidableEq, Inhabited, Repr

/-- The entries, in the order of their first registrations; no two have the same requested path. -/
structure WorkerRegistry where
  entries : List WorkerEntry := []
  deriving Inhabited, Repr

namespace WorkerRegistry

def get? (r : WorkerRegistry) (path : String) : Option WorkerEntry :=
  r.entries.find? (·.requestedPath == path)

def contains (r : WorkerRegistry) (path : String) : Bool := (r.get? path).isSome

def size (r : WorkerRegistry) : Nat := r.entries.length

/-- Changes the entry of a path. -/
def modify (r : WorkerRegistry) (path : String) (f : WorkerEntry → WorkerEntry) : WorkerRegistry :=
  ⟨r.entries.map fun e => if e.requestedPath == path then f e else e⟩

/-- Registers a worker. The latest registration counts; what is known of earlier builds stays. -/
def register (r : WorkerRegistry) (e : WorkerEntry) : Registration × WorkerRegistry :=
  match r.get? e.requestedPath with
  | none => (.added, ⟨r.entries ++ [e]⟩)
  | some old =>
    (if old.options = e.options then .unchanged else .replaced,
      r.modify e.requestedPath (·.refresh e))

/-- Drops the bundle of a path if it depends on a file, and tells whether it did. -/
def invalidate (r : WorkerRegistry) (path : String) (file : Path) : Bool × WorkerRegistry :=
  ((r.get? path).any (·.dependsOn file), r.modify path (·.invalidate file))

/-- Notes a change for all builds that are running. -/
def recordChange (r : WorkerRegistry) (file : Path) : WorkerRegistry :=
  ⟨r.entries.map (·.recordChange file)⟩

/-- Drops all bundles that depend on a file, and lists their paths in order. -/
def invalidateDependents (r : WorkerRegistry) (file : Path) : List String × WorkerRegistry :=
  (((r.entries.filter (·.dependsOn file)).map (·.requestedPath)).mergeSort,
    ⟨r.entries.map (·.invalidate file)⟩)

end WorkerRegistry

end ModuleWorkers
