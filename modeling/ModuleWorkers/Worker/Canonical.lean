import ModuleWorkers.Edits.Basic
import ModuleWorkers.Path.Url
import ModuleWorkers.Worker.Construction
import ModuleWorkers.Worker.Registry
/-!
# Canonical constructions

A construction of a module worker is brought into the form `new Worker("/path.js", {"type":"module"})`:
the path that the worker is requested at and the options as plain JSON. Each worker that is
constructed that way is registered. Constructions of other workers stay as they are, and so do those
whose target is not relative to the script.
-/

namespace ModuleWorkers

/-- A construction whose worker is known: the entry to register and the arguments to write. -/
structure KnownWorker where
  start : Nat
  stop : Nat
  entry : WorkerEntry
  deriving Inhabited, Repr

namespace KnownWorker

/-- The first file of a worker relative to the script, and the path that it is requested at. -/
def locate? (servedPath : String) : WorkerTarget → Option (String × String)
  | .self => some ("./" ++ UrlPath.basename servedPath, servedPath)
  | .specifier text => (UrlPath.resolve? servedPath text).map fun path => (text, path)

/-- The options of a construction, if they ask for a module worker. -/
def moduleOptions? (c : Construction) : Option WorkerOptions :=
  (c.options.bind WorkerOptions.parse?).filter (·.type == .module)

/-- The worker that a construction in a script served at a path constructs. -/
def ofConstruction? (servedPath : String) (c : Construction) : Option KnownWorker := do
  let options ← moduleOptions? c
  let (sourceFile, requestedPath) ← locate? servedPath c.target
  let baseDir := String.ofList ((UrlPath.dirname servedPath).toList.dropWhile (· == '/'))
  return ⟨c.start, c.stop, { requestedPath, sourceFile, baseDir, options }⟩

/-- The canonical arguments. -/
def arguments (w : KnownWorker) : String :=
  Json.Quoted.quote w.entry.requestedPath ++ ", " ++ w.entry.options.literal

end KnownWorker

/-- A script with canonical constructions. -/
structure CanonicalScript where
  buffer : EditBuffer
  /-- The requested paths of the workers, in the order of their constructions. -/
  workers : List String
  registry : WorkerRegistry
  deriving Inhabited

namespace CanonicalScript

/-- Makes one construction canonical, unless it overlaps one in front of it. -/
def add (s : CanonicalScript) (w : KnownWorker) : CanonicalScript :=
  match s.buffer.overwrite w.start w.stop w.arguments with
  | .error _ => s
  | .ok buffer =>
    { buffer
      workers := s.workers ++ [w.entry.requestedPath]
      registry := (s.registry.register w.entry).2 }

/-- Makes the constructions of a script canonical; `none` if there is nothing to do. -/
def ofText (text path : String) (registry : WorkerRegistry) :
    Except LexError (Option CanonicalScript) := do
  let known := (← findConstructions text).filterMap
    (KnownWorker.ofConstruction? (UrlPath.normalize path))
  let script := known.foldl add ⟨{ base := text }, [], registry⟩
  return if script.workers.isEmpty then none else some script

end CanonicalScript

end ModuleWorkers
