import ModuleWorkers.Plugin.VirtualFiles
import ModuleWorkers.Watch.Shared
import ModuleWorkers.Worker.Registry
/-!
# State of the plugin

What the plugin knows while its server runs: the workers that were found, the files it serves that
are not on disk, and who listens to changes of files.
-/

namespace ModuleWorkers

/-- What is done when a file changes. -/
inductive PluginListener
  /-- The change is noted for all builds that are running. -/
  | runningBuilds
  /-- The bundle of a worker is dropped if it depends on the file. -/
  | worker (path : String)
  /-- Something that does not concern the plugin. -/
  | other
  deriving DecidableEq, Inhabited, Repr

structure PluginState where
  root : Path := ⟨""⟩
  registry : WorkerRegistry := {}
  virtualFiles : VirtualFiles := {}
  watcher : SharedWatcher PluginListener := {}
  /-- Whether files are watched, which begins when the server starts. -/
  isStarted : Bool := false
  deriving Inhabited

namespace PluginState

/-- Begins to serve a directory. -/
def start (s : PluginState) (root : Path) : PluginState :=
  let (_, watcher) := SharedWatcher.listen { s.watcher with counts := [] } .runningBuilds
  { s with root, watcher, isStarted := true }

/-- Tells a listener of a change. -/
def notify (s : PluginState) (file : Path) : PluginListener → PluginState
  | .runningBuilds => { s with registry := s.registry.recordChange file }
  | .worker path => { s with registry := (s.registry.invalidate path file).2 }
  | .other => s

/-- Tells all listeners of a change. -/
def emit (s : PluginState) (file : Path) : PluginState :=
  s.watcher.host.listeners.foldl (fun s (_, listener) => s.notify file listener) s

/-- Drops all bundles that depend on a file that changed, and lists their paths. -/
def handleChange (s : PluginState) (file : Path) : List String × PluginState :=
  let (dropped, registry) := (s.registry.recordChange file).invalidateDependents file
  (dropped, { s with registry })

end PluginState

end ModuleWorkers
