import ModuleWorkers.Bundle.Output
import ModuleWorkers.Path.Url
import ModuleWorkers.Plugin.Options
import ModuleWorkers.Plugin.Response
/-!
# Builds of workers

A build begins by asking a pipeline for a bundle. When the pipeline is done, the bundle is served at
the path of the worker and what goes with it beside it, and the files that it depends on are watched
in the place of those that the bundle before it depended on. A failed build leaves all as it was.
-/

namespace ModuleWorkers

/-- Why there is no bundle. -/
structure BuildFailure (ε : Type) where
  path : String
  cause : ε
  deriving Inhabited, Repr

def BuildFailure.message {ε : Type} (describe : ε → String) (f : BuildFailure ε) : String :=
  s!"Failed to bundle worker {f.path}: {describe f.cause}"

namespace PluginState

/-- Begins a build of a registered worker. -/
def beginBuild (s : PluginState) (path : String) : Option (BundleRequest × PluginState) :=
  (s.registry.get? path).map fun e =>
    ({ entry := e.entryFile s.root, baseDir := e.basePath s.root, root := s.root,
       requestedPath := path },
      { s with registry := s.registry.modify path WorkerEntry.beginBuild })

/-- Ends a build that failed. -/
def abortBuild (s : PluginState) (path : String) : PluginState :=
  { s with registry := s.registry.modify path WorkerEntry.abortBuild }

/-- Text that ends with a reference to the map beside it, if that is wanted. -/
def withComment (options : PluginOptions) (code basename : String) : String :=
  if options.appendSourceMapComment then code ++ "\n" ++ ServedScript.comment basename else code

/-- Serves a file of a bundle in the directory of the worker. -/
def insertOutput (options : PluginOptions) (directory : String) (vs : VirtualFiles) :
    OutputFile → VirtualFiles
  | .asset name bytes => vs.insert (UrlPath.normalize (directory ++ "/" ++ name)) (.binary bytes) true
  | .script name code map =>
    let path := UrlPath.normalize (directory ++ "/" ++ name)
    match map with
    | none => vs.insert path (.text code) true
    | some m =>
      (vs.insert (path ++ ".map") (.text { m with file := some name }.toJson) true).insert path
        (.text (withComment options code (UrlPath.basename path))) true

/-- Watches the files of a new bundle in the place of those of the one before it. -/
def rewatch (s : PluginState) (e : WorkerEntry) (files : PathSet) :
    Option ListenerId × SharedWatcher PluginListener :=
  if s.isStarted then
    let watcher := match e.listener with
      | some previous => s.watcher.unwatch previous e.dependencies
      | none => s.watcher
    let (id, watcher) := watcher.watch files (.worker e.requestedPath)
    (some id, watcher)
  else (none, s.watcher)

/-- Installs a bundle for an entry. -/
def install (options : PluginOptions) (s : PluginState) (e : WorkerEntry) (output : BundleOutput) :
    String × PluginState :=
  let path := e.requestedPath
  let basename := UrlPath.basename path
  let code := withComment options output.code basename
  let map := { output.map with file := some basename }.toJson
  let entryFile := e.entryFile s.root
  let files := PathSet.insert entryFile (PathSet.ofList output.watchFiles)
  let (listener, watcher) := s.rewatch e files
  let virtualFiles := output.files.foldl (insertOutput options (UrlPath.dirname path))
    (s.virtualFiles.insert (path ++ ".map") (.text map) true)
  let registry := s.registry.modify path fun e =>
    (e.storeBuild ⟨code, map⟩ files entryFile listener).2
  (code, { s with watcher, virtualFiles, registry })

/-- Ends a build with what the pipeline made of it, and gives the code of the bundle. -/
def finishBuild {ε : Type} (options : PluginOptions) (s : PluginState) (path : String)
    (outcome : Except ε BundleOutput) : Except (BuildFailure ε) String × PluginState :=
  match outcome with
  | .error cause => (.error ⟨path, cause⟩, s.abortBuild path)
  | .ok output =>
    match s.registry.get? path with
    | none => (.ok output.code, s)
    | some e =>
      let (code, s) := s.install options e output
      (.ok code, s)

end PluginState

end ModuleWorkers
