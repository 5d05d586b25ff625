import ModuleWorkers.Proofs.Plugin.Builds
import ModuleWorkers.Proofs.SourceMap.Bytes

/-!
# Installing a bundle step by step

A bundle is installed in several steps: its map is written, the entry of the worker is found, other
files are watched, and the files that come with the bundle are served one after the other, each with
its map. `PluginState.installSteps` takes these steps and stops at the first that fails, with all
that was done before. Two things can go wrong, and neither does: every map is written
(`SourceMap.write_eq`), and a worker is registered as long as it is built. So nothing stops halfway
(`PluginState.installSteps_eq`).
-/

namespace ModuleWorkers

/-- Why a bundle that was built is not installed. -/
inductive InstallFault
  | map (cause : SourceMapError)
  | unknownWorker (path : String)

namespace PluginState

/-- Serves a file of a bundle, unless its map is not written. -/
def insertFile (options : PluginOptions) (directory : String) (vs : VirtualFiles) :
    OutputFile → Except SourceMapError VirtualFiles
  | .asset name bytes =>
    .ok (vs.insert (UrlPath.normalize (directory ++ "/" ++ name)) (.binary bytes) true)
  | .script name code none =>
    .ok (vs.insert (UrlPath.normalize (directory ++ "/" ++ name)) (.text code) true)
  | .script name code (some m) => do
    let path := UrlPath.normalize (directory ++ "/" ++ name)
    let map ← { m with file := some name }.write
    return (vs.insert (path ++ ".map") (.text map) true).insert path
      (.text (withComment options code (UrlPath.basename path))) true

/-- Serves the files of a bundle up to the first whose map is not written. -/
def insertFiles (options : PluginOptions) (directory : String) (vs : VirtualFiles) :
    List OutputFile → Option SourceMapError × VirtualFiles
  | [] => (none, vs)
  | file :: files =>
    match insertFile options directory vs file with
    | .error e => (some e, vs)
    | .ok vs => insertFiles options directory vs files

/-- Installs a bundle for the worker of a path step by step, as far as it gets. -/
def installSteps (options : PluginOptions) (s : PluginState) (path : String)
    (output : BundleOutput) : Except InstallFault String × PluginState :=
  let basename := UrlPath.basename path
  let code := withComment options output.code basename
  match { output.map with file := some basename }.write with
  | .error cause => (.error (.map cause), s)
  | .ok map =>
    match s.registry.get? path with
    | none => (.error (.unknownWorker path), s)
    | some e =>
      let entryFile := e.entryFile s.root
      let files := PathSet.insert entryFile (PathSet.ofList output.watchFiles)
      let (listener, watcher) := s.rewatch e files
      -- a listener that is given up is taken out of the entry
      let taken := if s.isStarted then none else e.listener
      let registry := s.registry.modify path fun d => { d with listener := taken }
      let virtualFiles := s.virtualFiles.insert (path ++ ".map") (.text map) true
      match insertFiles options (UrlPath.dirname path) virtualFiles output.files with
      | (some cause, virtualFiles) =>
        (.error (.map cause), { s with watcher, registry, virtualFiles })
      | (none, virtualFiles) =>
        let registry := registry.modify path fun d =>
          (d.storeBuild ⟨code, map⟩ files entryFile listener).2
        (.ok code, { s with watcher, registry, virtualFiles })

theorem insertFile_eq (options : PluginOptions) (directory : String) (vs : VirtualFiles)
    (file : OutputFile) :
    insertFile options directory vs file = .ok (insertOutput options directory vs file) := by
  cases file with
  | asset name bytes => rfl
  | script name code map =>
    cases map with
    | none => rfl
    | some m =>
      unfold insertFile
      dsimp only
      rw [SourceMap.write_eq]
      rfl

theorem insertFiles_eq (options : PluginOptions) (directory : String) (vs : VirtualFiles)
    (files : List OutputFile) :
    insertFiles options directory vs files =
      (none, files.foldl (insertOutput options directory) vs) := by
  induction files generalizing vs with
  | nil => rfl
  | cons file files ih =>
    rw [insertFiles, insertFile_eq]
    exact ih _

/-- The bundle of a worker that is registered is installed whole. -/
theorem installSteps_eq (options : PluginOptions) {s : PluginState} {path : String}
    {e : WorkerEntry} (he : s.registry.get? path = some e) (output : BundleOutput) :
    s.installSteps options path output =
      (.ok (s.install options e output).1, (s.install options e output).2) := by
  obtain rfl := WorkerRegistry.requestedPath_of_get? he
  -- the listener that was taken out of the entry is overwritten with the new one
  have hstore : ∀ taken, (s.registry.modify e.requestedPath fun d =>
      { d with listener := taken }).modify e.requestedPath (s.storeOutput options e output) =
        s.registry.modify e.requestedPath (s.storeOutput options e output) := by
    intro taken
    rw [s.registry.modify_twice (f := fun d => { d with listener := taken }) e.requestedPath
      fun _ => rfl]
    rfl
  unfold installSteps
  dsimp only
  rw [SourceMap.write_eq]
  dsimp only
  rw [he]
  dsimp only
  rw [insertFiles_eq]
  exact congrArg (fun registry => (Except.ok (s.install options e output).1,
    { (s.install options e output).2 with registry := registry })) (hstore _)

end PluginState

end ModuleWorkers
