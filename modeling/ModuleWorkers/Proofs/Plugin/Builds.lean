import ModuleWorkers.Plugin.Build
import ModuleWorkers.Proofs.Path.Order
import ModuleWorkers.Proofs.Worker.Registry

/-!
# What a build leaves

`PluginState.installed` is the entry of a worker after a build: it has the files of the build, the
listener that waits for them, and the bundle, unless one of the files changed since the build began.
Entries of other workers stay (`PluginState.get?_install_of_ne`), and so do the files that are
served at other paths than those of the output (`PluginState.get?_virtualFiles_finishBuild`).
-/

namespace ModuleWorkers

/-! ## Virtual files -/

namespace VirtualFiles

theorem get?_insert (vs : VirtualFiles) (path : String) (content : FileContent) (legacyOnly : Bool)
    (q : String) : (vs.insert path content legacyOnly).get? q =
      if path = q then some ⟨path, content, legacyOnly⟩ else vs.get? q := by
  unfold insert get?
  rw [List.find?_cons]
  by_cases hq : path = q
  · simp [hq]
  · have hbeq : (path == q) = false := by simpa using hq
    rw [if_neg hq, hbeq]
    dsimp only
    rw [List.find?_filter]
    congr 1
    funext f
    by_cases hf : f.path = q
    · simp [hf, Ne.symm hq]
    · simp [hf]

theorem get?_insert_of_ne {path q : String} (h : path ≠ q) (vs : VirtualFiles)
    (content : FileContent) (legacyOnly : Bool) :
    (vs.insert path content legacyOnly).get? q = vs.get? q := by
  rw [get?_insert, if_neg h]

end VirtualFiles

/-- The paths that a file of a bundle is served at, and its map if it has one. -/
def OutputFile.paths (directory : String) : OutputFile → List String
  | .asset name _ | .script name _ none => [UrlPath.normalize (directory ++ "/" ++ name)]
  | .script name _ (some _) =>
    [UrlPath.normalize (directory ++ "/" ++ name) ++ ".map",
      UrlPath.normalize (directory ++ "/" ++ name)]

/-- The paths at which the bundle of a worker brings files with it. -/
def BundleOutput.paths (path : String) (output : BundleOutput) : List String :=
  (path ++ ".map") :: output.files.flatMap (·.paths (UrlPath.dirname path))

namespace PluginState

theorem get?_insertOutput (options : PluginOptions) {directory q : String} {file : OutputFile}
    (h : q ∉ file.paths directory) (vs : VirtualFiles) :
    (insertOutput options directory vs file).get? q = vs.get? q := by
  cases file with
  | asset name bytes =>
    have hq : UrlPath.normalize (directory ++ "/" ++ name) ≠ q := by
      simpa [OutputFile.paths, eq_comm] using h
    exact VirtualFiles.get?_insert_of_ne hq _ _ _
  | script name code map =>
    cases map with
    | none =>
      have hq : UrlPath.normalize (directory ++ "/" ++ name) ≠ q := by
        simpa [OutputFile.paths, eq_comm] using h
      exact VirtualFiles.get?_insert_of_ne hq _ _ _
    | some m =>
      rw [OutputFile.paths, List.mem_cons, List.mem_singleton, not_or] at h
      unfold insertOutput
      dsimp only
      rw [VirtualFiles.get?_insert_of_ne (Ne.symm h.2),
        VirtualFiles.get?_insert_of_ne (Ne.symm h.1)]

theorem get?_insertOutputs (options : PluginOptions) {directory q : String}
    {files : List OutputFile} (h : ∀ f ∈ files, q ∉ f.paths directory) (vs : VirtualFiles) :
    (files.foldl (insertOutput options directory) vs).get? q = vs.get? q := by
  induction files generalizing vs with
  | nil => rfl
  | cons f files ih =>
    rw [List.foldl_cons, ih fun g hg => h g (List.mem_cons_of_mem _ hg)]
    exact get?_insertOutput options (h f List.mem_cons_self) vs

theorem get?_virtualFiles_install (options : PluginOptions) (s : PluginState) (e : WorkerEntry)
    {output : BundleOutput} {q : String} (h : q ∉ output.paths e.requestedPath) :
    (s.install options e output).2.virtualFiles.get? q = s.virtualFiles.get? q := by
  rw [BundleOutput.paths, List.mem_cons, not_or] at h
  have hfiles : ∀ f ∈ output.files, q ∉ f.paths (UrlPath.dirname e.requestedPath) :=
    fun f hf hq => h.2 (List.mem_flatMap.2 ⟨f, hf, hq⟩)
  unfold install
  dsimp only
  rw [get?_insertOutputs options hfiles, VirtualFiles.get?_insert_of_ne (Ne.symm h.1)]

/-! ## The entry of a worker after a build -/

/-- The files that the bundle of an entry depends on. -/
def buildFiles (s : PluginState) (e : WorkerEntry) (output : BundleOutput) : PathSet :=
  PathSet.insert (e.entryFile s.root) (PathSet.ofList output.watchFiles)

/-- The bundle of an entry as it is served. -/
def servedBundle (options : PluginOptions) (e : WorkerEntry) (output : BundleOutput) :
    WorkerBundle :=
  ⟨withComment options output.code (UrlPath.basename e.requestedPath),
    { output.map with file := some (UrlPath.basename e.requestedPath) }.toJson⟩

/-- An entry after its build. -/
def installed (options : PluginOptions) (s : PluginState) (e : WorkerEntry)
    (output : BundleOutput) : WorkerEntry :=
  { e with
    bundle :=
      if e.isStale (s.buildFiles e output) then none else some (servedBundle options e output)
    dependencies := s.buildFiles e output
    listener := (s.rewatch e (s.buildFiles e output)).1
    changes := none }

/-- The bundle that an entry has after its build is the one that was built. -/
theorem eq_servedBundle_of_installed {options : PluginOptions} {s : PluginState} {e : WorkerEntry}
    {output : BundleOutput} {b : WorkerBundle}
    (h : (s.installed options e output).bundle = some b) : b = servedBundle options e output := by
  change (if _ then none else some _) = _ at h
  split at h
  · cases h
  · exact (Option.some.inj h).symm

/-- What is served for an entry hangs on its path alone. -/
theorem servedBundle_congr {e e' : WorkerEntry} (h : e.requestedPath = e'.requestedPath)
    (options : PluginOptions) (output : BundleOutput) :
    servedBundle options e output = servedBundle options e' output := by
  unfold servedBundle
  rw [h]

theorem isSome_rewatch {s : PluginState} (hs : s.isStarted = true) (e : WorkerEntry)
    (files : PathSet) : (s.rewatch e files).1.isSome := by
  unfold rewatch
  rw [if_pos hs]
  rfl

theorem isSorted_buildFiles (s : PluginState) (e : WorkerEntry) (output : BundleOutput) :
    PathSet.IsSorted (s.buildFiles e output) :=
  (PathSet.isSorted_ofList _).insert _

/-- What a build does to the entry that it is stored in. -/
def storeOutput (options : PluginOptions) (s : PluginState) (e : WorkerEntry)
    (output : BundleOutput) (d : WorkerEntry) : WorkerEntry :=
  (d.storeBuild (servedBundle options e output) (s.buildFiles e output) (e.entryFile s.root)
    (s.rewatch e (s.buildFiles e output)).1).2

theorem requestedPath_storeOutput (options : PluginOptions) (s : PluginState) (e : WorkerEntry)
    (output : BundleOutput) (d : WorkerEntry) :
    (s.storeOutput options e output d).requestedPath = d.requestedPath := rfl

theorem storeOutput_self (options : PluginOptions) (s : PluginState) (e : WorkerEntry)
    (output : BundleOutput) : s.storeOutput options e output e = s.installed options e output := by
  have hfiles : PathSet.insert (e.entryFile s.root) (s.buildFiles e output) =
      s.buildFiles e output := by
    refine PathSet.insert_of_contains (s.isSorted_buildFiles e output) ?_
    simp [buildFiles]
  unfold storeOutput WorkerEntry.storeBuild installed
  dsimp only
  rw [hfiles]
  cases e.isStale (s.buildFiles e output) <;> rfl

theorem install_watcher (options : PluginOptions) (s : PluginState) (e : WorkerEntry)
    (output : BundleOutput) : (s.install options e output).2.watcher =
      (s.rewatch e (s.buildFiles e output)).2 := rfl

theorem install_registry (options : PluginOptions) (s : PluginState) (e : WorkerEntry)
    (output : BundleOutput) : (s.install options e output).2.registry =
      s.registry.modify e.requestedPath (s.storeOutput options e output) := rfl

theorem get?_install_self (options : PluginOptions) {s : PluginState} {path : String}
    {e : WorkerEntry} (he : s.registry.get? path = some e) (output : BundleOutput) :
    (s.install options e output).2.registry.get? path = some (s.installed options e output) := by
  have hp : e.requestedPath = path := WorkerRegistry.requestedPath_of_get? he
  rw [install_registry, WorkerRegistry.get?_modify _ (requestedPath_storeOutput options s e output),
    if_pos hp, he, Option.map_some, storeOutput_self]

theorem get?_install_of_ne (options : PluginOptions) (s : PluginState) {e : WorkerEntry}
    {q : String} (h : e.requestedPath ≠ q) (output : BundleOutput) :
    (s.install options e output).2.registry.get? q = s.registry.get? q := by
  rw [install_registry, WorkerRegistry.get?_modify _ (requestedPath_storeOutput options s e output),
    if_neg h]

/-- The entries after a build: that of the worker is another one, and the others stay. -/
theorem install_entries (options : PluginOptions) {s : PluginState} (h : s.registry.WF)
    {path : String} {e : WorkerEntry} (he : s.registry.get? path = some e) (output : BundleOutput) :
    ∃ before after, s.registry.entries = before ++ e :: after ∧
      (s.install options e output).2.registry.entries =
        before ++ s.installed options e output :: after := by
  have hp : e.requestedPath = path := WorkerRegistry.requestedPath_of_get? he
  subst hp
  obtain ⟨before, after, hr, hm⟩ := h.exists_split he (s.storeOutput options e output)
  refine ⟨before, after, hr, ?_⟩
  rw [install_registry, hm, storeOutput_self]

/-! ## The beginning and the end of a build -/

/-- A build begins if there is an entry, whose changes are noted from then on. -/
theorem exists_of_beginBuild {s s' : PluginState} {path : String} {request : BundleRequest}
    (h : s.beginBuild path = some (request, s')) : request.requestedPath = path ∧
      ∃ e, s.registry.get? path = some e ∧
        s' = { s with registry := s.registry.modify path WorkerEntry.beginBuild } := by
  obtain ⟨e, he, heq⟩ := Option.map_eq_some_iff.1 h
  obtain ⟨rfl, rfl⟩ := Prod.mk.inj heq
  exact ⟨rfl, e, he, rfl⟩

theorem get?_beginBuild (r : WorkerRegistry) (path q : String) :
    (r.modify path WorkerEntry.beginBuild).get? q =
      if path = q then (r.get? q).map WorkerEntry.beginBuild else r.get? q :=
  WorkerRegistry.get?_modify (f := WorkerEntry.beginBuild) r (fun _ => rfl) path q

variable {ε : Type}

theorem finishBuild_ok (options : PluginOptions) {s : PluginState} {path : String}
    {e : WorkerEntry} (he : s.registry.get? path = some e) (output : BundleOutput) :
    s.finishBuild (ε := ε) options path (.ok output) =
      (.ok (s.install options e output).1, (s.install options e output).2) := by
  unfold finishBuild
  dsimp only
  rw [he]

/-- The entry of a worker after its build, whatever its outcome. -/
def finished (options : PluginOptions) (s : PluginState) (e : WorkerEntry) :
    Except ε BundleOutput → WorkerEntry
  | .error _ => e.abortBuild
  | .ok output => s.installed options e output

theorem get?_finishBuild_self (options : PluginOptions) {s : PluginState} {path : String}
    {e : WorkerEntry} (he : s.registry.get? path = some e) (outcome : Except ε BundleOutput) :
    (s.finishBuild options path outcome).2.registry.get? path =
      some (s.finished options e outcome) := by
  cases outcome with
  | error cause =>
    change (s.registry.modify path WorkerEntry.abortBuild).get? path = _
    rw [WorkerRegistry.get?_modify (f := WorkerEntry.abortBuild) _ fun _ => rfl, if_pos rfl, he]
    rfl
  | ok output =>
    rw [finishBuild_ok options he]
    exact get?_install_self options he output

theorem get?_finishBuild_of_ne (options : PluginOptions) (s : PluginState) {path q : String}
    (h : path ≠ q) (outcome : Except ε BundleOutput) :
    (s.finishBuild options path outcome).2.registry.get? q = s.registry.get? q := by
  cases outcome with
  | error cause =>
    change (s.registry.modify path WorkerEntry.abortBuild).get? q = _
    rw [WorkerRegistry.get?_modify (f := WorkerEntry.abortBuild) _ fun _ => rfl, if_neg h]
  | ok output =>
    unfold finishBuild
    dsimp only
    split
    · rfl
    · rename_i e he
      refine get?_install_of_ne options s ?_ output
      rwa [WorkerRegistry.requestedPath_of_get? he]

theorem isStarted_finishBuild (options : PluginOptions) (s : PluginState) (path : String)
    (outcome : Except ε BundleOutput) :
    (s.finishBuild options path outcome).2.isStarted = s.isStarted := by
  cases outcome with
  | error cause => rfl
  | ok output =>
    unfold finishBuild
    dsimp only
    split <;> rfl

theorem get?_virtualFiles_finishBuild (options : PluginOptions) (s : PluginState) (path : String)
    {outcome : Except ε BundleOutput} {q : String}
    (h : ∀ output, outcome = .ok output → q ∉ output.paths path) :
    (s.finishBuild options path outcome).2.virtualFiles.get? q = s.virtualFiles.get? q := by
  cases outcome with
  | error cause => rfl
  | ok output =>
    unfold finishBuild
    dsimp only
    split
    · rfl
    · rename_i e he
      have hp : e.requestedPath = path := WorkerRegistry.requestedPath_of_get? he
      refine get?_virtualFiles_install options s e ?_
      rw [hp]
      exact h output rfl

end PluginState

end ModuleWorkers
