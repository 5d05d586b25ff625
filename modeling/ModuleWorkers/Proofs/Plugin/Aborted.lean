import ModuleWorkers.Plugin.Request
import ModuleWorkers.Proofs.Plugin.Builds
import ModuleWorkers.Proofs.Plugin.Changes

/-!
# Builds that are given up

The end of a failed build forgets the changes that were noted for it, and nothing else. Nobody but
the end of that build reads these changes, so a build may as well be given up before anything else
that happens: registrations and changes (`PluginState.canonicalize_abortBuild`,
`PluginState.emit_abortBuild`), looks at any path, and builds of other workers
(`PluginState.finishBuild_abortBuild`). A build that is given up where it began leaves no trace
(`PluginState.abortBuild_beginBuild`).
-/

namespace ModuleWorkers

/-! ## Entries -/

namespace WorkerEntry

theorem abortBuild_recordChange (e : WorkerEntry) (file : Path) :
    (e.recordChange file).abortBuild = e.abortBuild.recordChange file := rfl

theorem abortBuild_invalidate (e : WorkerEntry) (file : Path) :
    (e.invalidate file).abortBuild = e.abortBuild.invalidate file := by
  have hdepends : e.abortBuild.dependsOn file = e.dependsOn file := rfl
  unfold invalidate
  rw [hdepends]
  split <;> rfl

theorem abortBuild_refresh (e later : WorkerEntry) :
    (e.refresh later).abortBuild = e.abortBuild.refresh later := rfl

theorem abortBuild_of_changes {e : WorkerEntry} (h : e.changes = none) : e.abortBuild = e := by
  unfold abortBuild
  rw [← h]

end WorkerEntry

/-! ## Registries -/

namespace WorkerRegistry

variable {f g : WorkerEntry → WorkerEntry}

/-- What is done to one entry may as well be done before something that is done to all. -/
theorem modify_map (r : WorkerRegistry) (path : String)
    (hg : ∀ e, (g e).requestedPath = e.requestedPath) (hcomm : ∀ e, f (g e) = g (f e)) :
    modify ⟨r.entries.map g⟩ path f = ⟨(r.modify path f).entries.map g⟩ := by
  unfold modify
  rw [List.map_map, List.map_map]
  congr 1
  refine List.map_congr_left fun e _ => ?_
  dsimp only [Function.comp]
  rw [hg, apply_ite g, hcomm]

/-- Two entries are changed in any order, and so is one if the changes do not meet. -/
theorem modify_modify (r : WorkerRegistry) {path q : String}
    (hf : ∀ e, (f e).requestedPath = e.requestedPath)
    (hg : ∀ e, (g e).requestedPath = e.requestedPath)
    (hcomm : path = q → ∀ e, f (g e) = g (f e)) :
    (r.modify q g).modify path f = (r.modify path f).modify q g := by
  unfold modify
  rw [List.map_map, List.map_map]
  congr 1
  refine List.map_congr_left fun e _ => ?_
  by_cases hp : e.requestedPath == path
  · by_cases hq : e.requestedPath == q
    · simp only [Function.comp_apply, if_pos hp, if_pos hq, hf, hg]
      exact hcomm ((beq_iff_eq.1 hp).symm.trans (beq_iff_eq.1 hq)) e
    · simp only [Function.comp_apply, if_pos hp, if_neg hq, hf]
  · by_cases hq : e.requestedPath == q
    · simp only [Function.comp_apply, if_neg hp, if_pos hq, hg]
    · simp only [Function.comp_apply, if_neg hp, if_neg hq]

variable (r : WorkerRegistry) (path : String)

theorem get?_abortBuild (q : String) : (r.modify path WorkerEntry.abortBuild).get? q =
    if path = q then (r.get? q).map WorkerEntry.abortBuild else r.get? q :=
  get?_modify (f := WorkerEntry.abortBuild) r (fun _ => rfl) path q

theorem recordChange_abortBuild (file : Path) :
    (r.modify path WorkerEntry.abortBuild).recordChange file =
      (r.recordChange file).modify path WorkerEntry.abortBuild :=
  (r.modify_map (g := (·.recordChange file)) path (fun _ => rfl)
    fun e => e.abortBuild_recordChange file).symm

theorem invalidate_abortBuild (q : String) (file : Path) :
    ((r.modify path WorkerEntry.abortBuild).invalidate q file).2 =
      (r.invalidate q file).2.modify path WorkerEntry.abortBuild :=
  (r.modify_modify (f := WorkerEntry.abortBuild) (fun _ => rfl)
    (fun e => (e.later_invalidate file).requestedPath)
    fun _ e => e.abortBuild_invalidate file).symm

theorem invalidateDependents_abortBuild (file : Path) :
    ((r.modify path WorkerEntry.abortBuild).invalidateDependents file).2 =
      (r.invalidateDependents file).2.modify path WorkerEntry.abortBuild :=
  (r.modify_map path (fun e => (e.later_invalidate file).requestedPath)
    fun e => e.abortBuild_invalidate file).symm

theorem register_abortBuild {e : WorkerEntry} (he : e.changes = none) :
    ((r.modify path WorkerEntry.abortBuild).register e).2 =
      (r.register e).2.modify path WorkerEntry.abortBuild := by
  have hrefresh : (r.modify path WorkerEntry.abortBuild).modify e.requestedPath (·.refresh e) =
      (r.modify e.requestedPath (·.refresh e)).modify path WorkerEntry.abortBuild :=
    (r.modify_modify (f := WorkerEntry.abortBuild) (g := (·.refresh e)) (fun _ => rfl)
      (fun _ => rfl) fun _ d => d.abortBuild_refresh e).symm
  unfold register
  rw [get?_abortBuild]
  cases hget : r.get? e.requestedPath with
  | none =>
    have hsame : (if path = e.requestedPath then
        (none : Option WorkerEntry).map WorkerEntry.abortBuild else none) = none := ite_self none
    rw [hsame]
    unfold modify
    dsimp only
    rw [List.map_append, List.map_singleton, WorkerEntry.abortBuild_of_changes he, ite_self]
  | some old =>
    by_cases hp : path = e.requestedPath
    · rw [if_pos hp]
      exact hrefresh
    · rw [if_neg hp]
      exact hrefresh

/-- A build that is given up where it began was not noted. -/
theorem abortBuild_beginBuild (h : r.WF) {e : WorkerEntry} (he : r.get? path = some e)
    (hc : e.changes = none) :
    (r.modify path WorkerEntry.beginBuild).modify path WorkerEntry.abortBuild = r := by
  obtain ⟨before, after, hr, hmodify⟩ := h.exists_split he fun d => d.beginBuild.abortBuild
  have hself : e.beginBuild.abortBuild = e := WorkerEntry.abortBuild_of_changes hc
  have hsame : r.modify path (fun d => d.beginBuild.abortBuild) = r := by
    rw [hself, ← hr] at hmodify
    exact congrArg WorkerRegistry.mk hmodify
  rw [r.modify_twice (f := WorkerEntry.beginBuild) path (fun _ => rfl), hsame]

end WorkerRegistry

/-! ## Scripts -/

namespace CanonicalScript

/-- A script whose registry gave a build up. -/
def abortBuild (s : CanonicalScript) (path : String) : CanonicalScript :=
  { s with registry := s.registry.modify path WorkerEntry.abortBuild }

theorem add_abortBuild (s : CanonicalScript) (path : String) {w : KnownWorker}
    (hw : w.entry.IsNew) : (s.abortBuild path).add w = (s.add w).abortBuild path := by
  have hbuffer : (s.abortBuild path).buffer = s.buffer := rfl
  unfold add
  rw [hbuffer]
  cases s.buffer.overwrite w.start w.stop w.arguments with
  | error e => rfl
  | ok buffer =>
    dsimp only [abortBuild]
    rw [s.registry.register_abortBuild path hw.changes]

theorem addAll_abortBuild {ws : List KnownWorker} (hws : ∀ w ∈ ws, w.entry.IsNew)
    (s : CanonicalScript) (path : String) :
    ws.foldl add (s.abortBuild path) = (ws.foldl add s).abortBuild path := by
  induction ws generalizing s with
  | nil => rfl
  | cons w ws ih =>
    rw [List.foldl_cons, s.add_abortBuild path (hws w List.mem_cons_self),
      ih fun v hv => hws v (List.mem_cons_of_mem _ hv)]
    rfl

/-- Which constructions are made canonical does not hang on the workers that are known. -/
theorem ofText_abortBuild (text path q : String) (r : WorkerRegistry) :
    ofText text path (r.modify q WorkerEntry.abortBuild) =
      (ofText text path r).map (·.map (·.abortBuild q)) := by
  unfold ofText
  cases hfound : findConstructions text with
  | error e => rfl
  | ok found =>
    let script (r : WorkerRegistry) : CanonicalScript :=
      (KnownWorker.among path found).foldl add ⟨{ base := text }, [], r⟩
    have hscript : script (r.modify q WorkerEntry.abortBuild) = (script r).abortBuild q :=
      addAll_abortBuild (fun _ => KnownWorker.isNew_of_mem_among) ⟨{ base := text }, [], r⟩ q
    change Except.ok (if (script _).workers.isEmpty then none else some (script _)) =
      Except.ok (Option.map (·.abortBuild q)
        (if (script r).workers.isEmpty then none else some (script r)))
    rw [hscript, apply_ite (Option.map _)]
    rfl

end CanonicalScript

/-! ## The plugin -/

namespace PluginState

variable (s : PluginState) (path : String)

theorem canonicalize_abortBuild (q text : String) (isScript : Bool) :
    (s.abortBuild path).canonicalize q text isScript =
      ((s.canonicalize q text isScript).1.map (·.abortBuild path),
        (s.canonicalize q text isScript).2.abortBuild path) := by
  have hregistry :
      (s.abortBuild path).registry = s.registry.modify path WorkerEntry.abortBuild := rfl
  unfold canonicalize
  cases isScript with
  | false => rfl
  | true =>
    dsimp only [if_true]
    rw [hregistry, CanonicalScript.ofText_abortBuild]
    cases CanonicalScript.ofText text q s.registry with
    | error e => rfl
    | ok script => cases script <;> rfl

theorem handleChange_abortBuild (file : Path) :
    ((s.abortBuild path).handleChange file).2 = (s.handleChange file).2.abortBuild path := by
  have hregistry : (((s.registry.modify path WorkerEntry.abortBuild).recordChange
      file).invalidateDependents file).2 =
        ((s.registry.recordChange file).invalidateDependents file).2.modify path
          WorkerEntry.abortBuild := by
    rw [WorkerRegistry.recordChange_abortBuild, WorkerRegistry.invalidateDependents_abortBuild]
  exact congrArg (fun registry => { s with registry }) hregistry

theorem notify_abortBuild (file : Path) (l : PluginListener) :
    (s.abortBuild path).notify file l = (s.notify file l).abortBuild path := by
  cases l with
  | runningBuilds =>
    exact congrArg (fun registry => { s with registry })
      (s.registry.recordChange_abortBuild path file)
  | worker q =>
    exact congrArg (fun registry => { s with registry })
      (s.registry.invalidate_abortBuild path q file)
  | other => rfl

theorem emit_abortBuild (file : Path) :
    (s.abortBuild path).emit file = (s.emit file).abortBuild path := by
  unfold emit
  exact List.foldl_hom (fun s : PluginState => s.abortBuild path)
    fun s l => s.notify_abortBuild path file l.2

theorem lookup_abortBuild (q : String) : (s.abortBuild path).lookup q = s.lookup q := by
  have hfiles : (s.abortBuild path).virtualFiles = s.virtualFiles := rfl
  unfold lookup
  rw [hfiles]
  cases s.virtualFiles.get? q with
  | some file => rfl
  | none =>
    dsimp only [abortBuild]
    rw [WorkerRegistry.get?_abortBuild]
    cases s.registry.get? q with
    | none => rw [Option.map_none, ite_self]
    | some e =>
      by_cases hq : path = q
      · rw [if_pos hq]
        rfl
      · rw [if_neg hq]

/-! ### Builds of other workers -/

theorem abortBuild_abortBuild (q : String) :
    (s.abortBuild path).abortBuild q = (s.abortBuild q).abortBuild path :=
  congrArg (fun registry => { s with registry })
    (s.registry.modify_modify (f := WorkerEntry.abortBuild) (g := WorkerEntry.abortBuild)
      (fun _ => rfl) (fun _ => rfl) fun _ _ => rfl).symm

theorem beginBuild_abortBuild {path q : String} (h : path ≠ q) :
    (s.abortBuild path).beginBuild q =
      (s.beginBuild q).map fun (request, t) => (request, t.abortBuild path) := by
  have hregistry : (s.registry.modify path WorkerEntry.abortBuild).modify q
      WorkerEntry.beginBuild =
        (s.registry.modify q WorkerEntry.beginBuild).modify path WorkerEntry.abortBuild :=
    (s.registry.modify_modify (f := WorkerEntry.abortBuild) (g := WorkerEntry.beginBuild)
      (fun _ => rfl) (fun _ => rfl) fun hq => absurd hq h).symm
  unfold beginBuild
  dsimp only [abortBuild]
  rw [WorkerRegistry.get?_abortBuild, if_neg h, hregistry, Option.map_map]
  rfl

theorem install_abortBuild (options : PluginOptions) {path : String} {e : WorkerEntry}
    (h : path ≠ e.requestedPath) (output : BundleOutput) :
    (s.abortBuild path).install options e output =
      ((s.install options e output).1, (s.install options e output).2.abortBuild path) := by
  have hregistry : (s.registry.modify path WorkerEntry.abortBuild).modify e.requestedPath
      (s.storeOutput options e output) =
        (s.registry.modify e.requestedPath (s.storeOutput options e output)).modify path
          WorkerEntry.abortBuild :=
    (s.registry.modify_modify (f := WorkerEntry.abortBuild) (fun _ => rfl)
      (s.requestedPath_storeOutput options e output) fun hq => absurd hq h).symm
  exact congrArg (fun registry => ((s.install options e output).1,
    { (s.install options e output).2 with registry })) hregistry

variable {ε : Type}

theorem finishBuild_abortBuild (options : PluginOptions) {path q : String} (h : path ≠ q)
    (outcome : Except ε BundleOutput) :
    (s.abortBuild path).finishBuild options q outcome =
      ((s.finishBuild options q outcome).1,
        (s.finishBuild options q outcome).2.abortBuild path) := by
  cases outcome with
  | error cause =>
    exact congrArg (Prod.mk (Except.error (BuildFailure.mk q cause)))
      (s.abortBuild_abortBuild path q)
  | ok output =>
    unfold finishBuild
    dsimp only
    have hget : (s.abortBuild path).registry.get? q = s.registry.get? q := by
      dsimp only [abortBuild]
      rw [WorkerRegistry.get?_abortBuild, if_neg h]
    rw [hget]
    cases he : s.registry.get? q with
    | none => rfl
    | some e =>
      have hq : path ≠ e.requestedPath := by rwa [WorkerRegistry.requestedPath_of_get? he]
      dsimp only
      rw [s.install_abortBuild options hq]

/-! ### A build that begins -/

theorem abortBuild_beginBuild {s t : PluginState} {path : String} {request : BundleRequest}
    (h : s.beginBuild path = some (request, t)) (hr : s.registry.WF)
    (hidle : ∀ e, s.registry.get? path = some e → e.changes = none) : t.abortBuild path = s := by
  obtain ⟨-, e, he, rfl⟩ := exists_of_beginBuild h
  exact congrArg (fun registry => { s with registry })
    (s.registry.abortBuild_beginBuild path hr he (hidle e he))

end PluginState

end ModuleWorkers
