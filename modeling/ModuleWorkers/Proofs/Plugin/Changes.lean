import ModuleWorkers.Plugin.Response
import ModuleWorkers.Proofs.Worker.Canonical

/-!
# Changes of files and registrations

No change of a file and no registration begins or ends a build: both only make the registry a later
one (`PluginState.Later`). A change is besides noted by all builds that are running, and drops the
bundles that depend on the file of those workers whose listeners hear of it
(`PluginState.notes_emit`, `PluginState.avoids_emit`).
-/

namespace ModuleWorkers

namespace WorkerRegistry

/-- All builds that are running have noted a change. -/
def Notes (r : WorkerRegistry) (file : Path) : Prop :=
  ∀ path e cs, r.get? path = some e → e.changes = some cs → cs.contains file

/-- The bundle of a path, if there is one, does not depend on a file. -/
def Avoids (r : WorkerRegistry) (path : String) (file : Path) : Prop :=
  ∀ e, r.get? path = some e → e.bundle.isSome → e.dependencies.contains file = false

/-- The build of a path that is running was running before, and nothing that it noted is lost. -/
def Remembers (r r' : WorkerRegistry) (path : String) : Prop :=
  ∀ e' cs', r'.get? path = some e' → e'.changes = some cs' →
    ∃ e cs, r.get? path = some e ∧ e.changes = some cs ∧ ∀ f, cs.contains f → cs'.contains f

theorem Later.remembers {r r' : WorkerRegistry} (hl : r.Later r') (path : String) :
    r.Remembers r' path := by
  intro e' cs' he' hcs'
  rcases hl.get?_of_get? he' with ⟨e, he, hle⟩ | ⟨-, hn⟩
  · cases hcs : e.changes with
    | none =>
      rw [hle.idle hcs] at hcs'
      cases hcs'
    | some cs =>
      obtain ⟨ds, hds, hsub⟩ := hle.noted cs hcs
      rw [hcs'] at hds
      cases hds
      exact ⟨e, cs, he, hcs, hsub⟩
  · rw [hn.changes] at hcs'
    cases hcs'

theorem Notes.later {r r' : WorkerRegistry} {file : Path} (h : r.Notes file) (hl : r.Later r') :
    r'.Notes file := by
  intro path e' cs' he' hcs'
  obtain ⟨e, cs, he, hcs, hsub⟩ := hl.remembers path e' cs' he' hcs'
  exact hsub file (h path e cs he hcs)

theorem Avoids.later {r r' : WorkerRegistry} {path : String} {file : Path} (h : r.Avoids path file)
    (hl : r.Later r') : r'.Avoids path file := by
  intro e' he' hb'
  rcases hl.get?_of_get? he' with ⟨e, he, hle⟩ | ⟨-, hn⟩
  · obtain ⟨b, hb⟩ := Option.isSome_iff_exists.1 hb'
    rw [hle.dependencies]
    exact h e he (by rw [hle.bundle_eq hb]; rfl)
  · rw [hn.bundle] at hb'
    cases hb'

theorem notes_recordChange (r : WorkerRegistry) (file : Path) :
    (r.recordChange file).Notes file := by
  intro path e cs he hcs
  have hp : ∀ e : WorkerEntry, (e.recordChange file).requestedPath = e.requestedPath := fun _ => rfl
  unfold recordChange at he
  rw [get?_map r hp] at he
  obtain ⟨d, -, rfl⟩ := Option.map_eq_some_iff.1 he
  exact WorkerEntry.contains_recordChange hcs

theorem avoids_invalidate (r : WorkerRegistry) (path : String) (file : Path) :
    (r.invalidate path file).2.Avoids path file := by
  intro e he hb
  unfold invalidate at he
  rw [get?_modify r fun e => (e.later_invalidate file).requestedPath, if_pos rfl] at he
  obtain ⟨d, -, rfl⟩ := Option.map_eq_some_iff.1 he
  obtain ⟨b, hb⟩ := Option.isSome_iff_exists.1 hb
  exact WorkerEntry.not_dependsOn_of_invalidate hb

theorem avoids_invalidateDependents (r : WorkerRegistry) (path : String) (file : Path) :
    (r.invalidateDependents file).2.Avoids path file := by
  intro e he hb
  unfold invalidateDependents at he
  rw [get?_map r fun e => (e.later_invalidate file).requestedPath] at he
  obtain ⟨d, -, rfl⟩ := Option.map_eq_some_iff.1 he
  obtain ⟨b, hb⟩ := Option.isSome_iff_exists.1 hb
  exact WorkerEntry.not_dependsOn_of_invalidate hb

end WorkerRegistry

namespace PluginState

/-- What a state can become while no build begins or ends and no file is served at other paths. -/
structure Later (s s' : PluginState) : Prop where
  root : s'.root = s.root
  virtualFiles : s'.virtualFiles = s.virtualFiles
  watcher : s'.watcher = s.watcher
  isStarted : s'.isStarted = s.isStarted
  registry : s.registry.Later s'.registry

namespace Later

theorem refl (s : PluginState) : s.Later s := ⟨rfl, rfl, rfl, rfl, .refl _⟩

theorem trans {s s' s'' : PluginState} (h : s.Later s') (h' : s'.Later s'') : s.Later s'' where
  root := h'.root.trans h.root
  virtualFiles := h'.virtualFiles.trans h.virtualFiles
  watcher := h'.watcher.trans h.watcher
  isStarted := h'.isStarted.trans h.isStarted
  registry := h.registry.trans h'.registry

end Later

/-! ## Changes that the watcher reports -/

theorem later_notify (s : PluginState) (file : Path) (l : PluginListener) :
    s.Later (s.notify file l) := by
  cases l with
  | runningBuilds => exact ⟨rfl, rfl, rfl, rfl, s.registry.later_recordChange file⟩
  | worker path => exact ⟨rfl, rfl, rfl, rfl, s.registry.later_invalidate path file⟩
  | other => exact Later.refl s

theorem later_notifyAll (ls : List (ListenerId × PluginListener)) (s : PluginState) (file : Path) :
    s.Later (ls.foldl (fun s l => s.notify file l.2) s) := by
  induction ls generalizing s with
  | nil => exact Later.refl s
  | cons l ls ih => exact (later_notify s file l.2).trans (ih _)

theorem later_emit (s : PluginState) (file : Path) : s.Later (s.emit file) :=
  later_notifyAll s.watcher.host.listeners s file

/-- What a listener does holds after all are told, if what comes later does not undo it. -/
theorem notifyAll_of_mem {ls : List (ListenerId × PluginListener)} {l : ListenerId × PluginListener}
    (hl : l ∈ ls) (P : WorkerRegistry → Prop) {file : Path}
    (hP : ∀ s : PluginState, P (s.notify file l.2).registry)
    (hlater : ∀ r r' : WorkerRegistry, P r → r.Later r' → P r') (s : PluginState) :
    P (ls.foldl (fun s l => s.notify file l.2) s).registry := by
  obtain ⟨before, after, rfl⟩ := List.append_of_mem hl
  rw [List.foldl_append, List.foldl_cons]
  exact hlater _ _ (hP _) (later_notifyAll after _ file).registry

theorem notes_emit {s : PluginState} {id : ListenerId}
    (h : (id, .runningBuilds) ∈ s.watcher.host.listeners) (file : Path) :
    (s.emit file).registry.Notes file :=
  notifyAll_of_mem h (·.Notes file) (fun s => s.registry.notes_recordChange file)
    (fun _ _ hr hl => hr.later hl) s

theorem avoids_emit {s : PluginState} {id : ListenerId} {path : String}
    (h : (id, .worker path) ∈ s.watcher.host.listeners) (file : Path) :
    (s.emit file).registry.Avoids path file :=
  notifyAll_of_mem h (·.Avoids path file) (fun s => s.registry.avoids_invalidate path file)
    (fun _ _ hr hl => hr.later hl) s

/-! ## Changes that are handled at once -/

theorem later_handleChange (s : PluginState) (file : Path) : s.Later (s.handleChange file).2 :=
  ⟨rfl, rfl, rfl, rfl,
    (s.registry.later_recordChange file).trans (WorkerRegistry.later_invalidateDependents _ file)⟩

theorem notes_handleChange (s : PluginState) (file : Path) :
    (s.handleChange file).2.registry.Notes file :=
  (s.registry.notes_recordChange file).later (WorkerRegistry.later_invalidateDependents _ file)

theorem avoids_handleChange (s : PluginState) (path : String) (file : Path) :
    (s.handleChange file).2.registry.Avoids path file :=
  WorkerRegistry.avoids_invalidateDependents _ path file

end PluginState

/-! ## Registrations -/

namespace PluginState

/-- A script that is served with canonical constructions has registered its workers. -/
theorem canonicalize_cases (s : PluginState) (path text : String) (isScript : Bool) :
    s.canonicalize path text isScript = (none, s) ∨
      ∃ script, CanonicalScript.ofText text path s.registry = .ok (some script) ∧
        s.canonicalize path text isScript =
          (some script, { s with registry := script.registry }) := by
  unfold canonicalize
  cases isScript with
  | false => exact .inl rfl
  | true =>
    dsimp only [if_true]
    split
    · exact .inl rfl
    · exact .inl rfl
    · rename_i script h
      exact .inr ⟨script, h, rfl⟩

theorem later_canonicalize (s : PluginState) (path text : String) (isScript : Bool) :
    s.Later (s.canonicalize path text isScript).2 := by
  rcases s.canonicalize_cases path text isScript with h | ⟨script, hscript, h⟩
  · rw [h]
    exact .refl s
  · rw [h]
    exact ⟨rfl, rfl, rfl, rfl, CanonicalScript.later_ofText hscript⟩

end PluginState

end ModuleWorkers
