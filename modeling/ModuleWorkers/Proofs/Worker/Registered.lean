import ModuleWorkers.Proofs.Text.Search
import ModuleWorkers.Proofs.Worker.Registry

/-!
# What registrations do

`WorkerRegistry.Registers` says what workers that are registered one after the other make of a
registry: only their paths are touched, the last registration of a path says what its worker is, and
what is known of earlier builds stays, but for a bundle that was built with other options. One
registration more keeps this (`WorkerRegistry.Registers.register`), since all that it does to the
registry can be told from what is found under each path (`WorkerRegistry.get?_register_eq`).
-/

namespace ModuleWorkers

namespace WorkerEntry

/-- The entry of a path after a registration, given the one before. -/
def registered (old : Option WorkerEntry) (e : WorkerEntry) : WorkerEntry :=
  (old.map (·.refresh e)).getD e

/-- Whether an entry is the worker that a registration says. -/
structure IsRegisteredAs (e said : WorkerEntry) : Prop where
  requestedPath : e.requestedPath = said.requestedPath
  sourceFile : e.sourceFile = said.sourceFile
  baseDir : e.baseDir = said.baseDir
  options : e.options = said.options

/-- Whether an entry knows what another one did of builds, all but the bundle. -/
structure KeepsBuilds (e e' : WorkerEntry) : Prop where
  dependencies : e'.dependencies = e.dependencies
  listener : e'.listener = e.listener
  changes : e'.changes = e.changes

theorem isRegisteredAs_registered {old : Option WorkerEntry} {e : WorkerEntry}
    (h : ∀ d ∈ old, d.requestedPath = e.requestedPath) : (registered old e).IsRegisteredAs e := by
  cases old with
  | none => exact ⟨rfl, rfl, rfl, rfl⟩
  | some d => exact ⟨h d rfl, rfl, rfl, rfl⟩

theorem keepsBuilds_refresh (e later : WorkerEntry) : e.KeepsBuilds (e.refresh later) :=
  ⟨rfl, rfl, rfl⟩

theorem KeepsBuilds.trans {e e' e'' : WorkerEntry} (h : e.KeepsBuilds e')
    (h' : e'.KeepsBuilds e'') : e.KeepsBuilds e'' :=
  ⟨h'.dependencies.trans h.dependencies, h'.listener.trans h.listener,
    h'.changes.trans h.changes⟩

end WorkerEntry

namespace WorkerRegistry

/-- What is found under each path after a registration. -/
theorem get?_register_eq (r : WorkerRegistry) (e : WorkerEntry) (path : String) :
    (r.register e).2.get? path =
      if e.requestedPath = path then some (.registered (r.get? path) e) else r.get? path := by
  unfold register
  cases h : r.get? e.requestedPath with
  | some old =>
    simp only
    rw [get?_modify r (f := (·.refresh e)) fun _ => rfl]
    split
    · rename_i hpath
      rw [← hpath, h]
      rfl
    · rfl
  | none =>
    simp only
    unfold WorkerRegistry.get? at h ⊢
    rw [List.find?_append]
    split
    · rename_i hpath
      rw [← hpath, h]
      simp [WorkerEntry.registered]
    · rename_i hpath
      simp [hpath]

/-- What registrations, in their order, make of a registry. -/
structure Registers (r : WorkerRegistry) (es : List WorkerEntry) (r' : WorkerRegistry) : Prop where
  /-- The other paths are untouched. -/
  get?_of_forall_ne : ∀ path, (∀ e ∈ es, e.requestedPath ≠ path) → r'.get? path = r.get? path
  /-- The last registration of a path counts. -/
  last : ∀ before e after, es = before ++ e :: after →
    (∀ d ∈ after, d.requestedPath ≠ e.requestedPath) →
      ∃ e', r'.get? e.requestedPath = some e' ∧ e'.IsRegisteredAs e
  added : ∀ path e', r.get? path = none → r'.get? path = some e' → e'.IsNew
  kept : ∀ path e, r.get? path = some e → ∃ e', r'.get? path = some e' ∧ e.KeepsBuilds e' ∧
    ((∀ d ∈ es, d.requestedPath = path → d.options = e.options) →
      e'.bundle = e.bundle ∧ e'.options = e.options) ∧
    ((∃ d ∈ es, d.requestedPath = path ∧ d.options ≠ e.options) → e'.bundle = none)

namespace Registers

theorem nil (r : WorkerRegistry) : r.Registers [] r where
  get?_of_forall_ne _ _ := rfl
  last before e after h := by simp at h
  added path e' hn he' := by rw [hn] at he'; cases he'
  kept path e he := ⟨e, he, ⟨rfl, rfl, rfl⟩, fun _ => ⟨rfl, rfl⟩, by simp⟩

variable {r r' : WorkerRegistry} {es : List WorkerEntry} {path : String}

/-- What is found under the path of a registration. -/
theorem kept_register (h : r.Registers es r') {x e : WorkerEntry} (hpath : x.requestedPath = path)
    (he : r.get? path = some e) :
    ∃ e', (r'.register x).2.get? path = some e' ∧ e.KeepsBuilds e' ∧
      ((∀ d ∈ es ++ [x], d.requestedPath = path → d.options = e.options) →
        e'.bundle = e.bundle ∧ e'.options = e.options) ∧
      ((∃ d ∈ es ++ [x], d.requestedPath = path ∧ d.options ≠ e.options) → e'.bundle = none) := by
  obtain ⟨e', he', hkeeps, hsame, hother⟩ := h.kept path e he
  refine ⟨e'.refresh x, ?_, hkeeps.trans (e'.keepsBuilds_refresh x), fun hall => ?_, ?_⟩
  · rw [get?_register_eq, if_pos hpath, he']
    rfl
  · obtain ⟨hbundle, hoptions⟩ := hsame fun d hd => hall d (List.mem_append_left _ hd)
    have hx : x.options = e.options := hall x (by simp) hpath
    exact ⟨(if_pos (hoptions.trans hx.symm)).trans hbundle, hx⟩
  · rintro ⟨d, hd, hdpath, hdoptions⟩
    -- Either the bundle was dropped before, or these options are the first ones that differ.
    by_cases hearlier : ∃ d ∈ es, d.requestedPath = path ∧ d.options ≠ e.options
    · change (if e'.options = x.options then e'.bundle else none) = none
      rw [hother hearlier, ite_self]
    · have hall : ∀ d ∈ es, d.requestedPath = path → d.options = e.options := by
        intro d hd hp
        by_contra hne
        exact hearlier ⟨d, hd, hp, hne⟩
      rcases List.mem_append.1 hd with hd | hd
      · exact absurd (hall d hd hdpath) hdoptions
      · cases List.mem_singleton.1 hd
        exact if_neg fun heq => hdoptions (heq.symm.trans (hsame hall).2)

theorem register (h : r.Registers es r') {x : WorkerEntry} (hx : x.IsNew) :
    r.Registers (es ++ [x]) (r'.register x).2 where
  get?_of_forall_ne path hne := by
    rw [get?_register_eq, if_neg (hne x (by simp))]
    exact h.get?_of_forall_ne path fun e he => hne e (List.mem_append_left _ he)
  last before e after hes hafter := by
    rcases cases_of_append_eq hes with ⟨after', rfl, rfl⟩ | ⟨_, -, hlast⟩
    · rw [get?_register_eq, if_neg (hafter x (by simp))]
      exact h.last before e after' rfl fun d hd => hafter d (List.mem_append_left _ hd)
    · obtain rfl : e = x := List.mem_singleton.1 (hlast ▸ by simp)
      rw [get?_register_eq, if_pos rfl]
      exact ⟨_, rfl, WorkerEntry.isRegisteredAs_registered fun d hd => requestedPath_of_get? hd⟩
  added path e' hn he' := by
    rw [get?_register_eq] at he'
    split at he'
    · cases hr' : r'.get? path with
      | none =>
        rw [hr'] at he'
        cases he'
        exact hx
      | some d =>
        rw [hr'] at he'
        cases he'
        exact (d.later_refresh x).isNew (h.added path d hn hr')
    · exact h.added path e' hn he'
  kept path e he := by
    by_cases hpath : x.requestedPath = path
    · exact h.kept_register hpath he
    · obtain ⟨e', he', hkeeps, hsame, hother⟩ := h.kept path e he
      refine ⟨e', ?_, hkeeps, fun hall => hsame fun d hd => hall d (List.mem_append_left _ hd), ?_⟩
      · rw [get?_register_eq, if_neg hpath, he']
      · rintro ⟨d, hd, hdpath, hdoptions⟩
        rcases List.mem_append.1 hd with hd | hd
        · exact hother ⟨d, hd, hdpath, hdoptions⟩
        · cases List.mem_singleton.1 hd
          exact absurd hdpath hpath

end Registers

end WorkerRegistry

end ModuleWorkers
