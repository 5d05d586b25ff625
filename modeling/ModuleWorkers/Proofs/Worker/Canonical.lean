import ModuleWorkers.Proofs.Edits.Order
import ModuleWorkers.Proofs.Worker.Registry
import ModuleWorkers.Worker.Canonical

/-!
# Canonical scripts

`CanonicalScript.Rewrites` says what the buffer of a script holds when some constructions were made
canonical: the argument lists of the workers that were written, and no room for the others. Each
construction keeps it (`Rewrites.add`), so it holds of whole scripts (`rewrites_ofText`). The
registry of a script is a later one than the registry it started with (`later_ofText`).
-/

namespace ModuleWorkers

open Text

namespace KnownWorker

/-- The edit that makes the construction of a worker canonical. -/
def edit (w : KnownWorker) : Edit := ⟨w.start, w.stop, w.arguments⟩

/-- The workers that a script served at a path constructs. -/
def among (path : String) (found : List Construction) : List KnownWorker :=
  found.filterMap (ofConstruction? (UrlPath.normalize path))

theorem isNew_entry {servedPath : String} {c : Construction} {w : KnownWorker}
    (h : ofConstruction? servedPath c = some w) : w.entry.IsNew := by
  unfold ofConstruction? at h
  simp only [Option.bind_eq_bind, Option.bind_eq_some_iff, Option.pure_def, Option.some.injEq] at h
  obtain ⟨options, -, ⟨sourceFile, requestedPath⟩, -, rfl⟩ := h
  exact ⟨rfl, rfl, rfl, rfl⟩

theorem isNew_of_mem_among {path : String} {found : List Construction} {w : KnownWorker}
    (h : w ∈ among path found) : w.entry.IsNew := by
  obtain ⟨c, -, hw⟩ := List.mem_filterMap.1 h
  exact isNew_entry hw

/-- A known worker stands where one was constructed. -/
theorem exists_of_mem_among {path : String} {found : List Construction} {w : KnownWorker}
    (h : w ∈ among path found) : ∃ c ∈ found, w.start = c.start ∧ w.stop = c.stop := by
  obtain ⟨c, hc, hw⟩ := List.mem_filterMap.1 h
  unfold ofConstruction? at hw
  simp only [Option.bind_eq_bind, Option.bind_eq_some_iff, Option.pure_def, Option.some.injEq] at hw
  obtain ⟨options, -, ⟨sourceFile, requestedPath⟩, -, rfl⟩ := hw
  exact ⟨c, hc, rfl, rfl⟩

end KnownWorker

namespace CanonicalScript

/-- What the buffer of a script holds after the constructions of workers. -/
structure Rewrites (base : String) (workers : List KnownWorker) (s : CanonicalScript) : Prop where
  base_eq : s.buffer.base = base
  wf : s.buffer.WF
  exists_of_mem : ∀ e ∈ s.buffer.edits, ∃ w ∈ workers, e = w.edit
  /-- A worker that was not written is one that an edit is in the way of. -/
  exists_conflicts : ∀ w ∈ workers, w.start < w.stop → w.edit.Fits base.toList →
    ∃ e ∈ s.buffer.edits, w.edit.conflicts e

/-! ## Edits -/

namespace Rewrites

theorem nil (base : String) (registry : WorkerRegistry) :
    Rewrites base [] ⟨{ base }, [], registry⟩ :=
  ⟨rfl, .nil base, by simp, by simp⟩

theorem add {base : String} {workers : List KnownWorker} {s : CanonicalScript}
    (h : s.Rewrites base workers) (w : KnownWorker) : (s.add w).Rewrites base (workers ++ [w]) := by
  unfold CanonicalScript.add
  cases hb : s.buffer.overwrite w.start w.stop w.arguments with
  | error error =>
    refine ⟨h.base_eq, h.wf, ?_, ?_⟩
    · intro e he
      obtain ⟨v, hv, rfl⟩ := h.exists_of_mem e he
      exact ⟨v, List.mem_append_left _ hv, rfl⟩
    · intro v hv hlt hfits
      rcases List.mem_append.1 hv with hv | hv
      · exact h.exists_conflicts v hv hlt hfits
      · cases List.mem_singleton.1 hv
        rw [← h.base_eq] at hfits
        exact EditBuffer.exists_conflicts hb hfits
  | ok buffer =>
    have hwf := h.wf.overwrite hb
    obtain ⟨-, -, rfl⟩ := EditBuffer.overwrite_eq_ok hb
    refine ⟨h.base_eq, hwf, ?_, ?_⟩
    · intro e he
      rcases EditBuffer.mem_insert.1 he with rfl | he
      · exact ⟨w, by simp, rfl⟩
      · obtain ⟨v, hv, rfl⟩ := h.exists_of_mem e he
        exact ⟨v, List.mem_append_left _ hv, rfl⟩
    · intro v hv hlt hfits
      rcases List.mem_append.1 hv with hv | hv
      · obtain ⟨e, he, hc⟩ := h.exists_conflicts v hv hlt hfits
        exact ⟨e, EditBuffer.mem_insert.2 (.inr he), hc⟩
      · cases List.mem_singleton.1 hv
        exact ⟨w.edit, EditBuffer.mem_insert.2 (.inl rfl), Edit.conflicts_self hlt⟩

theorem foldl {base : String} {workers : List KnownWorker} {s : CanonicalScript}
    (h : s.Rewrites base workers) (ws : List KnownWorker) :
    (ws.foldl CanonicalScript.add s).Rewrites base (workers ++ ws) := by
  induction ws generalizing workers s with
  | nil => simpa using h
  | cons w ws ih =>
    rw [List.foldl_cons, List.append_cons]
    exact ih (h.add w)

end Rewrites

/-- A canonical script is what its constructions make of its text. -/
theorem ofText_eq_some {text path : String} {registry : WorkerRegistry} {script : CanonicalScript}
    (h : ofText text path registry = .ok (some script)) :
    ∃ found, findConstructions text = .ok found ∧
      script = (KnownWorker.among path found).foldl add ⟨{ base := text }, [], registry⟩ := by
  unfold ofText at h
  cases hfound : findConstructions text with
  | error e =>
    rw [hfound] at h
    cases h
  | ok found =>
    rw [hfound] at h
    refine ⟨found, rfl, ?_⟩
    change Except.ok (if _ then none else some _) = Except.ok (some script) at h
    split at h
    · cases h
    · exact (Option.some.inj (Except.ok.inj h)).symm

theorem exists_ofText_eq_some {text path : String} {registry : WorkerRegistry}
    {p : CanonicalScript → Prop} (h : ∃ s ∈ (ofText text path registry).toOption.join, p s) :
    ∃ s, ofText text path registry = .ok (some s) ∧ p s := by
  obtain ⟨s, hs, hp⟩ := h
  refine ⟨s, ?_, hp⟩
  cases htext : ofText text path registry with
  | error e =>
    rw [htext] at hs
    cases hs
  | ok script =>
    rw [htext] at hs
    exact congrArg Except.ok hs

theorem rewrites_ofText {text path : String} {registry : WorkerRegistry} {script : CanonicalScript}
    (h : ofText text path registry = .ok (some script)) :
    ∃ found, findConstructions text = .ok found ∧
      script.Rewrites text (KnownWorker.among path found) := by
  obtain ⟨found, hfound, rfl⟩ := ofText_eq_some h
  exact ⟨found, hfound, (Rewrites.nil text registry).foldl _⟩

/-! ## Registrations -/

theorem later_add (s : CanonicalScript) {w : KnownWorker} (hw : w.entry.IsNew) :
    s.registry.Later (s.add w).registry := by
  unfold add
  split
  · exact .refl _
  · exact s.registry.later_register hw

theorem later_addAll {ws : List KnownWorker} (hws : ∀ w ∈ ws, w.entry.IsNew)
    (s : CanonicalScript) : s.registry.Later (ws.foldl add s).registry := by
  induction ws generalizing s with
  | nil => exact .refl _
  | cons w ws ih =>
    have hw : w.entry.IsNew := hws w List.mem_cons_self
    exact (s.later_add hw).trans (ih (fun v hv => hws v (List.mem_cons_of_mem _ hv)) _)

theorem later_ofText {text path : String} {r : WorkerRegistry} {script : CanonicalScript}
    (h : ofText text path r = .ok (some script)) : r.Later script.registry := by
  obtain ⟨found, -, rfl⟩ := ofText_eq_some h
  exact later_addAll (fun _ => KnownWorker.isNew_of_mem_among) ⟨{ base := text }, [], r⟩

end CanonicalScript

end ModuleWorkers
