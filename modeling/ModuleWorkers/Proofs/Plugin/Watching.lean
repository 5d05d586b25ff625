import ModuleWorkers.Proofs.Plugin.Session

/-!
# What is watched while a plugin is in use

Whatever happens to a plugin, its watcher counts for each file the workers that wait for it, the
host watches just the files with a count, and it has one listener for each of those workers and the
one for running builds (`Session.watchesEntries`). So builds leave nothing behind when a worker is
built again, and a file that several workers need is watched until the last of them needs it no
more.
-/

namespace ModuleWorkers

/-- The watcher of a plugin and its host hold what the entries with listeners need. -/
structure PluginState.WatchesEntries (s : PluginState) : Prop where
  count_eq : ∀ p, s.watcher.counts.count p =
    s.registry.entries.countP fun e => e.listener.isSome && e.dependencies.contains p
  ne_zero : ∀ c ∈ s.watcher.counts, c.2 ≠ 0
  distinct_files : s.watcher.counts.Pairwise fun c d => (c.1 == d.1) = false
  watched : ∀ p, s.watcher.host.isWatched p ↔ s.watcher.counts.count p ≠ 0
  /-- One listener for the builds that are running, and one for each entry with a listener. -/
  listeners : s.watcher.host.listeners.Perm ((0, .runningBuilds) ::
    s.registry.entries.filterMap fun e => e.listener.map fun id => (id, .worker e.requestedPath))
  registered : ∀ e ∈ s.registry.entries, ∀ id, e.listener = some id →
    (id, .worker e.requestedPath) ∈ s.watcher.host.listeners
  distinct : (s.registry.entries.filterMap (·.listener)).Nodup

namespace WorkerRegistry

theorem countP_watches (r : WorkerRegistry) (p : Path) :
    r.watches.countP (·.dependencies.contains p) =
      r.entries.countP fun e => e.listener.isSome && e.dependencies.contains p := by
  unfold watches
  rw [List.countP_filterMap]
  congr 1
  funext e
  unfold WorkerEntry.watch?
  cases e.listener <;> simp

theorem map_registration_watches (r : WorkerRegistry) : r.watches.map (·.registration) =
    r.entries.filterMap fun e => e.listener.map fun id => (id, .worker e.requestedPath) := by
  unfold watches
  rw [List.map_filterMap]
  congr 1
  funext e
  unfold WorkerEntry.watch?
  cases e.listener <;> rfl

theorem map_listener_watches (r : WorkerRegistry) :
    r.watches.map (·.listener) = r.entries.filterMap (·.listener) := by
  unfold watches
  rw [List.map_filterMap]
  congr 1
  funext e
  unfold WorkerEntry.watch?
  cases e.listener <;> rfl

end WorkerRegistry

theorem PluginState.Accounted.toWatchesEntries {s : PluginState} (h : s.Accounted)
    (hs : s.isStarted = true) : s.WatchesEntries := by
  have hown : s.ownListeners = [(0, .runningBuilds)] := by
    unfold ownListeners
    rw [if_pos hs]
  have hperm := h.accounts.listeners
  rw [hown, List.singleton_append, WorkerRegistry.map_registration_watches] at hperm
  have hids : (s.registry.watches.map (·.listener)).Nodup := by
    have hall := (h.accounts.listeners.map (·.1)).nodup_iff.1 h.accounts.distinct
    rw [List.map_append, List.map_map] at hall
    exact (List.nodup_append.1 hall).2.1
  refine
    { count_eq := fun p => (h.accounts.count_eq p).trans (s.registry.countP_watches p)
      ne_zero := h.accounts.exact.counts.ne_zero
      distinct_files := h.accounts.exact.counts.distinct
      watched := h.accounts.exact.watched
      listeners := hperm
      registered := fun e he id hid => ?_
      distinct := ?_ }
  · refine hperm.mem_iff.2 (List.mem_cons_of_mem _ (List.mem_filterMap.2 ⟨e, he, ?_⟩))
    rw [hid]
    rfl
  · rwa [WorkerRegistry.map_listener_watches] at hids

namespace Session

variable {ε : Type} {options : PluginOptions} {s s' : Session ε}

theorem accounted_step {ev : SessionEvent ε} (hs : s.plugin.Accounted)
    (h : s.step options ev = some s') : s'.plugin.Accounted := by
  have he := effect_step h
  generalize s'.plugin = plugin, s'.maps = maps at he ⊢
  cases he with
  | same => exact hs
  | start hstarted => exact hs.start hstarted _
  | serve => exact hs.later (s.plugin.later_canonicalize _ _ _)
  | storeMap => exact hs.storeMap _ _
  | change => exact hs.later (s.plugin.later_handleChange _)
  | emit => exact hs.later (s.plugin.later_emit _)
  | beginBuild _ hb => exact hs.beginBuild hb
  | beginBuild_unknown => exact hs
  | finishBuild => exact hs.finishBuild options _ _

theorem accounted_run {evs : List (SessionEvent ε)} (h : run options {} evs = some s) :
    s.plugin.Accounted :=
  run_induction (P := (·.plugin.Accounted)) h .empty fun _ _ _ ht hstep => accounted_step ht hstep

/-- Once its server started, a plugin watches what its workers need and nothing else. -/
theorem watchesEntries {evs : List (SessionEvent ε)} (h : run options {} evs = some s)
    (hs : s.plugin.isStarted = true) : s.plugin.WatchesEntries :=
  (accounted_run h).toWatchesEntries hs

/-- The file that two workers share is watched for one of them when the other is built again without
it. -/
theorem watchesEntries_sharedFile : ∃ s : Session Unit,
    run {} {} (.start ⟨"/app"⟩ :: sharedFileEvents ++ .emit ⟨"/app/shared.js"⟩ ::
      buildEvents 2 "/v.js" { code := "1;", map := .empty ⟨"/app"⟩ }) = some s ∧
    s.plugin.isStarted = true ∧ s.plugin.watcher.counts.count ⟨"/app/shared.js"⟩ = 1 ∧
    s.plugin.WatchesEntries := by
  have hrun : (run {} {} (.start ⟨"/app"⟩ :: sharedFileEvents ++ .emit ⟨"/app/shared.js"⟩ ::
      buildEvents 2 "/v.js" { code := "1;", map := .empty ⟨"/app"⟩ })).map
      (fun s : Session Unit =>
        (s.plugin.isStarted, s.plugin.watcher.counts.count ⟨"/app/shared.js"⟩)) =
      some (true, 1) := by
    decide +kernel
  obtain ⟨s, hs, hcount⟩ := Option.map_eq_some_iff.1 hrun
  obtain ⟨hstarted, hcount⟩ := Prod.mk.inj hcount
  exact ⟨s, hs, hstarted, hcount, watchesEntries hs hstarted⟩

end Session

end ModuleWorkers
