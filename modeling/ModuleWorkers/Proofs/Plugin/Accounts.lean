import ModuleWorkers.Proofs.Plugin.Builds
import ModuleWorkers.Proofs.Plugin.Changes
import ModuleWorkers.Proofs.Watch.Counts

/-!
# What the watcher is asked for

`SharedWatcher.Accounts` says that a watcher was asked for what a list of watches needs and for
nothing else: the count of a file is the number of watches that depend on it, and the listeners are
those of the watches and some of its owner. A watcher accounts for one watch more after `watch` and
for one less after `unwatch`, if it is given the files that it was given for that watch.

The watcher of a plugin accounts for the entries that have a listener (`PluginState.Accounted`),
which everything that a plugin does preserves.
-/

namespace ModuleWorkers

def WorkerWatch.registration (w : WorkerWatch) : ListenerId × PluginListener :=
  (w.listener, .worker w.path)

namespace SharedWatcher

/-- A watcher with listeners of its owner that watches files for a list of watches. -/
structure Accounts (w : SharedWatcher PluginListener) (own : List (ListenerId × PluginListener))
    (ws : List WorkerWatch) : Prop where
  exact : w.Exact
  sorted : ∀ x ∈ ws, PathSet.IsSorted x.dependencies
  count_eq : ∀ p, w.counts.count p = ws.countP (·.dependencies.contains p)
  listeners : w.host.listeners.Perm (own ++ ws.map (·.registration))
  distinct : (w.host.listeners.map (·.1)).Nodup
  lt_next : ∀ l ∈ w.host.listeners, l.1 < w.host.next

/-- Without the first of some listeners the others are left. -/
theorem perm_filter_listener {ls : List (ListenerId × PluginListener)}
    {l : ListenerId × PluginListener} {rest : List (ListenerId × PluginListener)}
    (h : ls.Perm (l :: rest)) (hd : (ls.map (·.1)).Nodup) :
    (ls.filter (·.1 != l.1)).Perm rest := by
  have hnodup : ((l :: rest).map (·.1)).Nodup := (h.map (·.1)).nodup_iff.1 hd
  have hne : ∀ k ∈ rest, (k.1 != l.1) = true := by
    intro k hk
    rw [bne_iff_ne]
    intro hkl
    refine (List.nodup_cons.1 hnodup).1 ?_
    change l.1 ∈ rest.map (·.1)
    rw [← hkl]
    exact List.mem_map_of_mem hk
  have hrest : (l :: rest).filter (·.1 != l.1) = rest := by
    rw [List.filter_cons_of_neg (by simp), List.filter_eq_self]
    exact hne
  rw [← hrest]
  exact h.filter _

namespace Accounts

variable {w : SharedWatcher PluginListener} {own : List (ListenerId × PluginListener)}
  {ws : List WorkerWatch}

theorem perm (h : w.Accounts own ws) {ws' : List WorkerWatch} (hp : ws.Perm ws') :
    w.Accounts own ws' where
  exact := h.exact
  sorted x hx := h.sorted x (hp.mem_iff.2 hx)
  count_eq p := (h.count_eq p).trans (hp.countP_eq _)
  listeners := h.listeners.trans ((hp.map _).append_left own)
  distinct := h.distinct
  lt_next := h.lt_next

/-- The listener of a watch is there. -/
theorem mem_listeners (h : w.Accounts own ws) {x : WorkerWatch} (hx : x ∈ ws) :
    x.registration ∈ w.host.listeners :=
  h.listeners.mem_iff.2 (List.mem_append_right _ (List.mem_map_of_mem hx))

theorem watch (h : w.Accounts own ws) {files : PathSet} (hf : PathSet.IsSorted files)
    (path : String) : (w.watch files (.worker path)).2.Accounts own
      (⟨path, (w.watch files (.worker path)).1, files⟩ :: ws) where
  exact := h.exact.watch hf _
  sorted x hx := by
    rcases List.mem_cons.1 hx with rfl | hx
    · exact hf
    · exact h.sorted x hx
  count_eq p := by
    rw [count_watch h.exact hf, h.count_eq, List.countP_cons]
  listeners := by
    change (w.host.listeners ++ [(w.host.next, PluginListener.worker path)]).Perm
      (own ++ (w.host.next, PluginListener.worker path) :: ws.map (·.registration))
    exact (List.perm_append_singleton _ _).trans ((h.listeners.cons _).trans List.perm_middle.symm)
  distinct := by
    change ((w.host.listeners ++ [(w.host.next, PluginListener.worker path)]).map (·.1)).Nodup
    rw [List.map_append, List.nodup_append]
    refine ⟨h.distinct, List.pairwise_singleton _ _, ?_⟩
    intro id hid next hnext
    obtain ⟨l, hl, rfl⟩ := List.mem_map.1 hid
    rw [List.map_singleton, List.mem_singleton] at hnext
    rw [hnext]
    exact Nat.ne_of_lt (h.lt_next l hl)
  lt_next l hl := by
    rcases List.mem_append.1 hl with hl | hl
    · exact Nat.lt_succ_of_lt (h.lt_next l hl)
    · rw [List.mem_singleton.1 hl]
      exact Nat.lt_succ_self _

theorem unwatch {x : WorkerWatch} (h : w.Accounts own (x :: ws)) :
    (w.unwatch x.listener x.dependencies).Accounts own ws where
  exact := h.exact.unwatch (h.sorted x List.mem_cons_self) _
  sorted y hy := h.sorted y (List.mem_cons_of_mem _ hy)
  count_eq p := by
    rw [count_unwatch h.exact (h.sorted x List.mem_cons_self), h.count_eq, List.countP_cons,
      Nat.add_sub_cancel]
  listeners := perm_filter_listener (h.listeners.trans List.perm_middle) h.distinct
  distinct := h.distinct.sublist (List.filter_sublist.map _)
  lt_next l hl := h.lt_next l (List.mem_filter.1 hl).1

end Accounts

end SharedWatcher

namespace PluginState

/-- The listeners of a plugin that are not those of workers. -/
def ownListeners (s : PluginState) : List (ListenerId × PluginListener) :=
  if s.isStarted then [(0, .runningBuilds)] else []

/-- The watcher is asked for what the entries need, and for nothing before the server starts. -/
structure Accounted (s : PluginState) : Prop where
  registry : s.registry.WF
  accounts : s.watcher.Accounts s.ownListeners s.registry.watches
  idle : s.isStarted = false → s.watcher = {} ∧ s.registry.watches = []

namespace Accounted

variable {s s' : PluginState}

theorem empty : Accounted {} where
  registry := List.Pairwise.nil
  accounts :=
    { exact := ⟨.nil, fun p => by simp [WatchHost.isWatched]⟩
      sorted := by simp [WorkerRegistry.watches]
      count_eq := fun p => rfl
      listeners := List.Perm.nil
      distinct := List.Pairwise.nil
      lt_next := by simp }
  idle _ := ⟨rfl, rfl⟩

theorem start (h : s.Accounted) (hs : s.isStarted = false) (root : Path) :
    (s.start root).Accounted := by
  obtain ⟨hwatcher, hwatches⟩ := h.idle hs
  refine ⟨h.registry, ?_, fun hs' => by cases hs'⟩
  have hregistry : (s.start root).registry.watches = [] := hwatches
  have hstart : (s.start root).watcher = (SharedWatcher.listen {} .runningBuilds).2 := by
    unfold PluginState.start
    rw [hwatcher]
  rw [hregistry, hstart]
  exact
    { exact :=
        ⟨.nil, fun p => by simp [SharedWatcher.listen, WatchHost.listen, WatchHost.isWatched]⟩
      sorted := by simp
      count_eq := fun p => rfl
      listeners := List.Perm.refl _
      distinct := List.pairwise_singleton _ _
      lt_next := by simp [SharedWatcher.listen, WatchHost.listen] }

/-- Only watches and the watcher matter. -/
theorem of_eq (h : s.Accounted) (hr : s'.registry.WF)
    (hws : s'.registry.watches = s.registry.watches) (hw : s'.watcher = s.watcher)
    (hs : s'.isStarted = s.isStarted) : s'.Accounted where
  registry := hr
  accounts := by
    have hown : s'.ownListeners = s.ownListeners := by
      unfold ownListeners
      rw [hs]
    rw [hw, hws, hown]
    exact h.accounts
  idle hs' := by
    rw [hw, hws]
    exact h.idle (hs ▸ hs')

theorem later (h : s.Accounted) (hl : s.Later s') : s'.Accounted :=
  h.of_eq (hl.registry.wf h.registry) hl.registry.watches hl.watcher hl.isStarted

theorem storeMap (h : s.Accounted) (path : String) (m : SourceMap) :
    (s.storeMap path m).Accounted :=
  h.of_eq h.registry rfl rfl rfl

theorem beginBuild (h : s.Accounted) {path : String} {request : BundleRequest}
    (hb : s.beginBuild path = some (request, s')) : s'.Accounted := by
  obtain ⟨e, -, he⟩ := Option.map_eq_some_iff.1 hb
  obtain ⟨-, rfl⟩ := Prod.mk.inj he
  exact h.of_eq (h.registry.modify (f := WorkerEntry.beginBuild) (fun _ => rfl) path)
    (s.registry.watches_modify path fun _ => rfl) rfl rfl

theorem abortBuild (h : s.Accounted) (path : String) : (s.abortBuild path).Accounted :=
  h.of_eq (h.registry.modify (f := WorkerEntry.abortBuild) (fun _ => rfl) path)
    (s.registry.watches_modify path fun _ => rfl) rfl rfl

end Accounted

/-! ## The end of a build -/

/-- Watching the files of a new bundle gives up those of the one before it. -/
theorem accounts_rewatch {s : PluginState} {own : List (ListenerId × PluginListener)}
    {e : WorkerEntry} {others : List WorkerWatch} (hs : s.isStarted = true)
    (h : s.watcher.Accounts own (e.watch?.toList ++ others)) {files : PathSet}
    (hf : PathSet.IsSorted files) :
    ∃ id, (s.rewatch e files).1 = some id ∧
      (s.rewatch e files).2.Accounts own (⟨e.requestedPath, id, files⟩ :: others) := by
  unfold rewatch
  rw [if_pos hs]
  unfold WorkerEntry.watch? at h
  cases hl : e.listener with
  | none =>
    rw [hl] at h
    exact ⟨_, rfl, h.watch hf e.requestedPath⟩
  | some previous =>
    rw [hl] at h
    exact ⟨_, rfl, (SharedWatcher.Accounts.unwatch h).watch hf e.requestedPath⟩

theorem Accounted.install {s : PluginState} (h : s.Accounted) (options : PluginOptions)
    {path : String} {e : WorkerEntry} (he : s.registry.get? path = some e) (output : BundleOutput) :
    (s.install options e output).2.Accounted := by
  obtain ⟨before, after, hr, hr'⟩ := install_entries options h.registry he output
  have hwatches : s.registry.watches =
      before.filterMap (·.watch?) ++ (e.watch?.toList ++ after.filterMap (·.watch?)) := by
    unfold WorkerRegistry.watches
    rw [hr, List.filterMap_append, List.filterMap_cons]
    cases e.watch? <;> rfl
  have hwf : (s.install options e output).2.registry.WF := by
    rw [install_registry]
    exact h.registry.modify (requestedPath_storeOutput options s e output) _
  cases hs : s.isStarted with
  | false =>
    obtain ⟨-, hnil⟩ := h.idle hs
    have hrewatch : s.rewatch e (s.buildFiles e output) = (none, s.watcher) := by
      unfold rewatch
      rw [hs]
      rfl
    have hnil' : (s.install options e output).2.registry.watches = [] := by
      rw [hnil] at hwatches
      have hb := List.append_eq_nil_iff.1 hwatches.symm
      have ha := List.append_eq_nil_iff.1 hb.2
      unfold WorkerRegistry.watches
      rw [hr', List.filterMap_append, List.filterMap_cons, hb.1, ha.2]
      unfold WorkerEntry.watch? installed
      rw [hrewatch]
      rfl
    refine h.of_eq hwf (hnil'.trans hnil.symm) ?_ rfl
    rw [install_watcher, hrewatch]
  | true =>
    have hothers : s.registry.watches.Perm (e.watch?.toList ++
        (before.filterMap (·.watch?) ++ after.filterMap (·.watch?))) := by
      rw [hwatches, ← List.append_assoc, ← List.append_assoc]
      exact List.perm_append_comm.append_right _
    obtain ⟨id, hid, hacc⟩ := accounts_rewatch hs (h.accounts.perm hothers)
      (s.isSorted_buildFiles e output)
    have hwatches' : (s.install options e output).2.registry.watches =
        before.filterMap (·.watch?) ++ ⟨e.requestedPath, id, s.buildFiles e output⟩ ::
          after.filterMap (·.watch?) := by
      unfold WorkerRegistry.watches
      rw [hr', List.filterMap_append, List.filterMap_cons]
      have hwatch : (s.installed options e output).watch? =
          some ⟨e.requestedPath, id, s.buildFiles e output⟩ := by
        unfold WorkerEntry.watch? installed
        rw [hid]
        rfl
      rw [hwatch]
    refine ⟨hwf, ?_, fun hs' => ?_⟩
    · rw [install_watcher, hwatches']
      exact hacc.perm List.perm_middle.symm
    · have hstarted : (s.install options e output).2.isStarted = true := hs
      rw [hs'] at hstarted
      cases hstarted

theorem Accounted.finishBuild {ε : Type} {s : PluginState} (h : s.Accounted)
    (options : PluginOptions) (path : String) (outcome : Except ε BundleOutput) :
    (s.finishBuild options path outcome).2.Accounted := by
  cases outcome with
  | error cause => exact h.abortBuild path
  | ok output =>
    unfold PluginState.finishBuild
    dsimp only
    split
    · exact h
    · rename_i e he
      exact h.install options he output

/-- A worker with a listener is told of changes. -/
theorem Accounted.mem_listeners {s : PluginState} (h : s.Accounted) {path : String}
    {e : WorkerEntry} (he : s.registry.get? path = some e) {id : ListenerId}
    (hid : e.listener = some id) : (id, .worker path) ∈ s.watcher.host.listeners :=
  h.accounts.mem_listeners (WorkerRegistry.mem_watches he hid)

/-- Builds that are running are told of changes. -/
theorem Accounted.runningBuilds_mem {s : PluginState} (h : s.Accounted) (hs : s.isStarted = true) :
    (0, .runningBuilds) ∈ s.watcher.host.listeners := by
  refine h.accounts.listeners.mem_iff.2 (List.mem_append_left _ ?_)
  unfold ownListeners
  rw [if_pos hs]
  exact List.mem_singleton_self _

end PluginState

end ModuleWorkers
