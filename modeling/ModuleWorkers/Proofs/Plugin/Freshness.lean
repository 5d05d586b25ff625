import Mathlib.Data.List.Induction
import ModuleWorkers.Proofs.Plugin.Flights
import ModuleWorkers.Proofs.Plugin.Watching

/-!
# Bundles are never stale

A bundle that is served was made by the latest build of its worker, and no file that it depends on
changed after that build began (`Session.bundle_isFresh`). Two mechanisms carry this. While a build
runs, changes are noted for it, and its output is not kept if one of them concerns it
(`Session.HasNoted`). From then on the listener of the worker drops the bundle. The end of a build
hands over from the one to the other in one event, so no change is lost between them.
-/

namespace ModuleWorkers

variable {ε : Type}

namespace Session

/-- The build that a request runs is the latest one of its path, and the changes since it began are
noted for it. -/
def HasNoted (s : Session ε) (evs : List (SessionEvent ε)) (k : Nat) (path : String) : Prop :=
  ∃ before middle, evs = before ++ .beginBuild k :: middle ∧
    ∀ ev ∈ middle, s.IsElsewhere path ev ∧ ∀ file, ev.changed? = some file →
      ∀ e cs, s.plugin.registry.get? path = some e → e.changes = some cs → cs.contains file

/-- A bundle is what the latest build of its path made, with the files of that build, and none of
these files changed since the build began. -/
def IsFresh (options : PluginOptions) (s : Session ε) (evs : List (SessionEvent ε)) (path : String)
    (e : WorkerEntry) (b : WorkerBundle) : Prop :=
  ∃ k output before middle after,
    evs = before ++ .beginBuild k :: (middle ++ .finishBuild k (.ok output) :: after) ∧
    s.requests[k]?.map (·.path) = some path ∧
    b = PluginState.servedBundle options e output ∧
    (∀ file ∈ output.watchFiles, e.dependencies.contains file) ∧
    ∀ ev ∈ middle ++ after, s.IsElsewhere path ev ∧ ∀ file, ev.changed? = some file →
      e.dependencies.contains file = false

variable {options : PluginOptions} {s s' : Session ε} {evs : List (SessionEvent ε)} {k : Nat}
  {path : String}

/-! ## One event more -/

theorem HasNoted.concat {ev : SessionEvent ε} (h : s.HasNoted evs k path)
    (hstep : s.step options ev = some s') (hev : s'.IsElsewhere path ev)
    (hr : s.plugin.registry.Remembers s'.plugin.registry path)
    (hnotes : ∀ file, ev.changed? = some file → s'.plugin.registry.Notes file) :
    s'.HasNoted (evs ++ [ev]) k path := by
  obtain ⟨before, middle, rfl, hmiddle⟩ := h
  refine ⟨before, middle ++ [ev], by simp, fun other hother => ?_⟩
  rcases List.mem_append.1 hother with hother | hother
  · obtain ⟨helse, hnoted⟩ := hmiddle other hother
    refine ⟨helse.step hstep, fun file hfile e' cs' he' hcs' => ?_⟩
    obtain ⟨e, cs, he, hcs, hsub⟩ := hr e' cs' he' hcs'
    exact hsub file (hnoted file hfile e cs he hcs)
  · rw [List.mem_singleton.1 hother]
    exact ⟨hev, fun file hfile e cs he hcs => hnotes file hfile path e cs he hcs⟩

theorem IsFresh.concat {ev : SessionEvent ε} {e e' : WorkerEntry} {b : WorkerBundle}
    (h : s.IsFresh options evs path e b) (hstep : s.step options ev = some s')
    (hev : s'.IsElsewhere path ev) (hpath : e'.requestedPath = e.requestedPath)
    (hdeps : e'.dependencies = e.dependencies)
    (hfree : ∀ file, ev.changed? = some file → e'.dependencies.contains file = false) :
    s'.IsFresh options (evs ++ [ev]) path e' b := by
  obtain ⟨k, output, before, middle, after, rfl, hk, hb, hfiles, hrest⟩ := h
  refine ⟨k, output, before, middle, after ++ [ev], by simp, path_step hstep hk, ?_, ?_, ?_⟩
  · unfold PluginState.servedBundle at *
    rwa [hpath]
  · rwa [hdeps]
  · intro other hother
    rw [← List.append_assoc] at hother
    rcases List.mem_append.1 hother with hother | hother
    · obtain ⟨helse, hno⟩ := hrest other hother
      exact ⟨helse.step hstep, by rwa [hdeps]⟩
    · rw [List.mem_singleton.1 hother]
      exact ⟨hev, hfree⟩

/-! ## The invariant -/

/-- What the events before tell of the builds that run and of the bundles that are there. -/
structure History (options : PluginOptions) (s : Session ε) (evs : List (SessionEvent ε)) :
    Prop where
  isStarted : s.plugin.isStarted = true
  noted : ∀ (k : Nat) path request, s.requests[k]? = some ⟨path, .building request⟩ →
    s.HasNoted evs k path
  /-- A worker with a bundle has a listener. -/
  heard : ∀ path e, s.plugin.registry.get? path = some e → e.bundle.isSome → e.listener.isSome
  fresh : ∀ path e b, s.plugin.registry.get? path = some e → e.bundle = some b →
    s.IsFresh options evs path e b

namespace History

/-- Events that neither begin nor end a build. -/
theorem later {ev : SessionEvent ε} (h : History options s evs)
    (hstep : s.step options ev = some s') (hbuild : ev.build? = none)
    (hl : s.plugin.registry.Later s'.plugin.registry)
    (hstarted : s'.plugin.isStarted = s.plugin.isStarted)
    (hnotes : ∀ file, ev.changed? = some file → s'.plugin.registry.Notes file)
    (havoids : ∀ file, ev.changed? = some file → ∀ path e id,
      s.plugin.registry.get? path = some e → e.listener = some id →
        s'.plugin.registry.Avoids path file) :
    History options s' (evs ++ [ev]) := by
  have helse : ∀ path, s'.IsElsewhere path ev := by
    intro path k hk
    rw [hbuild] at hk
    cases hk
  refine ⟨hstarted.trans h.isStarted, fun k path request hk => ?_, fun path e' he' hb' => ?_,
    fun path e' b he' hb' => ?_⟩
  · have hk' : s.requests[k]? = some ⟨path, .building request⟩ := by
      rcases requests_step hstep hk with hk' | harr | ⟨old, -, hm⟩
      · exact hk'
      · cases harr
      · cases hm
        cases hbuild
    exact (h.noted k path request hk').concat hstep (helse path) (hl.remembers path) hnotes
  · rcases hl.get?_of_get? he' with ⟨e, he, hle⟩ | ⟨-, hnew⟩
    · obtain ⟨b, hb⟩ := Option.isSome_iff_exists.1 hb'
      rw [hle.listener]
      exact h.heard path e he (by rw [hle.bundle_eq hb]; rfl)
    · rw [hnew.bundle] at hb'
      cases hb'
  · rcases hl.get?_of_get? he' with ⟨e, he, hle⟩ | ⟨-, hnew⟩
    · have hb : e.bundle = some b := hle.bundle_eq hb'
      refine (h.fresh path e b he hb).concat hstep (helse path) hle.requestedPath
        hle.dependencies ?_
      intro file hfile
      obtain ⟨id, hid⟩ := Option.isSome_iff_exists.1 (h.heard path e he (by rw [hb]; rfl))
      exact havoids file hfile path e id he hid e' he' (by rw [hb']; rfl)
    · rw [hnew.bundle] at hb'
      cases hb'

/-- Events that neither change the registry nor begin or end a build. -/
theorem same {ev : SessionEvent ε} (h : History options s evs)
    (hstep : s.step options ev = some s') (hbuild : ev.build? = none)
    (hchanged : ev.changed? = none)
    (hr : s'.plugin.registry = s.plugin.registry)
    (hstarted : s'.plugin.isStarted = s.plugin.isStarted) : History options s' (evs ++ [ev]) := by
  refine h.later hstep hbuild (hr ▸ .refl _) hstarted (fun file hfile => ?_) fun file hfile => ?_
  · rw [hchanged] at hfile
    cases hfile
  · rw [hchanged] at hfile
    cases hfile

/-- A build begins. -/
theorem beginBuild {request : BundleRequest} {plugin : PluginState} (h : History options s evs)
    (hlocks : Locks s.requests s.locked) (hflights : Flights s.plugin.registry s.requests)
    (hstep : s.step options (.beginBuild k) = some s') (hk : s.requests[k]? = some ⟨path, .decided⟩)
    (hb : s.plugin.beginBuild path = some (request, plugin))
    (hs : s' = { s.setStage k (.building request) with plugin }) :
    History options s' (evs ++ [.beginBuild k]) := by
  obtain ⟨-, d, hd, rfl⟩ := PluginState.exists_of_beginBuild hb
  obtain ⟨e, he, hunbuilt⟩ := hflights.unbuilt k _ hk rfl
  rw [hd] at he
  cases he
  have helse : ∀ q, path ≠ q → s'.IsElsewhere q (.beginBuild k) :=
    fun q hq => isElsewhere_of_ne hstep hk rfl hq
  have hget : ∀ q, s'.plugin.registry.get? q =
      if path = q then (s.plugin.registry.get? q).map WorkerEntry.beginBuild
      else s.plugin.registry.get? q := by
    subst hs
    exact PluginState.get?_beginBuild s.plugin.registry path
  -- an entry with a bundle is not the one whose build begins
  have hentry : ∀ q e, s'.plugin.registry.get? q = some e → e.bundle.isSome →
      path ≠ q ∧ s.plugin.registry.get? q = some e := by
    intro q e he hbundle
    rw [hget] at he
    split at he
    · rename_i hq
      subst hq
      rw [hd] at he
      cases he
      rw [show d.beginBuild.bundle = none from hunbuilt] at hbundle
      cases hbundle
    · rename_i hq
      exact ⟨hq, he⟩
  refine ⟨?_, fun j q other hj => ?_, fun q e he hbundle => ?_, fun q e b he hbundle => ?_⟩
  · subst hs
    exact h.isStarted
  · have hj' : (s.requests.modify k fun r => { r with stage := .building request })[j]? =
        some ⟨q, .building other⟩ := by
      subst hs
      exact hj
    rw [getElem?_modify_stage hk] at hj'
    split at hj'
    · rename_i hkj
      cases hj'
      exact ⟨evs, [], by rw [hkj], by simp⟩
    · rename_i hkj
      have hq : path ≠ q := fun hq => hkj (hlocks.unique k j _ _ hk hj' rfl rfl hq)
      refine (h.noted j q other hj').concat hstep (helse q hq) (fun e cs he hcs => ?_) nofun
      rw [hget, if_neg hq] at he
      exact ⟨e, cs, he, hcs, fun _ => id⟩
  · obtain ⟨-, he⟩ := hentry q e he hbundle
    exact h.heard q e he hbundle
  · obtain ⟨hq, he⟩ := hentry q e he (by rw [hbundle]; rfl)
    exact (h.fresh q e b he hbundle).concat hstep (helse q hq) rfl rfl nofun

/-- The bundle that a build leaves is fresh: the changes since it began were noted, and concern
none of its files. -/
theorem isFresh_installed {request : BundleRequest} {d : WorkerEntry} {output : BundleOutput}
    {b : WorkerBundle} (h : History options s evs)
    (hflights : Flights s.plugin.registry s.requests)
    (hstep : s.step options (.finishBuild k (.ok output)) = some s')
    (hk : s.requests[k]? = some ⟨path, .building request⟩)
    (hd : s.plugin.registry.get? path = some d)
    (hb : (s.plugin.installed options d output).bundle = some b) :
    s'.IsFresh options (evs ++ [.finishBuild k (.ok output)]) path
      (s.plugin.installed options d output) b := by
  obtain ⟨before, middle, rfl, hmiddle⟩ := h.noted k path request hk
  obtain ⟨cs, hcs⟩ : ∃ cs, d.changes = some cs :=
    Option.isSome_iff_exists.1 ((hflights.changes_iff path d hd).2 ⟨k, request, hk⟩)
  have hpath : (s.requests[k]?).map (·.path) = some path := by
    rw [hk]
    rfl
  unfold PluginState.installed at hb
  dsimp only at hb
  split at hb
  · cases hb
  rename_i hstale
  refine ⟨k, output, before, middle, [], by simp, path_step hstep hpath, ?_, ?_, ?_⟩
  · cases hb
    rfl
  · intro file hfile
    change (s.plugin.buildFiles d output).contains file
    unfold PluginState.buildFiles
    rw [PathSet.contains_insert, PathSet.contains_ofList,
      List.contains_iff_exists_mem_beq.2 ⟨file, hfile, BEq.rfl⟩, Bool.or_true]
  · intro ev hev
    rw [List.append_nil] at hev
    obtain ⟨helse, hnoted⟩ := hmiddle ev hev
    refine ⟨helse.step hstep, fun file hfile => ?_⟩
    obtain ⟨f, hf, hfile⟩ := List.contains_iff_exists_mem_beq.1 (hnoted file hfile d cs hd hcs)
    change (s.plugin.buildFiles d output).contains file = false
    rw [List.contains_congr hfile, ← Bool.not_eq_true]
    intro hcontains
    refine hstale ?_
    unfold WorkerEntry.isStale
    rw [hcs]
    exact List.any_eq_true.2 ⟨f, hf, hcontains⟩

/-- A build ends. -/
theorem finishBuild {request : BundleRequest} {outcome : Except ε BundleOutput}
    {answer : PluginAnswer ε} (h : History options s evs) (hlocks : Locks s.requests s.locked)
    (hflights : Flights s.plugin.registry s.requests)
    (hstep : s.step options (.finishBuild k outcome) = some s')
    (hk : s.requests[k]? = some ⟨path, .building request⟩)
    (hs : s' = { s.leave k path answer with
      plugin := (s.plugin.finishBuild options path outcome).2 }) :
    History options s' (evs ++ [.finishBuild k outcome]) := by
  obtain ⟨d, hd, hunbuilt⟩ := hflights.unbuilt k _ hk rfl
  have helse : ∀ q, path ≠ q → s'.IsElsewhere q (.finishBuild k outcome) :=
    fun q hq => isElsewhere_of_ne hstep hk rfl hq
  have hothers : ∀ q, path ≠ q → s'.plugin.registry.get? q = s.plugin.registry.get? q := by
    intro q hq
    subst hs
    exact PluginState.get?_finishBuild_of_ne options s.plugin hq outcome
  have hself : s'.plugin.registry.get? path = some (s.plugin.finished options d outcome) := by
    subst hs
    exact PluginState.get?_finishBuild_self options hd outcome
  refine ⟨?_, fun j q other hj => ?_, fun q e he hbundle => ?_, fun q e b he hbundle => ?_⟩
  · subst hs
    exact (PluginState.isStarted_finishBuild options s.plugin path outcome).trans h.isStarted
  · have hj' : (s.requests.modify k fun r => { r with stage := .answered answer })[j]? =
        some ⟨q, .building other⟩ := by
      subst hs
      exact hj
    rw [getElem?_modify_stage hk] at hj'
    split at hj'
    · cases hj'
    · rename_i hkj
      have hq : path ≠ q := fun hq => hkj (hlocks.unique k j _ _ hk hj' rfl rfl hq)
      refine (h.noted j q other hj').concat hstep (helse q hq) (fun e cs he hcs => ?_) nofun
      rw [hothers q hq] at he
      exact ⟨e, cs, he, hcs, fun _ => id⟩
  · by_cases hq : path = q
    · subst hq
      rw [hself] at he
      cases he
      cases outcome with
      | error cause =>
        rw [show (s.plugin.finished options d (.error cause)).bundle = none from hunbuilt]
          at hbundle
        cases hbundle
      | ok output => exact PluginState.isSome_rewatch h.isStarted d _
    · rw [hothers q hq] at he
      exact h.heard q e he hbundle
  · by_cases hq : path = q
    · subst hq
      rw [hself] at he
      cases he
      cases outcome with
      | error cause =>
        rw [show (s.plugin.finished options d (.error cause)).bundle = none from hunbuilt]
          at hbundle
        cases hbundle
      | ok output => exact h.isFresh_installed hflights hstep hk hd hbundle
    · rw [hothers q hq] at he
      exact (h.fresh q e b he hbundle).concat hstep (helse q hq) rfl rfl nofun

theorem step {ev : SessionEvent ε} (h : History options s evs) (hacc : s.plugin.Accounted)
    (hlocks : Locks s.requests s.locked) (hflights : Flights s.plugin.registry s.requests)
    (hstep : s.step options ev = some s') : History options s' (evs ++ [ev]) := by
  have hstep' := hstep
  cases ev with
  | start root =>
    obtain ⟨hstarted, -⟩ := step_start hstep
    rw [h.isStarted] at hstarted
    cases hstarted
  | serve fs path text isScript =>
    cases hstep'
    have hl := s.plugin.later_canonicalize path text isScript
    exact h.later hstep rfl hl.registry hl.isStarted nofun nofun
  | storeMap k =>
    obtain ⟨path, m, -, rfl⟩ := step_storeMap hstep
    exact h.same hstep rfl rfl rfl rfl
  | change file =>
    cases hstep'
    have hl := s.plugin.later_handleChange file
    refine h.later hstep rfl hl.registry hl.isStarted (fun f hf => ?_) fun f hf path _ _ _ _ => ?_
    · cases hf
      exact s.plugin.notes_handleChange file
    · cases hf
      exact s.plugin.avoids_handleChange path file
  | emit file =>
    cases hstep'
    have hl := s.plugin.later_emit file
    refine h.later hstep rfl hl.registry hl.isStarted (fun f hf => ?_)
      fun f hf path e id he hid => ?_
    · cases hf
      exact PluginState.notes_emit (hacc.runningBuilds_mem h.isStarted) file
    · cases hf
      exact PluginState.avoids_emit (hacc.mem_listeners he hid) file
  | arrive path =>
    cases hstep'
    exact h.same hstep rfl rfl rfl rfl
  | look k =>
    obtain ⟨path, -, ⟨answer, -, rfl⟩ | ⟨-, rfl⟩⟩ := step_look hstep
    · exact h.same hstep rfl rfl rfl rfl
    · exact h.same hstep rfl rfl rfl rfl
  | lock k =>
    obtain ⟨path, -, -, rfl⟩ := step_lock hstep
    exact h.same hstep rfl rfl rfl rfl
  | lookAgain k =>
    obtain ⟨path, -, ⟨answer, -, rfl⟩ | ⟨-, rfl⟩⟩ := step_lookAgain hstep
    · exact h.same hstep rfl rfl rfl rfl
    · exact h.same hstep rfl rfl rfl rfl
  | beginBuild k =>
    obtain ⟨path, hk, ⟨request, plugin, hb, hs⟩ | ⟨hb, -⟩⟩ := step_beginBuild hstep
    · exact h.beginBuild hlocks hflights hstep hk hb hs
    · -- whoever found that a worker has to be built finds its entry
      obtain ⟨e, he, -⟩ := hflights.unbuilt k _ hk rfl
      unfold PluginState.beginBuild at hb
      rw [he] at hb
      cases hb
  | finishBuild k outcome =>
    obtain ⟨path, request, hk, hs⟩ := step_finishBuild hstep
    exact h.finishBuild hlocks hflights hstep hk hs

end History

theorem history_run {root : Path} (h : run options {} (.start root :: evs) = some s) :
    History options s (.start root :: evs) := by
  induction evs using List.reverseRecOn generalizing s with
  | nil =>
    cases h
    exact ⟨rfl, nofun, nofun, nofun⟩
  | append_singleton evs ev ih =>
    rw [← List.cons_append] at h
    obtain ⟨t, ht, hstep⟩ := run_concat_eq_some h
    exact (ih ht).step (accounted_run ht) (locks_run ht) (flights_run ht) hstep

/-- A bundle in any state after the start of the server is fresh. -/
theorem bundle_isFresh {root : Path} {e : WorkerEntry} {b : WorkerBundle}
    (h : run options {} (.start root :: evs) = some s)
    (he : s.plugin.registry.get? path = some e) (hb : e.bundle = some b) :
    s.IsFresh options (.start root :: evs) path e b :=
  (history_run h).fresh path e b he hb

/-- A worker keeps its bundle when a file changes that it does not depend on. -/
theorem bundle_isFresh_sharedFile : ∃ (s : Session Unit) (e : WorkerEntry) (b : WorkerBundle),
    run {} {} (.start ⟨"/app"⟩ :: (sharedFileEvents ++ [.emit ⟨"/app/other.js"⟩])) = some s ∧
    s.plugin.registry.get? "/v.js" = some e ∧ e.bundle = some b ∧
    s.IsFresh {} (.start ⟨"/app"⟩ :: (sharedFileEvents ++ [.emit ⟨"/app/other.js"⟩])) "/v.js" e
      b := by
  have hrun : (run {} {}
      (.start ⟨"/app"⟩ :: (sharedFileEvents ++ [.emit ⟨"/app/other.js"⟩]))).map
      (fun s : Session Unit => (s.plugin.registry.get? "/v.js").map (·.bundle.isSome)) =
        some (some true) := by
    decide +kernel
  obtain ⟨s, hs, hentry⟩ := Option.map_eq_some_iff.1 hrun
  obtain ⟨e, he, hbundle⟩ := Option.map_eq_some_iff.1 hentry
  obtain ⟨b, hb⟩ := Option.isSome_iff_exists.1 hbundle
  exact ⟨s, e, b, hs, he, hb, bundle_isFresh hs he hb⟩

end Session

end ModuleWorkers
