import ModuleWorkers.Proofs.Plugin.Answered
import ModuleWorkers.Proofs.Plugin.Installation
import ModuleWorkers.Proofs.Plugin.Registrations
import ModuleWorkers.Proofs.Plugin.Withdrawn

/-!
# Builds that fail

A build that fails changes nothing (`Session.buildEnds`). The state that it leaves is the one that
the other events alone lead to, since until it is answered a request does nothing but to look, to
hold a lock and to have changes noted (`Session.withdraw_run`). In particular the worker keeps the
files and the listener of the build before, and has no bundle: until another build of it begins
nobody who asks for it is answered (`Session.Idle.run`), and whoever asks next begins one
(`Session.Idle.exists_building`). A build that does not fail is installed whole.
-/

namespace ModuleWorkers

variable {σ ε : Type}

theorem PluginState.emitAll_abortBuild (s : PluginState) (path : String) (files : List Path) :
    files.foldl emit (s.abortBuild path) = (files.foldl emit s).abortBuild path :=
  List.foldl_hom (fun s : PluginState => s.abortBuild path)
    fun s file => s.emit_abortBuild path file

/-- A request whose build fails leaves the plugin as the changes that were reported have made it. -/
theorem Plugin.resolve_of_error (p : Plugin σ ε) (fs : FileSystem) {s : PluginState} {path : String}
    {e : WorkerEntry} (hr : s.registry.WF) (he : s.registry.get? path = some e)
    (hidle : e.bundle = none ∧ e.changes = none) (hfile : s.virtualFiles.get? path = none) (x : σ)
    {run : PipelineRun σ ε}
    (hrun : p.pipeline.run x fs ⟨e.entryFile s.root, e.basePath s.root, s.root, path⟩ = run)
    {cause : ε} (hcause : run.outcome = .error cause) :
    p.resolve fs path (s, x) =
      (.error ⟨path, cause⟩, run.changes.foldl PluginState.emit s, run.next) := by
  obtain ⟨t, hbegin, hresolve⟩ := PluginState.buildsNext he hidle.1 hfile
  have hback : t.abortBuild path = s := by
    refine PluginState.abortBuild_beginBuild hbegin hr fun d hd => ?_
    cases he.symm.trans hd
    exact hidle.2
  have hleft : (run.changes.foldl PluginState.emit t).abortBuild path =
      run.changes.foldl PluginState.emit s := by
    rw [← t.emitAll_abortBuild path run.changes, hback]
  rw [hresolve, Plugin.runBuild, hrun, hcause, ← hleft]
  rfl

namespace Session

/-- An event begins a build of a path. -/
def Begins (s : Session ε) (path : String) (ev : SessionEvent ε) : Prop :=
  ∃ k stage, ev = .beginBuild k ∧ s.requests[k]? = some ⟨path, stage⟩

/-- What a request that was answered with a failure leaves, after some events from a state in which
it had just arrived. -/
structure FailsCleanly (options : PluginOptions) (s : Session ε) (evs : List (SessionEvent ε))
    (s' : Session ε) (k : Nat) (path : String) (cause : ε) : Prop where
  answered : s'.requests[k]? = some ⟨path, .answered (.error ⟨path, cause⟩)⟩
  /-- All but the answer is as the other events have made it. -/
  undone : s.run options (evs.filter (·.request? != some k)) = some (s'.setStage k .arrived)
  /-- The entry has what it had when the build began, and neither a bundle nor changes. -/
  kept : ∃ before middle t e e', evs = before ++ .beginBuild k :: middle ∧
    s.run options before = some t ∧ t.plugin.registry.get? path = some e ∧
    s'.plugin.registry.get? path = some e' ∧ e'.dependencies = e.dependencies ∧
    e'.listener = e.listener ∧ e'.bundle = none ∧ e'.changes = none
  /-- No file is served at the path itself, unless one was put there in the meantime. -/
  unhidden : s.NeverStores options evs path → s'.plugin.virtualFiles.get? path = none
  /-- If no file is, nobody is answered before another build begins. -/
  unanswered : ∀ evs' t, s'.run options evs' = some t → s'.plugin.virtualFiles.get? path = none →
    s'.NeverStores options evs' path → s'.AtEach options evs' (fun t ev => ¬ t.Begins path ev) →
    ∀ (j : Nat) a, t.requests[j]? = some ⟨path, .answered a⟩ →
      s'.requests[j]? = some ⟨path, .answered a⟩
  /-- And whoever asks for the path now, or did before, calls the pipeline when it goes on. -/
  retried : s'.plugin.virtualFiles.get? path = none → ∀ (j : Nat) stage,
    (s'.requests ++ [⟨path, .arrived⟩])[j]? = some ⟨path, stage⟩ → (∃ a, stage = .answered a) ∨
      ∃ more t request, (∀ ev ∈ more, SessionEvent.request? ev = some j) ∧
        s'.run options (.arrive path :: more) = some t ∧
        t.requests[j]? = some ⟨path, .building request⟩

/-- What the pipeline can do to a request that called it, after some events from a state in which
the request had just arrived. -/
structure BuildEnds (options : PluginOptions) (s : Session ε) (evs : List (SessionEvent ε))
    (t : Session ε) (k : Nat) (path : String) : Prop where
  failed : ∀ cause, ∃ s', t.step options (.finishBuild k (.error cause)) = some s' ∧
    FailsCleanly options s evs s' k path cause
  /-- No step of the installation of a bundle fails. -/
  installed : ∀ output, ∃ s' code, t.step options (.finishBuild k (.ok output)) = some s' ∧
    t.plugin.installSteps options path output = (.ok code, s'.plugin) ∧
    s'.requests[k]? = some ⟨path, .answered (.ok (some (.text code)))⟩

variable {options : PluginOptions} {s s' t : Session ε} {evs : List (SessionEvent ε)} {k : Nat}
  {path : String} {request : BundleRequest}

/-! ## The entry of a worker -/

/-- An event that neither begins nor ends a build of a worker. -/
theorem exists_later_step {ev : SessionEvent ε} (h : s.step options ev = some s')
    (hothers : ∀ k r, ev.build? = some k → s.requests[k]? = some r → r.path ≠ path)
    {e : WorkerEntry} (he : s.plugin.registry.get? path = some e) :
    ∃ e', s'.plugin.registry.get? path = some e' ∧ e.Later e' := by
  cases ev with
  | beginBuild j =>
    obtain ⟨q, hreq, ⟨request, plugin, hb, rfl⟩ | ⟨-, rfl⟩⟩ := step_beginBuild h
    · obtain ⟨-, d, -, rfl⟩ := PluginState.exists_of_beginBuild hb
      refine ⟨e, ?_, .refl e⟩
      dsimp only
      rw [PluginState.get?_beginBuild, if_neg (hothers j _ rfl hreq), he]
    · exact ⟨e, he, .refl e⟩
  | finishBuild j outcome =>
    obtain ⟨q, request, hreq, rfl⟩ := step_finishBuild h
    refine ⟨e, ?_, .refl e⟩
    rw [← he]
    exact PluginState.get?_finishBuild_of_ne options s.plugin (hothers j _ rfl hreq) outcome
  | _ => exact (later_step h rfl).get? path e he

/-- While a worker is built, its entry only grows older. -/
theorem exists_later_run {request' : BundleRequest} (hs : s.Consistent)
    (hk : s.requests[k]? = some ⟨path, .building request⟩) (hrun : s.run options evs = some t)
    (ht : t.requests[k]? = some ⟨path, .building request'⟩) {e : WorkerEntry}
    (he : s.plugin.registry.get? path = some e) :
    ∃ e', t.plugin.registry.get? path = some e' ∧ e.Later e' := by
  induction evs generalizing s e with
  | nil =>
    cases hrun
    exact ⟨e, he, .refl e⟩
  | cons ev evs ih =>
    rw [run_cons, Option.bind_eq_some_iff] at hrun
    obtain ⟨u, hu, hrun⟩ := hrun
    by_cases hev : ev.request? = some k
    · -- the request would be answered before the end of the run
      obtain ⟨new, hnew, hmove⟩ := exists_move hk hev hu
      cases hmove
      cases (answered_run (hs.step hu) hnew hrun).symm.trans ht
    · have hothers : ∀ j r, ev.build? = some j → s.requests[j]? = some r → r.path ≠ path := by
        intro j r hbuild hreq
        have hj : ev.request? = some j := by cases ev <;> cases hbuild <;> rfl
        obtain ⟨q, stage, hreq', hstage⟩ := exists_isBuild_of_step hu hbuild
        cases hreq.symm.trans hreq'
        exact (ne_of_isBuild hs.locks hk hreq (fun h => hev (h ▸ hj))
          (RequestStage.holdsLock_of_isBuild hstage) rfl).symm
      obtain ⟨e', he', hle⟩ := exists_later_step hu hothers he
      obtain ⟨hk', -⟩ := withdraw_step hs.locks hk hev hu
      obtain ⟨e'', he'', hle'⟩ := ih (hs.step hu) hk' hrun he'
      exact ⟨e'', he'', hle.trans hle'⟩

/-- A request that builds began to after it had arrived. -/
theorem exists_beginBuild (hk : s.requests[k]? = some ⟨path, .arrived⟩)
    (hrun : s.run options evs = some t) (ht : t.requests[k]? = some ⟨path, .building request⟩) :
    ∃ before middle u u', evs = before ++ .beginBuild k :: middle ∧
      s.run options before = some u ∧ u.requests[k]? = some ⟨path, .decided⟩ ∧
      u.step options (.beginBuild k) = some u' ∧
      u'.requests[k]? = some ⟨path, .building request⟩ ∧ u'.run options middle = some t := by
  induction evs using List.reverseRecOn generalizing t with
  | nil =>
    cases hrun
    cases hk.symm.trans ht
  | append_singleton evs ev ih =>
    obtain ⟨v, hv, hstep⟩ := run_concat_eq_some hrun
    rcases requests_step hstep ht with ht' | harr | ⟨old, hold, hmove⟩
    · obtain ⟨before, middle, u, u', rfl, hu, hdecided, hu', hbuilding, hmiddle⟩ := ih hv ht'
      exact ⟨before, middle ++ [ev], u, u', by simp, hu, hdecided, hu', hbuilding,
        run_trans hmiddle (run_singleton hstep)⟩
    · cases harr
    · cases hmove with
      | beginBuild _ => exact ⟨evs, [], v, t, rfl, hv, hold, hstep, ht, rfl⟩

/-! ## Workers without a bundle -/

/-- A worker is registered and nothing is served for it, and no build of it runs. -/
structure Idle (s : Session ε) (path : String) : Prop where
  entry : ∃ e, s.plugin.registry.get? path = some e ∧ e.bundle = none
  file : s.plugin.virtualFiles.get? path = none
  requests : ∀ (k : Nat) request, s.requests[k]? ≠ some ⟨path, .building request⟩

namespace Idle

theorem answer?_lookup (h : s.Idle path) :
    (s.plugin.lookup path).answer? = (none : Option (PluginAnswer ε)) := by
  obtain ⟨e, he, hb⟩ := h.entry
  simp only [PluginState.lookup, h.file, he, hb]
  rfl

/-- One event answers nobody who asks for the worker, unless it begins a build of it. -/
theorem step {ev : SessionEvent ε} (h : s.Idle path) (hstep : s.step options ev = some s')
    (hbegins : ¬ s.Begins path ev) (hfile : path ∉ s.stored ev) :
    s'.Idle path ∧ ∀ (j : Nat) a, s'.requests[j]? = some ⟨path, .answered a⟩ →
      s.requests[j]? = some ⟨path, .answered a⟩ := by
  obtain ⟨e, he, hb⟩ := h.entry
  have hothers : ∀ k r, ev.build? = some k → s.requests[k]? = some r → r.path ≠ path := by
    rintro k ⟨q, stage⟩ hbuild hreq rfl
    cases ev with
    | beginBuild j =>
      cases hbuild
      exact hbegins ⟨k, stage, rfl, hreq⟩
    | finishBuild j outcome =>
      cases hbuild
      obtain ⟨q, request, hreq', -⟩ := step_finishBuild hstep
      cases hreq.symm.trans hreq'
      exact h.requests k request hreq
    | _ => cases hbuild
  obtain ⟨e', he', hle⟩ := exists_later_step hstep hothers he
  refine ⟨⟨⟨e', he', hle.bundle_none hb⟩, (get?_virtualFiles_step hstep hfile).trans h.file,
    fun j request hj => ?_⟩, fun j a hj => ?_⟩
  · rcases requests_step hstep hj with hj' | harr | ⟨old, hold, hmove⟩
    · exact h.requests j request hj'
    · cases harr
    · cases hmove with
      | beginBuild _ => exact hbegins ⟨j, _, rfl, hold⟩
  · rcases requests_step hstep hj with hj' | harr | ⟨old, hold, hmove⟩
    · exact hj'
    · cases harr
    · change Move options s.plugin path j ev old (.answered a) at hmove
      cases hmove with
      | look_answer ha => cases h.answer?_lookup.symm.trans ha
      | lookAgain_answer ha => cases h.answer?_lookup.symm.trans ha
      | beginBuild_unknown _ => exact absurd ⟨j, _, rfl, hold⟩ hbegins
      | finishBuild => exact absurd hold (h.requests j _)

/-- A run answers nobody who asks for the worker, unless it begins a build of it. -/
theorem run (h : s.Idle path) (hrun : s.run options evs = some t)
    (hbegins : s.AtEach options evs fun t ev => ¬ t.Begins path ev)
    (hfile : s.NeverStores options evs path) {j : Nat} {a : PluginAnswer ε}
    (hj : t.requests[j]? = some ⟨path, .answered a⟩) :
    s.requests[j]? = some ⟨path, .answered a⟩ := by
  induction evs generalizing s with
  | nil =>
    cases hrun
    exact hj
  | cons ev evs ih =>
    rw [run_cons, Option.bind_eq_some_iff] at hrun
    obtain ⟨u, hu, hrun⟩ := hrun
    obtain ⟨hidle, hanswers⟩ := h.step hu hbegins.head hfile.head
    exact hanswers j a (ih hidle hrun (hbegins.tail hu) (hfile.tail hu))

/-- A request that waits for the lock calls the pipeline once the lock is free. -/
theorem exists_building_of_waiting (options : PluginOptions) (h : s.Idle path) (hfree : path ∉ s.locked)
    (hk : s.requests[k]? = some ⟨path, .waiting⟩) :
    ∃ t request, s.run options [.lock k, .lookAgain k, .beginBuild k] = some t ∧
      t.requests[k]? = some ⟨path, .building request⟩ := by
  obtain ⟨e, he, -⟩ := h.entry
  obtain ⟨⟨request, plugin⟩, hbegin⟩ : ∃ begun, s.plugin.beginBuild path = some begun :=
    ⟨_, Option.map_eq_some_iff.2 ⟨e, he, rfl⟩⟩
  let u : Session ε := { s.setStage k .holding with locked := path :: s.locked }
  let v : Session ε := u.setStage k .decided
  have hholding : u.requests[k]? = some ⟨path, .holding⟩ := getElem?_modify_self hk _
  have hdecided : v.requests[k]? = some ⟨path, .decided⟩ := getElem?_modify_self hholding _
  refine ⟨{ v.setStage k (.building request) with plugin }, request, ?_,
    getElem?_modify_self hdecided _⟩
  rw [run_cons, lock_of_free hk hfree, Option.bind_some, run_cons,
    lookAgain_of_unbuilt hholding h.answer?_lookup]
  exact run_singleton (beginBuild_of_some hdecided hbegin)

/-- Whoever asks for the worker while the lock is free calls the pipeline when it goes on. -/
theorem exists_building (options : PluginOptions) (h : s.Idle path)
    (hlocks : Locks s.requests s.locked) (hfree : path ∉ s.locked) {stage : RequestStage ε}
    (hk : s.requests[k]? = some ⟨path, stage⟩) : (∃ a, stage = .answered a) ∨
      ∃ more t request, (∀ ev ∈ more, SessionEvent.request? ev = some k) ∧
        s.run options more = some t ∧ t.requests[k]? = some ⟨path, .building request⟩ := by
  have hholds : stage.holdsLock = false := by
    rw [← Bool.not_eq_true]
    exact fun hl => hfree (hlocks.mem_locked k _ hk hl)
  cases stage with
  | answered a => exact .inl ⟨a, rfl⟩
  | holding | decided | building => cases hholds
  | waiting =>
    obtain ⟨t, request, hrun, ht⟩ := h.exists_building_of_waiting options hfree hk
    exact .inr ⟨_, t, request, by simp [SessionEvent.request?], hrun, ht⟩
  | arrived =>
    have hlook : s.step options (.look k) = some (s.setStage k .waiting) :=
      look_of_unbuilt hk h.answer?_lookup
    have hwaiting := getElem?_modify_self hk .waiting
    have hidle : (s.setStage k .waiting).Idle path := by
      refine (h.step hlook ?_ List.not_mem_nil).1
      rintro ⟨j, stage, hj, -⟩
      cases hj
    obtain ⟨t, request, hrun, ht⟩ :=
      hidle.exists_building_of_waiting options hfree hwaiting
    exact .inr ⟨_, t, request, by simp [SessionEvent.request?],
      run_trans (run_singleton hlook) hrun, ht⟩

end Idle

/-! ## What a request saw -/

/-- A request that has to build found no file at its path when it arrived. -/
theorem file_eq_none_of_isBuild {stage : RequestStage ε} (hk : s.requests[k]? = some ⟨path, .arrived⟩)
    (hrun : s.run options evs = some t) (ht : t.requests[k]? = some ⟨path, stage⟩)
    (hstage : stage.isBuild) : s.plugin.virtualFiles.get? path = none := by
  rw [← Option.not_isSome_iff_eq_none]
  intro hfile
  -- a file is never taken away again, and is found at the second look
  have hend : (t.plugin.virtualFiles.get? path).isSome ∧
      ∀ stage, t.requests[k]? = some ⟨path, stage⟩ → stage.isBuild = false := by
    refine run_induction (P := fun t => (t.plugin.virtualFiles.get? path).isSome ∧
      ∀ stage, t.requests[k]? = some ⟨path, stage⟩ → stage.isBuild = false) hrun
        ⟨hfile, fun stage h => ?_⟩ fun u u' ev hu hstep =>
          ⟨isSome_virtualFiles_step hstep hu.1, fun stage h => ?_⟩
    · cases hk.symm.trans h
      rfl
    · rcases requests_step hstep h with h' | harr | ⟨old, hold, hmove⟩
      · exact hu.2 stage h'
      · change stage = .arrived at harr
        rw [harr]
        rfl
      · change Move options u.plugin path k ev old stage at hmove
        cases hmove with
        | lookAgain_decide hn =>
          obtain ⟨hnone, -⟩ := PluginState.answer?_lookup_eq_none hn
          rw [hnone] at hu
          cases hu.1
        | beginBuild _ => cases hu.2 _ hold
        | _ => rfl
  rw [hend.2 stage ht] at hstage
  cases hstage

/-- A worker that is built has, when its build is given up, what it had when the build began. -/
theorem exists_kept (hs : s.Consistent) (hk : s.requests[k]? = some ⟨path, .arrived⟩)
    (hrun : s.run options evs = some t) (ht : t.requests[k]? = some ⟨path, .building request⟩) :
    ∃ before middle u e e', evs = before ++ .beginBuild k :: middle ∧
      s.run options before = some u ∧ u.plugin.registry.get? path = some e ∧
      (t.plugin.abortBuild path).registry.get? path = some e' ∧
      e'.dependencies = e.dependencies ∧ e'.listener = e.listener ∧ e'.bundle = none ∧
      e'.changes = none := by
  obtain ⟨before, middle, u, u', hevs, hu, hdecided, hu', hbuilding, hmiddle⟩ :=
    exists_beginBuild hk hrun ht
  have hcons := hs.run hu
  obtain ⟨e, he, hunbuilt⟩ := hcons.flights.unbuilt k _ hdecided rfl
  have hbegun : u'.plugin.registry.get? path = some e.beginBuild := by
    obtain ⟨q, hreq, ⟨begun, plugin, hb, rfl⟩ | ⟨-, rfl⟩⟩ := step_beginBuild hu'
    · obtain ⟨-, d, -, rfl⟩ := PluginState.exists_of_beginBuild hb
      cases hdecided.symm.trans hreq
      dsimp only
      rw [PluginState.get?_beginBuild, if_pos rfl, he]
      rfl
    · cases hbuilding.symm.trans (getElem?_modify_self hreq _)
  obtain ⟨e', he', hle⟩ := exists_later_run (hcons.step hu') hbuilding hmiddle ht hbegun
  refine ⟨before, middle, u, e, e'.abortBuild, hevs, hu, he, ?_, hle.dependencies, hle.listener,
    hle.bundle_none hunbuilt, rfl⟩
  dsimp only [PluginState.abortBuild]
  rw [WorkerRegistry.get?_abortBuild, if_pos rfl, he']
  rfl

/-! ## The end of a build -/

theorem failsCleanly (hs : s.Consistent) (hk : s.requests[k]? = some ⟨path, .arrived⟩)
    (hrun : s.run options evs = some t) (ht : t.requests[k]? = some ⟨path, .building request⟩)
    (cause : ε) (hstep : t.step options (.finishBuild k (.error cause)) = some s') :
    FailsCleanly options s evs s' k path cause := by
  have hcons : t.Consistent := hs.run hrun
  obtain ⟨before, middle, u, e, e', hevs, hu, he, he', hdeps, hlistener, hbundle, hchanges⟩ :=
    exists_kept hs hk hrun ht
  have hs' := hstep
  rw [finishBuild_of_building ht (.error cause)] at hs'
  have hplugin : s'.plugin = t.plugin.abortBuild path := by rw [← Option.some.inj hs']; rfl
  have hrequests : s'.requests = t.requests.modify k fun r =>
      { r with stage := .answered (.error ⟨path, cause⟩) } := by rw [← Option.some.inj hs']; rfl
  have hlocked : s'.locked = t.locked.erase path := by rw [← Option.some.inj hs']; rfl
  have hmaps : s'.maps = t.maps := by rw [← Option.some.inj hs']; rfl
  have hidle : s'.plugin.virtualFiles.get? path = none → s'.Idle path := fun hfile =>
    { entry := ⟨e', hplugin ▸ he', hbundle⟩
      file := hfile
      requests := fun j other hj => by
        rw [hrequests, getElem?_modify_stage ht] at hj
        split at hj
        · cases hj
        · rename_i hne
          exact hne (hcons.locks.unique k j _ _ ht hj rfl rfl rfl) }
  refine
    { answered := hrequests ▸ getElem?_modify_self ht _
      undone := ?_
      kept :=
        ⟨before, middle, u, e, e', hevs, hu, he, hplugin ▸ he', hdeps, hlistener, hbundle, hchanges⟩
      unhidden := fun hn => ?_
      unanswered := fun evs' t' hrun' hfile hn hbegins j a hj =>
        (hidle hfile).run hrun' hbegins hn hj
      retried := fun hfile j stage hj => ?_ }
  · rcases withdraw_run hs hk hrun with ⟨a, ha⟩ | ⟨new, hnew, hothers⟩
    · cases ht.symm.trans ha
    · cases ht.symm.trans hnew
      have hback : s'.withdraw k path (.answered (.error ⟨path, cause⟩)) =
          t.withdraw k path (.building request) := withdraw_eq hrequests hmaps hplugin hlocked
      rw [withdraw_arrived hk, ← hback] at hothers
      exact hothers
  · rw [hplugin]
    exact (get?_virtualFiles_run hrun hn).trans (file_eq_none_of_isBuild hk hrun ht rfl)
  · -- nobody else had the lock
    have hfree : path ∉ s'.locked := by
      rw [hlocked]
      exact hcons.locks.nodup.not_mem_erase
    let u' : Session ε := { s' with requests := s'.requests ++ [⟨path, .arrived⟩] }
    have harrive : s'.step options (.arrive path) = some u' := rfl
    have hwaits : u'.Idle path :=
      ((hidle hfile).step harrive (by rintro ⟨i, stage, hi, -⟩; cases hi) List.not_mem_nil).1
    obtain ha | ⟨more, t', request', hmore, hrun', ht'⟩ :=
      hwaits.exists_building options ((hcons.step hstep).step harrive).locks hfree hj
    · exact .inl ha
    · exact .inr ⟨more, t', request', hmore, run_trans (run_singleton harrive) hrun', ht'⟩

/-- Whatever the pipeline returns to a request, in any state of a plugin in use: a failure changes
nothing, and a bundle is installed whole. -/
theorem buildEnds {before : List (SessionEvent ε)} (h : Session.run options {} before = some s)
    (hk : s.requests[k]? = some ⟨path, .arrived⟩) (hrun : s.run options evs = some t)
    (ht : t.requests[k]? = some ⟨path, .building request⟩) :
    BuildEnds options s evs t k path := by
  have hs := consistent_run h
  have ⟨e, he, _⟩ : ∃ e, t.plugin.registry.get? path = some e ∧ e.bundle = none :=
    (hs.run hrun).flights.unbuilt k _ ht rfl
  refine ⟨fun cause => ⟨_, finishBuild_of_building ht _,
    failsCleanly hs hk hrun ht cause (finishBuild_of_building ht _)⟩, fun output => ?_⟩
  let installed := t.plugin.install options e output
  have hfinish : t.step options (.finishBuild k (.ok output)) =
      some { t.leave k path (.ok (some (.text installed.1))) with plugin := installed.2 } := by
    rw [finishBuild_of_building ht, PluginState.finishBuild_ok options he]
    rfl
  exact ⟨_, installed.1, hfinish, PluginState.installSteps_eq options he output,
    getElem?_modify_self ht _⟩

/-- While one of two workers is built, the file that both need changes, and the other is built. -/
def meanwhileEvents : List (SessionEvent ε) :=
  [.look 2, .lock 2, .lookAgain 2, .beginBuild 2, .emit ⟨"/app/shared.js"⟩] ++
    buildEvents 3 "/w.js"
      { code := "1;", map := .empty ⟨"/app"⟩, watchFiles := [⟨"/app/shared.js"⟩] }

theorem buildEnds_sharedFile : ∃ (s t : Session Unit) (request : BundleRequest),
    run {} {} (.start ⟨"/app"⟩ :: sharedFileEvents ++ [.emit ⟨"/app/shared.js"⟩, .arrive "/v.js"]) =
      some s ∧
    s.requests[2]? = some ⟨"/v.js", .arrived⟩ ∧ s.run {} meanwhileEvents = some t ∧
    t.requests[2]? = some ⟨"/v.js", .building request⟩ ∧
    BuildEnds {} s meanwhileEvents t 2 "/v.js" := by
  let before : List (SessionEvent Unit) :=
    .start ⟨"/app"⟩ :: sharedFileEvents ++ [.emit ⟨"/app/shared.js"⟩]
  have hlength : (run {} {} before).map (·.requests.length) = some 2 := by decide +kernel
  obtain ⟨s, hs, hlength⟩ := Option.map_eq_some_iff.1 hlength
  let s' : Session Unit := { s with requests := s.requests ++ [⟨"/v.js", .arrived⟩] }
  have hs' : run {} {} (before ++ [.arrive "/v.js"]) = some s' := run_trans hs rfl
  have hk : s'.requests[2]? = some ⟨"/v.js", .arrived⟩ := by
    rw [← hlength]
    exact List.getElem?_concat_length
  have hstage : ((run {} {} (before ++ [.arrive "/v.js"])).bind (·.run {} meanwhileEvents)).bind
      (fun t => t.requests[2]?.map fun r => (r.path, r.stage.task?.isSome)) =
        some ("/v.js", true) := by
    rw [← run_append]
    decide +kernel
  rw [hs', Option.bind_some, Option.bind_eq_some_iff] at hstage
  obtain ⟨t, ht, hstage⟩ := hstage
  obtain ⟨⟨path, stage⟩, hr, hpair⟩ := Option.map_eq_some_iff.1 hstage
  obtain ⟨rfl, hsome⟩ := Prod.mk.inj hpair
  obtain ⟨request, hrequest⟩ : ∃ request, stage = .building request := by
    cases stage with
    | building request => exact ⟨request, rfl⟩
    | _ => cases hsome
  rw [hrequest] at hr
  exact ⟨s', t, request, hs', hk, ht, hr, buildEnds hs' hk ht hr⟩

end Session

end ModuleWorkers
