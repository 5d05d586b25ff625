import ModuleWorkers.Proofs.Plugin.Aborted
import ModuleWorkers.Proofs.Plugin.Flights
import ModuleWorkers.Proofs.Plugin.Watching

/-!
# Sessions without a request

`Session.withdraw` is a session as it would be if one of its requests had only arrived: the build
that it runs is given up, and its lock is free. As long as the request is not answered, its own
events change nothing of that (`Session.withdraw_step_own`), and all other events happen just so
without them (`Session.withdraw_step`), since nobody else waits for what the request holds. So a run
in which a request gets no answer is one of the other requests alone (`Session.withdraw_run`).
-/

namespace ModuleWorkers

variable {ε : Type}

namespace RequestStage

/-- The plugin without the build that a request for a path runs. -/
def withdraw (stage : RequestStage ε) (path : String) (s : PluginState) : PluginState :=
  match stage with
  | .building _ => s.abortBuild path
  | _ => s

/-- The locks that are taken by others than a request for a path. -/
def unlock (stage : RequestStage ε) (path : String) (locked : List String) : List String :=
  if stage.holdsLock then locked.erase path else locked

variable (stage : RequestStage ε) (path : String) (s : PluginState)

/-! ## What happens to the plugin -/

theorem withdraw_start (root : Path) :
    (stage.withdraw path s).start root = stage.withdraw path (s.start root) := by
  cases stage <;> rfl

theorem isStarted_withdraw : (stage.withdraw path s).isStarted = s.isStarted := by
  cases stage <;> rfl

theorem root_withdraw : (stage.withdraw path s).root = s.root := by
  cases stage <;> rfl

theorem withdraw_storeMap (q : String) (m : SourceMap) :
    (stage.withdraw path s).storeMap q m = stage.withdraw path (s.storeMap q m) := by
  cases stage <;> rfl

theorem withdraw_handleChange (file : Path) :
    ((stage.withdraw path s).handleChange file).2 =
      stage.withdraw path (s.handleChange file).2 := by
  cases stage with
  | building request => exact s.handleChange_abortBuild path file
  | _ => rfl

theorem withdraw_emit (file : Path) :
    (stage.withdraw path s).emit file = stage.withdraw path (s.emit file) := by
  cases stage with
  | building request => exact s.emit_abortBuild path file
  | _ => rfl

theorem lookup_withdraw (q : String) : (stage.withdraw path s).lookup q = s.lookup q := by
  cases stage with
  | building request => exact s.lookup_abortBuild path q
  | _ => rfl

theorem withdraw_canonicalize (q text : String) (isScript : Bool) :
    ((stage.withdraw path s).canonicalize q text isScript).2 =
        stage.withdraw path (s.canonicalize q text isScript).2 ∧
      ∀ root fs, Session.servedMap? root fs q
        ((stage.withdraw path s).canonicalize q text isScript).1 =
          Session.servedMap? root fs q (s.canonicalize q text isScript).1 := by
  cases stage with
  | building request =>
    dsimp only [withdraw]
    rw [s.canonicalize_abortBuild path q text isScript]
    refine ⟨rfl, fun root fs => ?_⟩
    cases (s.canonicalize q text isScript).1 <;> rfl
  | _ => exact ⟨rfl, fun _ _ => rfl⟩

theorem withdraw_beginBuild {stage : RequestStage ε} {path q : String}
    (h : stage.isBuild → path ≠ q) :
    (stage.withdraw path s).beginBuild q =
      (s.beginBuild q).map fun (request, t) => (request, stage.withdraw path t) := by
  cases stage with
  | building request => exact s.beginBuild_abortBuild (h rfl)
  | _ => exact Option.map_id'.symm

theorem withdraw_finishBuild (options : PluginOptions) {stage : RequestStage ε} {path q : String}
    (h : stage.isBuild → path ≠ q) (outcome : Except ε BundleOutput) :
    (stage.withdraw path s).finishBuild options q outcome =
      ((s.finishBuild options q outcome).1,
        stage.withdraw path (s.finishBuild options q outcome).2) := by
  cases stage with
  | building request => exact s.finishBuild_abortBuild options (h rfl) outcome
  | _ => rfl

/-! ## What happens to the locks -/

variable {stage path}

theorem unlock_cons {locked : List String} {q : String} (hq : q ∉ locked)
    (hpath : stage.holdsLock → path ∈ locked) :
    stage.unlock path (q :: locked) = q :: stage.unlock path locked := by
  unfold unlock
  split
  · rename_i hl
    refine List.erase_cons_tail ?_
    rw [beq_iff_eq]
    rintro rfl
    exact hq (hpath hl)
  · rfl

theorem unlock_erase (locked : List String) (q : String) :
    stage.unlock path (locked.erase q) = (stage.unlock path locked).erase q := by
  unfold unlock
  split
  · exact List.erase_comm q path
  · rfl

theorem not_mem_unlock {locked : List String} {q : String} (hq : q ∉ locked) :
    q ∉ stage.unlock path locked := by
  unfold unlock
  split
  · exact fun h => hq (List.mem_of_mem_erase h)
  · exact hq

end RequestStage

namespace Session

/-- The session if one of its requests, which got as far as is said, had only arrived. -/
def withdraw (s : Session ε) (k : Nat) (path : String) (stage : RequestStage ε) : Session ε :=
  { s.setStage k .arrived with
    plugin := stage.withdraw path s.plugin
    locked := stage.unlock path s.locked }

variable {options : PluginOptions} {s s' t : Session ε} {evs : List (SessionEvent ε)} {j k : Nat}
  {path : String} {stage : RequestStage ε}

theorem plugin_withdraw (s : Session ε) (k : Nat) (path : String) (stage : RequestStage ε) :
    (s.withdraw k path stage).plugin = stage.withdraw path s.plugin := rfl

theorem withdraw_plugin (s : Session ε) (k : Nat) {plugin plugin' : PluginState}
    (h : plugin' = stage.withdraw path plugin) :
    ({ s.withdraw k path stage with plugin := plugin' } : Session ε) =
      withdraw { s with plugin := plugin } k path stage := by
  rw [h]
  rfl

theorem withdraw_arrived (hk : s.requests[k]? = some ⟨path, .arrived⟩) :
    s.withdraw k path .arrived = s := by
  have hrequests : (s.requests.modify k fun r => { r with stage := .arrived }) = s.requests := by
    refine List.ext_getElem? fun j => ?_
    rw [getElem?_modify_stage hk]
    split
    · rename_i hj
      rw [← hj, hk]
    · rfl
  exact congrArg (fun requests => { s with requests }) hrequests

theorem modify_concat {α : Type} {xs : List α} {k : Nat} (hk : k < xs.length) (f : α → α) (x : α) :
    (xs ++ [x]).modify k f = xs.modify k f ++ [x] := by
  induction xs generalizing k with
  | nil => cases hk
  | cons y ys ih =>
    cases k with
    | zero => rfl
    | succ k =>
      rw [List.cons_append, List.modify_succ_cons, List.modify_succ_cons, List.cons_append,
        ih (Nat.lt_of_succ_lt_succ hk)]

theorem getElem?_withdraw (hj : k ≠ j) : (s.withdraw k path stage).requests[j]? = s.requests[j]? :=
  List.getElem?_modify_ne _ _ hj

theorem getElem?_setStage (hj : j ≠ k) (stage : RequestStage ε) :
    (s.setStage j stage).requests[k]? = s.requests[k]? :=
  List.getElem?_modify_ne _ _ hj

theorem setStage_withdraw (hj : j ≠ k) (new : RequestStage ε) :
    (s.withdraw k path stage).setStage j new = (s.setStage j new).withdraw k path stage := by
  exact congrArg (fun requests => { s.withdraw k path stage with requests })
    (List.modify_modify_ne _ _ _ hj.symm)

theorem leave_withdraw (hj : j ≠ k) (q : String) (answer : PluginAnswer ε) :
    (s.withdraw k path stage).leave j q answer = (s.leave j q answer).withdraw k path stage := by
  unfold leave
  rw [setStage_withdraw hj]
  exact congrArg (fun locked => { (s.setStage j (.answered answer)).withdraw k path stage with
    locked }) (RequestStage.unlock_erase s.locked q).symm

/-! ## Events of others -/

/-- Whoever builds something else than a request does so at another path. -/
theorem ne_of_isBuild (hlocks : Locks s.requests s.locked)
    (hk : s.requests[k]? = some ⟨path, stage⟩) {q : String} {other : RequestStage ε}
    (hj : s.requests[j]? = some ⟨q, other⟩) (hne : j ≠ k) (hother : other.holdsLock) :
    stage.isBuild → path ≠ q := by
  rintro hbuild rfl
  exact hne (hlocks.unique j k _ _ hj hk hother (RequestStage.holdsLock_of_isBuild hbuild) rfl)

/-- What happens to no request is the same without a request. -/
theorem withdraw_step_of_none {ev : SessionEvent ε} (hk : s.requests[k]? = some ⟨path, stage⟩)
    (hev : ev.request? = none) (h : s.step options ev = some s') :
    s'.requests[k]? = some ⟨path, stage⟩ ∧
      (s.withdraw k path stage).step options ev = some (s'.withdraw k path stage) := by
  cases ev with
  | start root =>
    obtain ⟨hs, rfl⟩ := step_start h
    refine ⟨hk, ?_⟩
    have hs' : ¬ (s.withdraw k path stage).plugin.isStarted = true := by
      rw [← Bool.not_eq_true] at hs
      rwa [withdraw, stage.isStarted_withdraw]
    rw [step, if_neg hs']
    exact congrArg some (withdraw_plugin s k (stage.withdraw_start path s.plugin root))
  | serve fs q text isScript =>
    cases h
    refine ⟨hk, ?_⟩
    obtain ⟨hplugin, hmap⟩ := stage.withdraw_canonicalize path s.plugin q text isScript
    dsimp only [step, withdraw]
    rw [hplugin, hmap, stage.root_withdraw]
    rfl
  | storeMap i =>
    obtain ⟨q, m, hm, rfl⟩ := step_storeMap h
    refine ⟨hk, ?_⟩
    rw [storeMap_of_get? (s := s.withdraw k path stage) hm, plugin_withdraw,
      stage.withdraw_storeMap]
    rfl
  | change file =>
    cases h
    exact ⟨hk, congrArg some
      (withdraw_plugin s k (stage.withdraw_handleChange path s.plugin file))⟩
  | emit file =>
    cases h
    exact ⟨hk, congrArg some (withdraw_plugin s k (stage.withdraw_emit path s.plugin file))⟩
  | arrive q =>
    cases h
    have hlt : k < s.requests.length := (List.getElem?_eq_some_iff.1 hk).1
    refine ⟨(List.getElem?_append_left hlt).trans hk, ?_⟩
    exact congrArg (fun requests => some { s.withdraw k path stage with requests := requests })
      (modify_concat hlt _ _).symm
  | _ => cases hev

/-- What another request does is the same without a request. -/
theorem withdraw_step_of_ne {ev : SessionEvent ε} (hlocks : Locks s.requests s.locked)
    (hk : s.requests[k]? = some ⟨path, stage⟩) (hev : ev.request? = some j) (hj : j ≠ k)
    (h : s.step options ev = some s') :
    s'.requests[k]? = some ⟨path, stage⟩ ∧
      (s.withdraw k path stage).step options ev = some (s'.withdraw k path stage) := by
  cases ev with
  | look j =>
    cases hev
    obtain ⟨q, hreq, ⟨answer, ha, rfl⟩ | ⟨hn, rfl⟩⟩ := step_look h
    · refine ⟨(getElem?_setStage hj _).trans hk, ?_⟩
      rw [look_of_answer ((getElem?_withdraw hj.symm).trans hreq)
        (by rwa [plugin_withdraw, stage.lookup_withdraw]), setStage_withdraw hj]
    · refine ⟨(getElem?_setStage hj _).trans hk, ?_⟩
      rw [look_of_unbuilt ((getElem?_withdraw hj.symm).trans hreq)
        (by rwa [plugin_withdraw, stage.lookup_withdraw]), setStage_withdraw hj]
  | lock j =>
    cases hev
    obtain ⟨q, hreq, hfree, rfl⟩ := step_lock h
    refine ⟨(getElem?_setStage hj _).trans hk, ?_⟩
    rw [lock_of_free ((getElem?_withdraw hj.symm).trans hreq) (stage.not_mem_unlock hfree),
      setStage_withdraw hj]
    exact congrArg (fun locked => some { (s.setStage j .holding).withdraw k path stage with
      locked := locked }) (RequestStage.unlock_cons hfree fun hl => hlocks.mem_locked k _ hk hl).symm
  | lookAgain j =>
    cases hev
    obtain ⟨q, hreq, ⟨answer, ha, rfl⟩ | ⟨hn, rfl⟩⟩ := step_lookAgain h
    · refine ⟨(getElem?_setStage hj _).trans hk, ?_⟩
      rw [lookAgain_of_answer ((getElem?_withdraw hj.symm).trans hreq)
        (by rwa [plugin_withdraw, stage.lookup_withdraw]), leave_withdraw hj]
    · refine ⟨(getElem?_setStage hj _).trans hk, ?_⟩
      rw [lookAgain_of_unbuilt ((getElem?_withdraw hj.symm).trans hreq)
        (by rwa [plugin_withdraw, stage.lookup_withdraw]), setStage_withdraw hj]
  | beginBuild j =>
    cases hev
    obtain ⟨q, hreq, hcases⟩ := step_beginBuild h
    have hbegin := RequestStage.withdraw_beginBuild s.plugin (ne_of_isBuild hlocks hk hreq hj rfl)
    rcases hcases with ⟨request, plugin, hb, rfl⟩ | ⟨hb, rfl⟩
    · refine ⟨(getElem?_setStage hj _).trans hk, ?_⟩
      rw [hb] at hbegin
      rw [beginBuild_of_some ((getElem?_withdraw hj.symm).trans hreq) hbegin, setStage_withdraw hj]
      rfl
    · refine ⟨(getElem?_setStage hj _).trans hk, ?_⟩
      rw [hb] at hbegin
      rw [beginBuild_of_none ((getElem?_withdraw hj.symm).trans hreq) hbegin, leave_withdraw hj]
  | finishBuild j outcome =>
    cases hev
    obtain ⟨q, request, hreq, rfl⟩ := step_finishBuild h
    refine ⟨(getElem?_setStage hj _).trans hk, ?_⟩
    have hfinish := RequestStage.withdraw_finishBuild s.plugin options
      (ne_of_isBuild hlocks hk hreq hj rfl) outcome
    rw [finishBuild_of_building ((getElem?_withdraw hj.symm).trans hreq), plugin_withdraw, hfinish,
      leave_withdraw hj]
    rfl
  | _ => cases hev

/-- What others do is the same without a request. -/
theorem withdraw_step {ev : SessionEvent ε} (hlocks : Locks s.requests s.locked)
    (hk : s.requests[k]? = some ⟨path, stage⟩) (hev : ev.request? ≠ some k)
    (h : s.step options ev = some s') :
    s'.requests[k]? = some ⟨path, stage⟩ ∧
      (s.withdraw k path stage).step options ev = some (s'.withdraw k path stage) := by
  cases hreq : ev.request? with
  | none => exact withdraw_step_of_none hk hreq h
  | some j => exact withdraw_step_of_ne hlocks hk hreq (fun hj => hev (hj ▸ hreq)) h

/-! ## Events of the request -/

/-- What holds in all states of a plugin in use. -/
structure Consistent (s : Session ε) : Prop where
  accounted : s.plugin.Accounted
  locks : Locks s.requests s.locked
  flights : Flights s.plugin.registry s.requests

theorem Consistent.step {ev : SessionEvent ε} (h : s.Consistent)
    (hstep : s.step options ev = some s') : s'.Consistent :=
  ⟨accounted_step h.accounted hstep, locks_step h.locks hstep,
    flights_step h.locks h.flights hstep⟩

theorem Consistent.run (h : s.Consistent) (hrun : s.run options evs = some s') : s'.Consistent :=
  run_induction (P := Consistent) hrun h fun _ _ _ ht hstep => ht.step hstep

theorem consistent_run (h : Session.run options {} evs = some s) : s.Consistent :=
  Consistent.run ⟨.empty, .empty, .empty⟩ h

/-- The worker of a request that is about to build has no build yet. -/
theorem Consistent.changes_eq_none (h : s.Consistent) (hk : s.requests[k]? = some ⟨path, .decided⟩)
    {e : WorkerEntry} (he : s.plugin.registry.get? path = some e) : e.changes = none := by
  rw [← Option.not_isSome_iff_eq_none, h.flights.changes_iff path e he]
  rintro ⟨j, request, hj⟩
  obtain rfl := h.locks.unique j k _ _ hj hk rfl rfl rfl
  rw [hk] at hj
  cases hj

/-- A request that goes on as it can be told from the plugin and the locks. -/
theorem withdraw_eq {old new : RequestStage ε}
    (hrequests : s'.requests = s.requests.modify k fun r => { r with stage := new })
    (hmaps : s'.maps = s.maps) (hplugin : new.withdraw path s'.plugin = old.withdraw path s.plugin)
    (hlocked : new.unlock path s'.locked = old.unlock path s.locked) :
    s'.withdraw k path new = s.withdraw k path old := by
  unfold withdraw setStage
  rw [hplugin, hlocked, hmaps, hrequests, List.modify_modify_eq]
  rfl

/-- What a request does before it is answered is nothing without it. -/
theorem withdraw_step_own {ev : SessionEvent ε} (hs : s.Consistent)
    (hk : s.requests[k]? = some ⟨path, stage⟩) (hev : ev.request? = some k)
    (h : s.step options ev = some s') :
    (∃ a, s'.requests[k]? = some ⟨path, .answered a⟩) ∨
      ∃ new, s'.requests[k]? = some ⟨path, new⟩ ∧
        s'.withdraw k path new = s.withdraw k path stage := by
  have hmove := getElem?_modify_self hk
  cases ev with
  | look j =>
    cases hev
    obtain ⟨q, hreq, ⟨answer, -, rfl⟩ | ⟨-, rfl⟩⟩ := step_look h
    · exact .inl ⟨answer, hmove _⟩
    · cases hk.symm.trans hreq
      exact .inr ⟨.waiting, hmove _, withdraw_eq rfl rfl rfl rfl⟩
  | lock j =>
    cases hev
    obtain ⟨q, hreq, -, rfl⟩ := step_lock h
    cases hk.symm.trans hreq
    exact .inr ⟨.holding, hmove _, withdraw_eq rfl rfl rfl (List.erase_cons_head path s.locked)⟩
  | lookAgain j =>
    cases hev
    obtain ⟨q, hreq, ⟨answer, -, rfl⟩ | ⟨-, rfl⟩⟩ := step_lookAgain h
    · exact .inl ⟨answer, hmove _⟩
    · cases hk.symm.trans hreq
      exact .inr ⟨.decided, hmove _, withdraw_eq rfl rfl rfl rfl⟩
  | beginBuild j =>
    cases hev
    obtain ⟨q, hreq, ⟨request, plugin, hb, rfl⟩ | ⟨-, rfl⟩⟩ := step_beginBuild h
    · cases hk.symm.trans hreq
      have hback : plugin.abortBuild path = s.plugin :=
        PluginState.abortBuild_beginBuild hb hs.accounted.registry
          fun e he => hs.changes_eq_none hk he
      exact .inr ⟨.building request, hmove _, withdraw_eq rfl rfl hback rfl⟩
    · exact .inl ⟨.ok none, hmove _⟩
  | finishBuild j outcome =>
    cases hev
    obtain ⟨q, request, -, rfl⟩ := step_finishBuild h
    exact .inl ⟨_, hmove _⟩
  | _ => cases hev

/-! ## Runs -/

/-- An answer is the last that happens to a request. -/
theorem answered_step {ev : SessionEvent ε} {a : PluginAnswer ε} (hlocks : Locks s.requests s.locked)
    (hk : s.requests[k]? = some ⟨path, .answered a⟩) (h : s.step options ev = some s') :
    s'.requests[k]? = some ⟨path, .answered a⟩ := by
  refine (withdraw_step hlocks hk (fun hev => ?_) h).1
  obtain ⟨new, -, hmove⟩ := exists_move hk hev h
  cases hmove

theorem answered_run {a : PluginAnswer ε} (hs : s.Consistent)
    (hk : s.requests[k]? = some ⟨path, .answered a⟩) (h : s.run options evs = some s') :
    s'.requests[k]? = some ⟨path, .answered a⟩ :=
  (run_induction (P := fun t => t.Consistent ∧ t.requests[k]? = some ⟨path, .answered a⟩) h
    ⟨hs, hk⟩ fun _ _ _ ht hstep => ⟨ht.1.step hstep, answered_step ht.1.locks ht.2 hstep⟩).2

/-- A run in which a request gets no answer is one of the others. -/
theorem withdraw_run (hs : s.Consistent) (hk : s.requests[k]? = some ⟨path, stage⟩)
    (h : s.run options evs = some t) :
    (∃ a, t.requests[k]? = some ⟨path, .answered a⟩) ∨
      ∃ new, t.requests[k]? = some ⟨path, new⟩ ∧
        (s.withdraw k path stage).run options (evs.filter (·.request? != some k)) =
          some (t.withdraw k path new) := by
  induction evs generalizing s stage with
  | nil =>
    cases h
    exact .inr ⟨stage, hk, rfl⟩
  | cons ev evs ih =>
    rw [run_cons, Option.bind_eq_some_iff] at h
    obtain ⟨u, hu, hrun⟩ := h
    by_cases hev : ev.request? = some k
    · rw [List.filter_cons_of_neg (by simp [hev])]
      rcases withdraw_step_own hs hk hev hu with ⟨a, ha⟩ | ⟨new, hnew, heq⟩
      · exact .inl ⟨a, answered_run (hs.step hu) ha hrun⟩
      · rw [← heq]
        exact ih (hs.step hu) hnew hrun
    · rw [List.filter_cons_of_pos (by simp [hev])]
      obtain ⟨hk', hstep⟩ := withdraw_step hs.locks hk hev hu
      rw [run_cons, hstep]
      exact ih (hs.step hu) hk' hrun

end Session

end ModuleWorkers
