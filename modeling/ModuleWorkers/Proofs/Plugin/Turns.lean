import Mathlib.Data.List.Nodup
import ModuleWorkers.Proofs.Plugin.Tasks

/-!
# Requests that take turns

What a plugin does is a run of a session: a response (`Session.exists_run_respond`), requests that
take turns (`Session.IsIdle.exists_run_resolveAll`), and a request that is alone
(`Session.IsIdle.exists_run_resolve`). So what holds at the end of all runs holds of the plugin.

A session follows a schedule (`Session.Follows`) if its requests are as far as the tasks are. Each
turn is a run between sessions that follow (`Session.Follows.exists_run_turn`), and brings the end
nearer as long as there are tasks (`Session.Follows.turnsLeft_turn`), so that all requests are
answered.
-/

namespace ModuleWorkers

variable {σ ε : Type}

namespace Session

variable {options : PluginOptions} {s s' : Session ε}

theorem run_emit (s : Session ε) (files : List Path) :
    s.run options (files.map .emit) =
      some { s with plugin := files.foldl PluginState.emit s.plugin } := by
  induction files generalizing s with
  | nil => rfl
  | cons file files ih =>
    rw [List.map_cons, run_cons]
    exact ih { s with plugin := s.plugin.emit file }

/-! ## Responses -/

/-- A response registers workers and then stores a map, if there is one. -/
theorem exists_run_respond (s : Session ε) (fs : FileSystem) (path text : String)
    (isScript : Bool) :
    ∃ evs, s.run options evs =
      some { s with plugin := (s.plugin.respond fs path text isScript).2 } := by
  rcases hc : s.plugin.canonicalize path text isScript with ⟨script, plugin⟩
  have hserve : s.step options (.serve fs path text isScript) =
      some { s with plugin, maps := s.maps ++ (servedMap? plugin.root fs path script).toList } := by
    rw [step, hc]
  cases script with
  | none =>
    refine ⟨[.serve fs path text isScript], ?_⟩
    rw [run_singleton hserve, PluginState.respond, hc]
    simp [servedMap?]
  | some script =>
    rcases ha : (ServedScript.ofPath plugin.root path).attachMap fs script.buffer with ⟨buffer, m⟩
    cases m with
    | none =>
      refine ⟨[.serve fs path text isScript], ?_⟩
      rw [run_singleton hserve, PluginState.respond, hc]
      simp [servedMap?, ha]
    | some m =>
      obtain ⟨path', m⟩ := m
      refine ⟨[.serve fs path text isScript, .storeMap s.maps.length], ?_⟩
      rw [run_cons, hserve, PluginState.respond, hc]
      have hback : (s.maps ++ [(path', m)]).eraseIdx s.maps.length = s.maps := by
        rw [List.eraseIdx_append_of_length_le (Nat.le_refl _), Nat.sub_self]
        exact List.append_nil _
      simp [servedMap?, ha, step, run_cons, hback]

/-! ## Turns -/

/-- A session whose requests are as far as the tasks of a schedule, and some that were taken out. -/
structure Matches (s : Session ε) (before : Nat) (c : Schedule σ ε)
    (taken : List (ResolveTask × RequestStage ε)) : Prop where
  plugin : s.plugin = c.plugin.1
  locks : Locks s.requests s.locked
  tracks : Tracks before s.requests (taken ++ c.entries) c.answers

/-- A session that is where a schedule is. -/
structure Follows (s : Session ε) (before : Nat) (c : Schedule σ ε)
    (taken : List (ResolveTask × RequestStage ε)) : Prop extends Matches s before c taken where
  locked : s.locked.Perm c.locked
  waiting : ∀ t ∈ c.waiting, t.path ∈ c.locked
  paused : ∀ e ∈ c.paused, e.2.turnsLeft = 1

variable (options) {before : Nat} {c : Schedule σ ε} {t : ResolveTask}

/-- A lock that a request gave back goes to the next one that waits for it. -/
theorem Matches.exists_run_release {path : String} (h : s.Matches before c [])
    (hlocked : (path :: s.locked).Perm c.locked) (hfree : path ∉ s.locked)
    (hwaiting : ∀ t ∈ c.waiting, t.path ∈ c.locked)
    (hpaused : ∀ e ∈ c.paused, e.2.turnsLeft = 1) :
    ∃ evs s', s.run options evs = some s' ∧ s'.Follows before (c.release path) [] := by
  unfold Schedule.release
  cases hfind : c.waiting.find? (·.path == path) with
  | none =>
    have herase : s.locked.Perm (c.locked.erase path) := by
      have := hlocked.erase path
      rwa [List.erase_cons_head] at this
    refine ⟨[], s, rfl, ⟨h.plugin, h.locks, h.tracks⟩, herase, ?_, hpaused⟩
    intro t ht
    have hne : t.path ≠ path := by simpa using List.find?_eq_none.1 hfind t ht
    exact (List.mem_erase_of_ne hne).2 (hwaiting t ht)
  | some t =>
    have hpath : t.path = path := by simpa using List.find?_some hfind
    have hmem : t ∈ c.waiting := List.mem_of_find?_eq_some hfind
    subst hpath
    have hwait : (c.waiting.map fun u => (u, (.waiting : RequestStage ε))).Perm
        ((t, .waiting) :: (c.waiting.erase t).map fun u => (u, .waiting)) :=
      (List.perm_cons_erase hmem).map _
    have hold : Tracks before s.requests ((t, .waiting) ::
        ((c.ready ++ c.paused).map (fun e => (e.1, e.2.toRequest)) ++
          (c.waiting.erase t).map (·, .waiting))) c.answers := by
      refine h.tracks.perm (List.perm_middle.symm.trans ?_)
      exact hwait.symm.append_left _
    have hlock : s.step options (.lock (before + t.number)) =
        some { s.setStage (before + t.number) .holding with locked := t.path :: s.locked } :=
      lock_of_free hold.head hfree
    refine ⟨[.lock (before + t.number)], _, run_singleton hlock,
      ⟨h.plugin, locks_step h.locks hlock, ?_⟩, hlocked,
      fun u hu => hwaiting u (List.mem_of_mem_erase hu), hpaused⟩
    refine (hold.move (by simp) (by simp)).perm ?_
    simp only [Schedule.entries, List.nil_append, List.append_assoc, List.map_append]
    exact List.perm_middle

/-- A request with a lock is answered, and the lock goes to the next one. -/
theorem Follows.exists_run_leave {stage : RequestStage ε} (h : s.Follows before c [(t, stage)])
    (hstage : stage.holdsLock) (a : PluginAnswer ε) :
    ∃ evs s', (s.leave (before + t.number) t.path a).run options evs = some s' ∧
      s'.Follows before ((c.answer t a).release t.path) [] := by
  have hhead := h.tracks.head
  have hmem : t.path ∈ s.locked := h.locks.mem_locked _ _ hhead hstage
  have hpending : ∀ a, stage ≠ .answered a := by
    rintro b rfl
    cases hstage
  have hmatches : (s.leave (before + t.number) t.path a).Matches before (c.answer t a) [] :=
    ⟨h.plugin, h.locks.leave hhead hstage rfl, h.tracks.answer hpending a⟩
  exact hmatches.exists_run_release options ((List.perm_cons_erase hmem).symm.trans h.locked)
    (fun hin => h.locks.nodup.not_mem_erase hin) h.waiting h.paused

/-- A request that has to build begins to. -/
theorem Follows.exists_run_beginBuild (h : s.Follows before c [(t, .decided)]) :
    ∃ evs s', s.run options evs = some s' ∧ s'.Follows before (c.beginBuild t) [] := by
  have hhead := h.tracks.head
  unfold Schedule.beginBuild
  rw [← h.plugin]
  cases hb : s.plugin.beginBuild t.path with
  | none =>
    have hstep : s.step options (.beginBuild (before + t.number)) =
        some (s.leave (before + t.number) t.path (.ok none)) :=
      beginBuild_of_none hhead hb
    obtain ⟨evs, s', hrun, hs'⟩ := h.exists_run_leave options rfl (.ok none)
    exact ⟨_, s', run_trans (run_singleton hstep) hrun, hs'⟩
  | some begun =>
    obtain ⟨request, plugin⟩ := begun
    have hstep : s.step options (.beginBuild (before + t.number)) =
        some { s.setStage (before + t.number) (.building request) with plugin } :=
      beginBuild_of_some hhead hb
    have hpath := (PluginState.exists_of_beginBuild hb).1
    refine ⟨[.beginBuild (before + t.number)], _, run_singleton hstep,
      ⟨rfl, locks_step h.locks hstep, ?_⟩, h.locked, h.waiting, ?_⟩
    · refine (h.tracks.move (by simp) (by simp [hpath])).perm ?_
      simp only [Schedule.entries, List.nil_append, List.map_append, List.map_cons,
        List.append_assoc, List.cons_append]
      exact List.perm_middle
    · intro e he
      rcases List.mem_cons.1 he with rfl | he
      · rfl
      · exact h.paused e he

/-- A request that got the lock looks again. -/
theorem Follows.exists_run_proceed (h : s.Follows before c [(t, .holding)]) :
    ∃ evs s', s.run options evs = some s' ∧ s'.Follows before (c.proceed t) [] := by
  have hhead := h.tracks.head
  unfold Schedule.proceed
  rw [← h.plugin]
  have hanswer : ∀ a, (s.plugin.lookup t.path).answer? = some a →
      ∃ evs s', s.run options evs = some s' ∧
        s'.Follows before ((c.answer t a).release t.path) [] := by
    intro a ha
    have hstep : s.step options (.lookAgain (before + t.number)) =
        some (s.leave (before + t.number) t.path a) :=
      lookAgain_of_answer hhead ha
    obtain ⟨evs, s', hrun, hs'⟩ := h.exists_run_leave options rfl a
    exact ⟨_, s', run_trans (run_singleton hstep) hrun, hs'⟩
  cases hl : s.plugin.lookup t.path with
  | found content => exact hanswer _ (by rw [hl]; rfl)
  | unknown => exact hanswer _ (by rw [hl]; rfl)
  | unbuilt =>
    have hnone : (s.plugin.lookup t.path).answer? = (none : Option (PluginAnswer ε)) := by
      rw [hl]
      rfl
    have hstep : s.step options (.lookAgain (before + t.number)) =
        some (s.setStage (before + t.number) .decided) :=
      lookAgain_of_unbuilt hhead hnone
    have hdecided : (s.setStage (before + t.number) .decided).Follows before c [(t, .decided)] :=
      ⟨⟨h.plugin, locks_step h.locks hstep, h.tracks.move (by simp) (by simp)⟩, h.locked, h.waiting,
        h.paused⟩
    obtain ⟨evs, s', hrun, hs'⟩ := hdecided.exists_run_beginBuild options
    exact ⟨_, s', run_trans (run_singleton hstep) hrun, hs'⟩

/-- A request that arrived looks, and takes the lock if it is free. -/
theorem Follows.exists_run_arrive (h : s.Follows before c [(t, .arrived)]) :
    ∃ evs s', s.run options evs = some s' ∧ s'.Follows before (c.arrive t) [] := by
  have hhead := h.tracks.head
  unfold Schedule.arrive
  rw [← h.plugin]
  have hanswer : ∀ a, (s.plugin.lookup t.path).answer? = some a →
      ∃ evs s', s.run options evs = some s' ∧ s'.Follows before (c.answer t a) [] := by
    intro a ha
    have hstep : s.step options (.look (before + t.number)) =
        some (s.setStage (before + t.number) (.answered a)) :=
      look_of_answer hhead ha
    exact ⟨[.look (before + t.number)], _, run_singleton hstep,
      ⟨h.plugin, locks_step h.locks hstep, h.tracks.answer (by simp) a⟩, h.locked, h.waiting,
        h.paused⟩
  cases hl : s.plugin.lookup t.path with
  | found content => exact hanswer _ (by rw [hl]; rfl)
  | unknown => exact hanswer _ (by rw [hl]; rfl)
  | unbuilt =>
    have hnone : (s.plugin.lookup t.path).answer? = (none : Option (PluginAnswer ε)) := by
      rw [hl]
      rfl
    let u : Session ε := s.setStage (before + t.number) .waiting
    have hlook : s.step options (.look (before + t.number)) = some u :=
      look_of_unbuilt hhead hnone
    have hwaits : Tracks before u.requests ((t, .waiting) :: c.entries) c.answers :=
      h.tracks.move (by simp) (by simp)
    by_cases hlocked : t.path ∈ c.locked
    · rw [if_pos (List.contains_iff_mem.2 hlocked)]
      refine ⟨[.look (before + t.number)], u, run_singleton hlook,
        ⟨h.plugin, locks_step h.locks hlook, ?_⟩, h.locked, ?_, h.paused⟩
      · refine hwaits.perm ?_
        simp only [Schedule.entries, List.nil_append, List.map_append, List.map_cons, List.map_nil]
        rw [← List.append_assoc]
        exact List.perm_append_singleton _ _
      · intro v hv
        rcases List.mem_append.1 hv with hv | hv
        · exact h.waiting v hv
        · cases List.mem_singleton.1 hv
          exact hlocked
    · rw [if_neg (by simpa using hlocked)]
      have hfree : t.path ∉ s.locked := fun hin => hlocked (h.locked.mem_iff.1 hin)
      let v : Session ε :=
        { u.setStage (before + t.number) .holding with locked := t.path :: s.locked }
      have hlock : u.step options (.lock (before + t.number)) = some v :=
        lock_of_free hwaits.head hfree
      have hv : v.Follows before { c with locked := t.path :: c.locked } [(t, .holding)] := by
        refine ⟨⟨h.plugin, locks_step (locks_step h.locks hlook) hlock, ?_⟩, h.locked.cons _, ?_,
          h.paused⟩
        · exact hwaits.move (by simp) (by simp)
        · exact fun w hw => List.mem_cons_of_mem _ (h.waiting w hw)
      obtain ⟨evs, s', hrun, hs'⟩ := hv.exists_run_proceed options
      refine ⟨_, s', run_trans (run_singleton hlook) (run_trans (run_singleton hlock) hrun), ?_⟩
      unfold Schedule.proceed at hs'
      rw [← h.plugin, hl] at hs'
      exact hs'

theorem finish_eq (p : Plugin σ ε) (fs : FileSystem) (c : Schedule σ ε) (t : ResolveTask)
    (request : BundleRequest) :
    c.finish p fs t request =
      let run := p.pipeline.run c.plugin.2 fs request
      let done := (run.changes.foldl PluginState.emit c.plugin.1).finishBuild p.options
        request.requestedPath run.outcome
      ({ c with plugin := (done.2, run.next) }.answer t
        (done.1.map fun code => some (.text code))).release t.path := rfl

/-- A request whose build began ends it. -/
theorem Follows.exists_run_finish (p : Plugin σ ε) (fs : FileSystem) {request : BundleRequest}
    (h : s.Follows before c [(t, .building request)]) :
    ∃ evs s', s.run p.options evs = some s' ∧ s'.Follows before (c.finish p fs t request) [] := by
  have hpath := h.tracks.requestedPath t request List.mem_cons_self
  rw [finish_eq, hpath, ← h.plugin]
  let run := p.pipeline.run c.plugin.2 fs request
  let changed : Session ε := { s with plugin := run.changes.foldl PluginState.emit s.plugin }
  let done := changed.plugin.finishBuild p.options t.path run.outcome
  have hemit : s.run p.options (run.changes.map .emit) = some changed := run_emit s run.changes
  have hfinish : changed.step p.options (.finishBuild (before + t.number) run.outcome) =
      some { changed.leave (before + t.number) t.path
        (done.1.map fun code => some (.text code)) with plugin := done.2 } :=
    finishBuild_of_building (s := changed) h.tracks.head run.outcome
  have hdone : ({ s with plugin := done.2 } : Session ε).Follows before
      { c with plugin := (done.2, run.next) } [(t, .building request)] :=
    ⟨⟨rfl, h.locks, h.tracks⟩, h.locked, h.waiting, h.paused⟩
  obtain ⟨evs, s', hrun, hs'⟩ :=
    hdone.exists_run_leave p.options rfl (done.1.map fun code => some (.text code))
  exact ⟨_, s', run_trans hemit (run_trans (run_singleton hfinish) hrun), hs'⟩

/-- Each turn is a run. -/
theorem Follows.exists_run_turn (p : Plugin σ ε) (fs : FileSystem) (h : s.Follows before c []) :
    ∃ evs s', s.run p.options evs = some s' ∧ s'.Follows before (c.turn p fs) [] := by
  unfold Schedule.turn
  cases hready : c.ready with
  | nil =>
    refine ⟨[], s, rfl, ⟨h.plugin, h.locks, h.tracks.perm ?_⟩, h.locked, h.waiting, by simp⟩
    simp only [Schedule.entries, hready, List.nil_append, List.append_nil]
    refine (List.Perm.map _ ?_).append_right _
    split
    · exact .refl _
    · exact List.reverse_perm _
  | cons entry ready =>
    obtain ⟨t, stage⟩ := entry
    have htaken : s.Follows before { c with ready } [(t, stage.toRequest)] := by
      refine ⟨⟨h.plugin, h.locks, ?_⟩, h.locked, h.waiting, h.paused⟩
      have := h.tracks
      simp only [Schedule.entries, hready, List.nil_append, List.cons_append, List.map_cons] at this
      exact this
    cases stage with
    | arrived => exact htaken.exists_run_arrive p.options
    | holding => exact htaken.exists_run_proceed p.options
    | building request => exact htaken.exists_run_finish p fs

/-- Someone goes on while someone waits. -/
theorem Follows.waiting_eq_nil (h : s.Follows before c []) (hready : c.ready = [])
    (hpaused : c.paused = []) : c.waiting = [] := by
  by_contra hne
  obtain ⟨t, ht⟩ := List.exists_mem_of_ne_nil _ hne
  have hlocked : t.path ∈ s.locked := h.locked.mem_iff.2 (h.waiting t ht)
  obtain ⟨k, r, hr, -, hholds⟩ := h.locks.exists_holder t.path hlocked
  rcases h.tracks.complete k r hr with ⟨a, ha, -⟩ | hk
  · rw [ha] at hholds
    cases hholds
  · obtain ⟨e, he, rfl⟩ := List.mem_map.1 hk
    have hstage := h.tracks.getElem? e he
    rw [hr] at hstage
    cases hstage
    simp only [Schedule.entries, hready, hpaused, List.nil_append, List.map_nil] at he
    obtain ⟨u, -, rfl⟩ := List.mem_map.1 he
    cases hholds

theorem Follows.turnsLeft_turn (p : Plugin σ ε) (fs : FileSystem) (h : s.Follows before c []) :
    (c.turn p fs).turnsLeft ≤ c.turnsLeft - 1 := by
  by_cases hdone : c.ready = [] ∧ c.paused = []
  · have hwaiting := h.waiting_eq_nil hdone.1 hdone.2
    simp [Schedule.turn, Schedule.turnsLeft, Schedule.readyTurns, hdone.1, hdone.2, hwaiting]
  · have := c.turnsLeft_turn p fs (by rwa [← not_and_or]) h.paused
    omega

theorem Follows.exists_run_turns (p : Plugin σ ε) (fs : FileSystem) (n : Nat)
    (h : s.Follows before c []) :
    ∃ evs s', s.run p.options evs = some s' ∧ s'.Follows before (c.turns p fs n) [] ∧
      (c.turns p fs n).turnsLeft ≤ c.turnsLeft - n := by
  induction n generalizing s c with
  | zero => exact ⟨[], s, rfl, h, Nat.le_refl _⟩
  | succ n ih =>
    have hleft := h.turnsLeft_turn p fs
    obtain ⟨evs, t, hrun, ht⟩ := h.exists_run_turn p fs
    obtain ⟨evs', s', hrun', hs', hleft'⟩ := ih ht
    refine ⟨evs ++ evs', s', run_trans hrun hrun', hs', ?_⟩
    rw [Schedule.turns]
    omega

/-! ## Requests from an idle session -/

/-- A session in which no request has anything left to do. -/
structure IsIdle (s : Session ε) : Prop where
  locks : Locks s.requests s.locked
  answered : ∀ r ∈ s.requests, ∃ a, r.stage = .answered a

theorem IsIdle.locked_eq_nil (h : s.IsIdle) : s.locked = [] := by
  by_contra hne
  obtain ⟨path, hpath⟩ := List.exists_mem_of_ne_nil _ hne
  obtain ⟨k, r, hr, -, hholds⟩ := h.locks.exists_holder path hpath
  obtain ⟨a, ha⟩ := h.answered r (List.mem_of_getElem? hr)
  rw [ha] at hholds
  cases hholds

theorem run_arrive (s : Session ε) (paths : List String) :
    s.run options (paths.map .arrive) =
      some { s with requests := s.requests ++ paths.map (⟨·, .arrived⟩) } := by
  induction paths generalizing s with
  | nil => simp
  | cons path paths ih =>
    have harrive : s.step options (.arrive path) =
        some { s with requests := s.requests ++ [⟨path, .arrived⟩] } := rfl
    rw [List.map_cons, run_cons, harrive]
    simp only [Option.bind_some]
    rw [ih]
    simp

theorem IsIdle.follows_arrive (h : s.IsIdle) (paths : List String) (σ₀ : σ) :
    ({ s with requests := s.requests ++ paths.map (⟨·, .arrived⟩) } : Session ε).Follows
      s.requests.length
      { plugin := (s.plugin, σ₀)
        ready := paths.zipIdx.map fun (path, k) => (⟨k, path⟩, .arrived) } [] := by
  have hlocks : Locks (s.requests ++ paths.map (⟨·, .arrived⟩)) s.locked :=
    run_induction (P := fun s : Session ε => Locks s.requests s.locked) (run_arrive {} s paths)
      h.locks fun _ _ _ ht hstep => locks_step ht hstep
  refine ⟨⟨rfl, hlocks, ?_⟩, by rw [h.locked_eq_nil], by simp, by simp⟩
  have hentries : ([] : List (ResolveTask × RequestStage ε)) ++ Schedule.entries
      { plugin := (s.plugin, σ₀)
        ready := paths.zipIdx.map fun (path, k) => (⟨k, path⟩, .arrived) } =
      paths.zipIdx.map fun (path, k) => (⟨k, path⟩, .arrived) := by
    simp [Schedule.entries, ResolveStage.toRequest]
  rw [hentries]
  refine
    { distinct := ?_
      getElem? := ?_
      requestedPath := ?_
      answered := by simp
      complete := ?_ }
  · have hnumbers : (paths.zipIdx.map Prod.snd).Nodup := by
      rw [List.zipIdx_map_snd]
      exact List.nodup_range'
    rw [List.map_map]
    have hshifted := List.Nodup.map (f := (s.requests.length + ·))
      (fun _ _ => Nat.add_left_cancel) hnumbers
    rw [List.map_map] at hshifted
    exact hshifted
  · intro e he
    obtain ⟨⟨path, k⟩, hk, rfl⟩ := List.mem_map.1 he
    rw [List.mk_mem_zipIdx_iff_getElem?] at hk
    rw [List.getElem?_append_right (Nat.le_add_right _ _), Nat.add_sub_cancel_left,
      List.getElem?_map, hk]
    rfl
  · intro t request ht
    obtain ⟨⟨path, k⟩, -, heq⟩ := List.mem_map.1 ht
    cases heq
  · intro k r hr
    by_cases hk : k < s.requests.length
    · rw [List.getElem?_append_left hk] at hr
      obtain ⟨a, ha⟩ := h.answered r (List.mem_of_getElem? hr)
      exact .inl ⟨a, ha, fun hle => absurd hle (Nat.not_le_of_lt hk)⟩
    · rw [List.getElem?_append_right (Nat.le_of_not_lt hk), List.getElem?_map,
        Option.map_eq_some_iff] at hr
      obtain ⟨path, hpath, -⟩ := hr
      refine .inr (List.mem_map.2 ⟨_, List.mem_map.2 ⟨(path, k - s.requests.length),
        List.mk_mem_zipIdx_iff_getElem?.2 hpath, rfl⟩, ?_⟩)
      dsimp only
      omega

/-- Requests that take turns are all answered, and what they are answered and leave behind is what a
run of a session does. -/
theorem IsIdle.exists_run_resolveAll (h : s.IsIdle) (p : Plugin σ ε) (fs : FileSystem)
    (paths : List String) (σ₀ : σ) :
    ∃ evs s', s.run p.options evs = some s' ∧ s'.IsIdle ∧
      s'.plugin = (p.resolveAll fs paths (s.plugin, σ₀)).2.1 ∧
      ∀ (k : Nat) path, paths[k]? = some path → ∃ a,
        s'.requests[s.requests.length + k]? = some ⟨path, .answered a⟩ ∧
        (p.resolveAll fs paths (s.plugin, σ₀)).1[k]? = some a := by
  let c : Schedule σ ε :=
    { plugin := (s.plugin, σ₀)
      ready := paths.zipIdx.map fun (path, k) => (⟨k, path⟩, .arrived) }
  let d := c.turns p fs (4 * paths.length)
  have hfollows := h.follows_arrive paths σ₀
  obtain ⟨evs, s', hrun, hs', hleft⟩ := hfollows.exists_run_turns p fs (4 * paths.length)
  have hfour : c.turnsLeft = 4 * paths.length := by
    have hall : ∀ e ∈ c.ready, e.2.turnsLeft = 4 := by
      intro e he
      obtain ⟨⟨path, k⟩, -, rfl⟩ := List.mem_map.1 he
      rfl
    have hlength : c.ready.length = paths.length := by simp [c]
    rw [Schedule.turnsLeft, Schedule.readyTurns_of_forall hall, hlength]
    rfl
  have hdone : d.entries = [] := by
    apply Schedule.entries_eq_nil
    have : d.turnsLeft ≤ c.turnsLeft - 4 * paths.length := hleft
    omega
  have hanswered : ∀ (k : Nat) r, s'.requests[k]? = some r →
      ∃ a, r.stage = .answered a ∧
        (s.requests.length ≤ k → (k - s.requests.length, a) ∈ d.answers) := by
    intro k r hr
    have := hs'.tracks.complete k r hr
    rw [hdone] at this
    simpa using this
  refine ⟨paths.map .arrive ++ evs, s', run_trans (run_arrive p.options s paths) hrun,
    ⟨hs'.locks, ?_⟩, hs'.plugin, ?_⟩
  · intro r hr
    obtain ⟨k, hk⟩ := List.getElem?_of_mem hr
    obtain ⟨a, ha, -⟩ := hanswered k r hk
    exact ⟨a, ha⟩
  · intro k path hpath
    have hstays : s'.requests[s.requests.length + k]?.map (·.path) = some path := by
      refine run_induction (P := fun u : Session ε =>
        u.requests[s.requests.length + k]?.map (·.path) = some path) hrun ?_
        fun _ _ _ hu hstep => path_step hstep hu
      rw [List.getElem?_append_right (Nat.le_add_right _ _), Nat.add_sub_cancel_left,
        List.getElem?_map, hpath]
      rfl
    obtain ⟨⟨_, stage⟩, hr, rfl⟩ := Option.map_eq_some_iff.1 hstays
    obtain ⟨a, rfl, ha⟩ := hanswered _ _ hr
    refine ⟨a, hr, ?_⟩
    have hmem : (k, a) ∈ d.answers := by
      simpa using ha (Nat.le_add_right _ _)
    have hlookup : d.answers.lookup k = some a := by
      cases hl : d.answers.lookup k with
      | none => simpa using List.lookup_eq_none_iff.1 hl _ hmem
      | some b =>
        obtain ⟨front, back, hsplit, -⟩ := List.lookup_eq_some_iff.1 hl
        obtain ⟨path', hb⟩ := hs'.tracks.answered k b (by rw [hsplit]; simp)
        rw [hr] at hb
        cases hb
        rfl
    have hk : k < paths.length := (List.getElem?_eq_some_iff.1 hpath).1
    change ((List.range paths.length).map fun k => (d.answers.lookup k).getD (.ok none))[k]? = _
    rw [List.getElem?_map, List.getElem?_range hk, Option.map_some, hlookup]
    rfl

end Session

/-- A request that is alone has its turns one after the other. -/
theorem Plugin.resolveAll_singleton (p : Plugin σ ε) (fs : FileSystem) (path : String)
    (s : PluginState × σ) :
    p.resolveAll fs [path] s = ([(p.resolve fs path s).1], (p.resolve fs path s).2) := by
  unfold resolveAll resolve
  cases hl : s.1.lookup path with
  | found content => simp [Schedule.turns, Schedule.turn, Schedule.arrive, Schedule.answer, hl]
  | unknown => simp [Schedule.turns, Schedule.turn, Schedule.arrive, Schedule.answer, hl]
  | unbuilt =>
    cases hb : s.1.beginBuild path with
    | none =>
      simp [Schedule.turns, Schedule.turn, Schedule.arrive, Schedule.beginBuild, Schedule.answer,
        Schedule.release, hl, hb]
    | some begun =>
      obtain ⟨request, state⟩ := begun
      simp [Schedule.turns, Schedule.turn, Schedule.arrive, Schedule.beginBuild, Schedule.finish,
        Schedule.answer, Schedule.release, hl, hb]

theorem Session.IsIdle.exists_run_resolve {s : Session ε} (h : s.IsIdle) (p : Plugin σ ε)
    (fs : FileSystem) (path : String) (σ₀ : σ) :
    ∃ evs s', s.run p.options evs = some s' ∧ s'.IsIdle ∧
      s'.plugin = (p.resolve fs path (s.plugin, σ₀)).2.1 ∧
      s'.requests[s.requests.length]? =
        some ⟨path, .answered (p.resolve fs path (s.plugin, σ₀)).1⟩ := by
  obtain ⟨evs, s', hrun, hidle, hplugin, hanswers⟩ := h.exists_run_resolveAll p fs [path] σ₀
  obtain ⟨a, ha, hresult⟩ := hanswers 0 path rfl
  rw [Plugin.resolveAll_singleton] at hplugin hresult
  cases hresult
  exact ⟨evs, s', hrun, hidle, hplugin, ha⟩

end ModuleWorkers
