import Mathlib.Data.List.Induction
import ModuleWorkers.Proofs.Plugin.Flights

/-!
# One build for all requests

At most one build of a path runs at a time, and none while there is something to answer requests
with (`Session.singleFlight`). A request looks twice, the second time with the lock of its path, and
between that look and the beginning of the build only files that are put at the path itself can
change what it saw. From the event that stores a bundle until its worker loses it, all requests for
the path are answered with it (`Session.Settled.step`), and none of them can be stuck
(`Session.Settled.exists_answer`).
-/

namespace ModuleWorkers

variable {ε : Type}

/-- Whether an event is a look of a request, or that it takes a lock. -/
def SessionEvent.isLook : SessionEvent ε → Bool
  | .look _ | .lock _ | .lookAgain _ => true
  | _ => false

namespace Session

def bundle? (s : Session ε) (path : String) : Option WorkerBundle :=
  (s.plugin.registry.get? path).bind (·.bundle)

/-- The paths at which an event serves files: the map of a script, or what comes with a bundle. -/
def stored (s : Session ε) : SessionEvent ε → List String
  | .storeMap k => (s.maps[k]?).toList.map (·.1)
  | .finishBuild k (.ok output) => (s.requests[k]?).toList.flatMap fun r => output.paths r.path
  | _ => []

/-- No event of a run serves a file at a path. -/
def NeverStores (options : PluginOptions) (s : Session ε) (evs : List (SessionEvent ε))
    (path : String) : Prop :=
  ∀ before ev after t, evs = before ++ ev :: after → s.run options before = some t →
    path ∉ t.stored ev

/-- A path has a bundle throughout a run. -/
def KeepsBundle (options : PluginOptions) (s : Session ε) (evs : List (SessionEvent ε))
    (path : String) (b : WorkerBundle) : Prop :=
  ∀ before after t, evs = before ++ after → s.run options before = some t → t.bundle? path = some b

/-- What can be relied on of the builds in a state that some events lead to. -/
structure SingleFlight (options : PluginOptions) (s : Session ε) (evs : List (SessionEvent ε)) :
    Prop where
  /-- At most one call of the pipeline for a path has not returned. -/
  unique : ∀ (j k : Nat) path request request', s.requests[j]? = some ⟨path, .building request⟩ →
    s.requests[k]? = some ⟨path, .building request'⟩ → j = k
  /-- Changes are noted for an entry just while a build of it runs. -/
  changes_iff : ∀ path e, s.plugin.registry.get? path = some e →
    (e.changes.isSome ↔ ∃ (k : Nat) (request : BundleRequest),
      s.requests[k]? = some ⟨path, .building request⟩)
  /-- The pipeline is called for a path that is registered and has no bundle. No file was served at
  the path when the request looked again, and none is now if none was put there since. -/
  unbuilt : ∀ k s', s.step options (.beginBuild k) = some s' →
    ∃ path request e before middle t,
      s'.requests[k]? = some ⟨path, .building request⟩ ∧ request.requestedPath = path ∧
      s.plugin.registry.get? path = some e ∧ e.bundle = none ∧
      evs = before ++ .lookAgain k :: middle ∧ run options {} before = some t ∧
      t.plugin.virtualFiles.get? path = none ∧
      (t.NeverStores options (.lookAgain k :: middle) path →
        s.plugin.virtualFiles.get? path = none)
  /-- The request that stores a bundle is answered with it. -/
  answers : ∀ ev s' path b, s.step options ev = some s' → s.bundle? path ≠ some b →
    s'.bundle? path = some b → ∃ k output request, ev = .finishBuild k (.ok output) ∧
      s.requests[k]? = some ⟨path, .building request⟩ ∧
      s'.requests[k]? = some ⟨path, .answered (.ok (some (.text b.code)))⟩
  /-- While a path has a bundle and no file is served at the path itself, no build of the path
  begins, all answers to requests for it are the bundle, and so is what any other request for it
  gets when it goes on, without a call of the pipeline. -/
  shares : ∀ path b evs' s', s.bundle? path = some b → s.run options evs' = some s' →
    s.KeepsBundle options evs' path b → NeverStores options {} (evs ++ evs') path →
      (∀ ev ∈ evs', s'.IsElsewhere path ev) ∧
      (∀ (k : Nat) a, s'.requests[k]? = some ⟨path, .answered a⟩ →
        s.requests[k]? = some ⟨path, .answered a⟩ ∨ a = .ok (some (.text b.code))) ∧
      (∀ (k : Nat) stage, s'.requests[k]? = some ⟨path, stage⟩ → (∃ a, stage = .answered a) ∨
        ∃ more t, (∀ ev ∈ more, ev.isLook) ∧ s'.run options more = some t ∧
          t.requests[k]? = some ⟨path, .answered (.ok (some (.text b.code)))⟩)

variable {options : PluginOptions} {s s' : Session ε} {evs : List (SessionEvent ε)} {k : Nat}
  {path : String} {b : WorkerBundle}

/-! ## Files that are put at a path -/

theorem get?_virtualFiles_step {ev : SessionEvent ε} (h : s.step options ev = some s')
    (hp : path ∉ s.stored ev) :
    s'.plugin.virtualFiles.get? path = s.plugin.virtualFiles.get? path := by
  have he := effect_step h
  generalize s'.plugin = plugin, s'.maps = maps at he ⊢
  cases he with
  | same => rfl
  | start => rfl
  | serve => exact congrArg (·.get? path) (s.plugin.later_canonicalize _ _ _).virtualFiles
  | @storeMap k q m hm =>
    have hq : q ≠ path := by
      rintro rfl
      refine hp ?_
      change q ∈ (s.maps[k]?).toList.map (·.1)
      rw [hm]
      exact List.mem_singleton_self _
    exact VirtualFiles.get?_insert_of_ne hq _ _ _
  | change => exact congrArg (·.get? path) (s.plugin.later_handleChange _).virtualFiles
  | emit => exact congrArg (·.get? path) (s.plugin.later_emit _).virtualFiles
  | beginBuild _ hb =>
    obtain ⟨-, e, -, rfl⟩ := PluginState.exists_of_beginBuild hb
    rfl
  | beginBuild_unknown => rfl
  | @finishBuild k q request outcome hk =>
    refine PluginState.get?_virtualFiles_finishBuild options s.plugin q
      fun output houtput hq => hp ?_
    subst houtput
    change path ∈ (s.requests[k]?).toList.flatMap fun r => output.paths r.path
    rw [hk]
    exact List.mem_flatMap.2 ⟨_, List.mem_singleton_self _, hq⟩

theorem NeverStores.head {ev : SessionEvent ε} (h : s.NeverStores options (ev :: evs) path) :
    path ∉ s.stored ev :=
  AtEach.head (P := fun t ev => path ∉ t.stored ev) h

theorem NeverStores.tail {ev : SessionEvent ε} (h : s.NeverStores options (ev :: evs) path)
    (hstep : s.step options ev = some s') : s'.NeverStores options evs path :=
  AtEach.tail (P := fun t ev => path ∉ t.stored ev) h hstep

theorem NeverStores.of_append {evs' : List (SessionEvent ε)}
    (h : s.NeverStores options (evs ++ evs') path) (hrun : s.run options evs = some s') :
    s'.NeverStores options evs' path :=
  AtEach.right (P := fun t ev => path ∉ t.stored ev) h hrun

theorem NeverStores.left {evs' : List (SessionEvent ε)}
    (h : s.NeverStores options (evs ++ evs') path) : s.NeverStores options evs path :=
  AtEach.left (P := fun t ev => path ∉ t.stored ev) h

theorem get?_virtualFiles_run (h : s.run options evs = some s')
    (hn : s.NeverStores options evs path) :
    s'.plugin.virtualFiles.get? path = s.plugin.virtualFiles.get? path := by
  induction evs generalizing s with
  | nil =>
    cases h
    rfl
  | cons ev evs ih =>
    rw [run_cons, Option.bind_eq_some_iff] at h
    obtain ⟨t, ht, hrun⟩ := h
    rw [ih hrun (hn.tail ht), get?_virtualFiles_step ht hn.head]

/-! ## The look before a build -/

/-- A request that is about to build looked again, and nothing was served at its path then. -/
theorem exists_lookAgain (h : run options {} evs = some s)
    (hk : s.requests[k]? = some ⟨path, .decided⟩) :
    ∃ before middle t, evs = before ++ .lookAgain k :: middle ∧ run options {} before = some t ∧
      t.plugin.virtualFiles.get? path = none ∧ t.run options (.lookAgain k :: middle) = some s := by
  induction evs using List.reverseRecOn generalizing s with
  | nil =>
    cases h
    cases hk
  | append_singleton evs ev ih =>
    obtain ⟨u, hu, hstep⟩ := run_concat_eq_some h
    rcases requests_step hstep hk with hk' | harr | ⟨old, -, hm⟩
    · obtain ⟨before, middle, t, rfl, ht, hnone, hrun⟩ := ih hu hk'
      refine ⟨before, middle ++ [ev], t, by simp, ht, hnone, ?_⟩
      rw [← List.cons_append, run_append, hrun]
      simp [run_cons, hstep]
    · cases harr
    · cases hm with
      | lookAgain_decide hn =>
        refine ⟨evs, [], u, rfl, hu, (PluginState.answer?_lookup_eq_none hn).1, ?_⟩
        rw [run_cons, hstep]
        rfl

/-! ## The event that stores a bundle -/

theorem bundle?_of_later (hl : s.plugin.registry.Later s'.plugin.registry)
    (hb : s'.bundle? path = some b) : s.bundle? path = some b := by
  obtain ⟨e', he', hbundle⟩ := Option.bind_eq_some_iff.1 hb
  rcases hl.get?_of_get? he' with ⟨e, he, hle⟩ | ⟨-, hnew⟩
  · exact Option.bind_eq_some_iff.2 ⟨e, he, hle.bundle_eq hbundle⟩
  · rw [hnew.bundle] at hbundle
    cases hbundle

theorem stores_bundle {ev : SessionEvent ε} (hflights : Flights s.plugin.registry s.requests)
    (h : s.step options ev = some s') (hnot : s.bundle? path ≠ some b)
    (hb : s'.bundle? path = some b) : ∃ k output request, ev = .finishBuild k (.ok output) ∧
      s.requests[k]? = some ⟨path, .building request⟩ ∧
      s'.requests[k]? = some ⟨path, .answered (.ok (some (.text b.code)))⟩ := by
  cases hbuild : ev.build? with
  | none => exact absurd (bundle?_of_later (later_step h hbuild) hb) hnot
  | some k =>
    cases ev with
    | beginBuild k =>
      obtain ⟨q, -, ⟨request, plugin, hbegin, rfl⟩ | ⟨-, rfl⟩⟩ := step_beginBuild h
      · obtain ⟨-, e, -, rfl⟩ := PluginState.exists_of_beginBuild hbegin
        refine absurd ?_ hnot
        rw [← hb]
        unfold bundle?
        dsimp only
        rw [PluginState.get?_beginBuild]
        split
        · cases s.plugin.registry.get? path <;> rfl
        · rfl
      · exact absurd hb hnot
    | finishBuild k outcome =>
      obtain ⟨q, request, hk, rfl⟩ := step_finishBuild h
      obtain ⟨d, hd, hunbuilt⟩ := hflights.unbuilt k _ hk rfl
      unfold bundle? at hb hnot
      dsimp only at hb
      by_cases hq : q = path
      · subst hq
        rw [PluginState.get?_finishBuild_self options hd, Option.bind_some] at hb
        cases outcome with
        | error cause =>
          rw [show (s.plugin.finished options d (.error cause)).bundle = none from hunbuilt] at hb
          cases hb
        | ok output =>
          refine ⟨k, output, request, rfl, hk, ?_⟩
          have hserved : b = PluginState.servedBundle options d output :=
            PluginState.eq_servedBundle_of_installed hb
          rw [PluginState.finishBuild_ok options hd, hserved]
          exact getElem?_modify_self hk _
      · rw [PluginState.get?_finishBuild_of_ne options s.plugin hq] at hb
        exact absurd hb hnot
    | _ => cases hbuild

/-! ## While a bundle stays -/

/-- Nobody builds a worker that has a bundle. -/
theorem isBuild_eq_false_of_bundle? (hflights : Flights s.plugin.registry s.requests)
    (hb : s.bundle? path = some b) {stage : RequestStage ε}
    (hk : s.requests[k]? = some ⟨path, stage⟩) : stage.isBuild = false := by
  rw [← Bool.not_eq_true]
  intro hbuild
  obtain ⟨e, he, hnone⟩ := hflights.unbuilt k _ hk hbuild
  unfold bundle? at hb
  rw [he, Option.bind_some, hnone] at hb
  cases hb

/-- No build of a path begins or ends while it has a bundle. -/
theorem isElsewhere_of_bundle? (hflights : Flights s.plugin.registry s.requests)
    (hb : s.bundle? path = some b) {ev : SessionEvent ε} (hstep : s.step options ev = some s') :
    s'.IsElsewhere path ev := by
  cases hbuild : ev.build? with
  | none =>
    intro k hk
    rw [hbuild] at hk
    cases hk
  | some k =>
    obtain ⟨other, stage, hk, hisBuild⟩ := exists_isBuild_of_step hstep hbuild
    refine isElsewhere_of_ne hstep hk hbuild ?_
    rintro rfl
    rw [isBuild_eq_false_of_bundle? hflights hb hk] at hisBuild
    cases hisBuild

/-- A path has a bundle, which is not hidden by a file that is served at the path. -/
structure Settled (s : Session ε) (path : String) (b : WorkerBundle) : Prop where
  locks : Locks s.requests s.locked
  flights : Flights s.plugin.registry s.requests
  bundle : s.bundle? path = some b
  unhidden : s.plugin.virtualFiles.get? path = none

namespace Settled

theorem answer?_lookup (h : s.Settled path b) :
    (s.plugin.lookup path).answer? = some (.ok (some (.text b.code)) : PluginAnswer ε) := by
  obtain ⟨e, he, hb⟩ := Option.bind_eq_some_iff.1 h.bundle
  unfold PluginState.lookup
  rw [h.unhidden]
  dsimp only
  rw [he]
  dsimp only
  rw [hb]
  rfl

/-- Nobody who asks for the path builds. -/
theorem isBuild_eq_false (h : s.Settled path b) {stage : RequestStage ε}
    (hk : s.requests[k]? = some ⟨path, stage⟩) : stage.isBuild = false :=
  isBuild_eq_false_of_bundle? h.flights h.bundle hk

/-- One event begins no build of the path, and answers requests for it with the bundle. -/
theorem step (h : s.Settled path b) {ev : SessionEvent ε} (hstep : s.step options ev = some s') :
    s'.IsElsewhere path ev ∧ ∀ (k : Nat) a, s'.requests[k]? = some ⟨path, .answered a⟩ →
      s.requests[k]? = some ⟨path, .answered a⟩ ∨ a = .ok (some (.text b.code)) := by
  refine ⟨isElsewhere_of_bundle? h.flights h.bundle hstep, fun k a hk => ?_⟩
  rcases requests_step hstep hk with hk' | harr | ⟨old, hold, hm⟩
  · exact .inl hk'
  · cases harr
  · refine .inr ?_
    change Move options s.plugin path k ev old (.answered a) at hm
    cases hm with
    | look_answer ha =>
      rw [h.answer?_lookup] at ha
      exact (Option.some.inj ha).symm
    | lookAgain_answer ha =>
      rw [h.answer?_lookup] at ha
      exact (Option.some.inj ha).symm
    | beginBuild_unknown _ => cases h.isBuild_eq_false hold
    | finishBuild => cases h.isBuild_eq_false hold

/-- A run begins no build of the path, and answers requests for it with the bundle. -/
theorem run (h : s.Settled path b) (hrun : s.run options evs = some s')
    (hkeeps : s.KeepsBundle options evs path b) (hn : s.NeverStores options evs path) :
    s'.Settled path b ∧ (∀ ev ∈ evs, s'.IsElsewhere path ev) ∧
      ∀ (k : Nat) a, s'.requests[k]? = some ⟨path, .answered a⟩ →
        s.requests[k]? = some ⟨path, .answered a⟩ ∨ a = .ok (some (.text b.code)) := by
  induction evs generalizing s with
  | nil =>
    cases hrun
    exact ⟨h, by simp, fun k a hk => .inl hk⟩
  | cons ev evs ih =>
    rw [run_cons, Option.bind_eq_some_iff] at hrun
    obtain ⟨t, ht, hrun⟩ := hrun
    have hone : s.run options [ev] = some t := by simp [run_cons, ht]
    have hsettled : t.Settled path b :=
      { locks := locks_step h.locks ht
        flights := flights_step h.locks h.flights ht
        bundle := hkeeps [ev] evs t rfl hone
        unhidden := (get?_virtualFiles_step ht hn.head).trans h.unhidden }
    have hkeeps' : t.KeepsBundle options evs path b := by
      rintro before after u rfl hu
      refine hkeeps (ev :: before) after u rfl ?_
      rw [run_cons, ht]
      exact hu
    obtain ⟨helse, hanswers⟩ := h.step ht
    obtain ⟨hs', helses, hanswers'⟩ := ih hsettled hrun hkeeps' (hn.tail ht)
    refine ⟨hs', fun other hother => ?_, fun k a hk => ?_⟩
    · rcases List.mem_cons.1 hother with rfl | hother
      · exact helse.run hrun
      · exact helses other hother
    · rcases hanswers' k a hk with hk | ha
      · exact hanswers k a hk
      · exact .inr ha

/-! ## Requests go on -/

/-- A request with the lock is answered when it looks again. -/
theorem lookAgain_eq_some (h : s.Settled path b) (hk : s.requests[k]? = some ⟨path, .holding⟩) :
    s.step options (.lookAgain k) = some (s.leave k path (.ok (some (.text b.code)))) :=
  lookAgain_of_answer hk h.answer?_lookup

theorem getElem?_leave {stage : RequestStage ε} (hk : s.requests[k]? = some ⟨path, stage⟩)
    (a : PluginAnswer ε) (j : Nat) : (s.leave k path a).requests[j]? =
      if k = j then some ⟨path, .answered a⟩ else s.requests[j]? :=
  getElem?_modify_stage hk _ j

/-- A request that waits takes the lock if it is free, and is answered then. -/
theorem exists_answer_of_free (options : PluginOptions) (h : s.Settled path b)
    (hk : s.requests[k]? = some ⟨path, .waiting⟩) (hfree : path ∉ s.locked) :
    ∃ t, s.run options [.lock k, .lookAgain k] = some t ∧
      t.requests[k]? = some ⟨path, .answered (.ok (some (.text b.code)))⟩ := by
  let u : Session ε := { s.setStage k .holding with locked := path :: s.locked }
  have hlock : s.step options (.lock k) = some u := lock_of_free hk hfree
  have hku : u.requests[k]? = some ⟨path, .holding⟩ := getElem?_modify_self hk _
  have hu : u.Settled path b :=
    { locks := locks_step h.locks hlock
      flights := flights_step h.locks h.flights hlock
      bundle := h.bundle
      unhidden := h.unhidden }
  refine ⟨u.leave k path (.ok (some (.text b.code))), ?_, getElem?_modify_self hku _⟩
  rw [run_cons, hlock]
  exact run_singleton (hu.lookAgain_eq_some hku)

/-- A request for the path is answered, or is answered with the bundle after some looks: whoever has
the lock looks and leaves, and then the request has its turn. -/
theorem exists_answer (h : s.Settled path b) {stage : RequestStage ε}
    (hk : s.requests[k]? = some ⟨path, stage⟩) : (∃ a, stage = .answered a) ∨
      ∃ more t, (∀ ev ∈ more, SessionEvent.isLook ev) ∧ s.run options more = some t ∧
        t.requests[k]? = some ⟨path, .answered (.ok (some (.text b.code)))⟩ := by
  cases stage with
  | answered a => exact .inl ⟨a, rfl⟩
  | decided => cases h.isBuild_eq_false hk
  | building request => cases h.isBuild_eq_false hk
  | arrived =>
    exact .inr ⟨[.look k], s.setStage k (.answered (.ok (some (.text b.code)))),
      by simp [SessionEvent.isLook], run_singleton (look_of_answer hk h.answer?_lookup),
      getElem?_modify_self hk _⟩
  | holding =>
    exact .inr ⟨[.lookAgain k], s.leave k path (.ok (some (.text b.code))),
      by simp [SessionEvent.isLook], run_singleton (h.lookAgain_eq_some hk),
      getElem?_modify_self hk _⟩
  | waiting =>
    by_cases hfree : path ∈ s.locked
    · obtain ⟨j, r, hj, hrp, hlock⟩ := h.locks.exists_holder path hfree
      obtain ⟨q, held⟩ := r
      cases hrp
      -- whoever has the lock does not build
      have hheld : held = .holding := by
        have hbuild := h.isBuild_eq_false hj
        cases held with
        | holding => rfl
        | decided | building => cases hbuild
        | arrived | waiting | answered => cases hlock
      subst hheld
      have hleft : s.step options (.lookAgain j) = some (s.leave j q (.ok (some (.text b.code)))) :=
        h.lookAgain_eq_some hj
      have hu : (s.leave j q (.ok (some (.text b.code)))).Settled q b :=
        { locks := locks_step h.locks hleft
          flights := flights_step h.locks h.flights hleft
          bundle := h.bundle
          unhidden := h.unhidden }
      have hku : (s.leave j q (.ok (some (.text b.code)))).requests[k]? = some ⟨q, .waiting⟩ := by
        rw [getElem?_leave hj, if_neg]
        · exact hk
        · rintro rfl
          rw [hk] at hj
          cases hj
      have hfree' : q ∉ (s.leave j q (.ok (some (.text b.code)))).locked := by
        intro hmem
        exact (h.locks.nodup.mem_erase_iff.1 hmem).1 rfl
      obtain ⟨t, ht, hanswer⟩ := hu.exists_answer_of_free options hku hfree'
      refine .inr ⟨[.lookAgain j, .lock k, .lookAgain k], t, by simp [SessionEvent.isLook], ?_,
        hanswer⟩
      rw [run_cons, hleft]
      exact ht
    · obtain ⟨t, ht, hanswer⟩ := h.exists_answer_of_free options hk hfree
      exact .inr ⟨[.lock k, .lookAgain k], t, by simp [SessionEvent.isLook], ht, hanswer⟩

end Settled

/-- Builds in any state of a plugin in use. -/
theorem singleFlight (h : run options {} evs = some s) : SingleFlight options s evs := by
  have hlocks := locks_run h
  have hflights := flights_run h
  refine
    { unique := fun j k path request request' hj hk => hlocks.unique j k _ _ hj hk rfl rfl rfl
      changes_iff := hflights.changes_iff
      unbuilt := fun k s' hstep => ?_
      answers := fun ev s' path b hstep hnot hb => stores_bundle hflights hstep hnot hb
      shares := fun path b evs' s' hb hrun hkeeps hn => ?_ }
  · obtain ⟨path, hk, hcases⟩ := step_beginBuild hstep
    obtain ⟨e, he, hunbuilt⟩ := hflights.unbuilt k _ hk rfl
    obtain ⟨before, middle, t, hevs, ht, hnone, hrun⟩ := exists_lookAgain h hk
    rcases hcases with ⟨request, plugin, hbegin, rfl⟩ | ⟨hbegin, -⟩
    · obtain ⟨hrequest, -⟩ := PluginState.exists_of_beginBuild hbegin
      refine ⟨path, request, e, before, middle, t, ?_, hrequest, he, hunbuilt, hevs, ht, hnone, ?_⟩
      · change (s.requests.modify k _)[k]? = _
        rw [getElem?_modify_stage hk, if_pos rfl]
      · intro hn
        rw [get?_virtualFiles_run hrun hn, hnone]
    · unfold PluginState.beginBuild at hbegin
      rw [he] at hbegin
      cases hbegin
  · have hsettled : s.Settled path b :=
      ⟨hlocks, hflights, hb, get?_virtualFiles_run h hn.left⟩
    obtain ⟨hs', helse, hanswers⟩ := hsettled.run hrun hkeeps (hn.of_append h)
    exact ⟨helse, hanswers, fun k stage hk => hs'.exists_answer hk⟩

/-- The shared file changes, and of two requests for one of its workers one builds and the other
waits. -/
theorem singleFlight_sharedFile : ∃ s : Session Unit,
    run {} {} (.start ⟨"/app"⟩ :: sharedFileEvents ++ [.emit ⟨"/app/shared.js"⟩, .arrive "/v.js",
      .arrive "/v.js", .look 2, .look 3, .lock 2, .lookAgain 2, .beginBuild 2]) = some s ∧
    s.requests.map (·.stage.holdsLock) = [false, false, true, false] ∧
    s.SingleFlight {} (.start ⟨"/app"⟩ :: sharedFileEvents ++ [.emit ⟨"/app/shared.js"⟩,
      .arrive "/v.js", .arrive "/v.js", .look 2, .look 3, .lock 2, .lookAgain 2,
      .beginBuild 2]) := by
  have hrun : (run {} {} (.start ⟨"/app"⟩ :: sharedFileEvents ++
      [.emit ⟨"/app/shared.js"⟩, .arrive "/v.js", .arrive "/v.js", .look 2, .look 3, .lock 2,
        .lookAgain 2, .beginBuild 2])).map
      (fun s : Session Unit => s.requests.map (·.stage.holdsLock)) =
      some [false, false, true, false] := by
    decide +kernel
  obtain ⟨s, hs, hstages⟩ := Option.map_eq_some_iff.1 hrun
  exact ⟨s, hs, hstages, singleFlight hs⟩

end Session

end ModuleWorkers
