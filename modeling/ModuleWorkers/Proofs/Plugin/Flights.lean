import ModuleWorkers.Proofs.Plugin.Locks

/-!
# Builds in flight

The registry and the requests agree on which builds are running (`Flights`): changes are noted for
an entry just while a request builds it, and no request builds a worker that has a bundle. Since a
request that builds has the lock of its path (`Locks`), the end of a build concerns no other
request.
-/

namespace ModuleWorkers

variable {ε : Type}

structure Flights (registry : WorkerRegistry) (requests : List (PendingRequest ε)) : Prop where
  /-- Whoever found that a worker has to be built is right until it is built. -/
  unbuilt : ∀ (k : Nat) r, requests[k]? = some r → r.stage.isBuild →
    ∃ e, registry.get? r.path = some e ∧ e.bundle = none
  changes_iff : ∀ path e, registry.get? path = some e →
    (e.changes.isSome ↔ ∃ (k : Nat) (request : BundleRequest),
      requests[k]? = some ⟨path, .building request⟩)

namespace Flights

open Session

variable {registry registry' : WorkerRegistry} {requests : List (PendingRequest ε)} {k : Nat}
  {path : String} {old stage : RequestStage ε}

theorem empty : Flights {} ([] : List (PendingRequest ε)) :=
  ⟨by simp, fun path e he => by cases he⟩

theorem later (h : Flights registry requests) (hl : registry.Later registry') :
    Flights registry' requests where
  unbuilt k r hr hb := by
    obtain ⟨e, he, hbundle⟩ := h.unbuilt k r hr hb
    obtain ⟨e', he', hle⟩ := hl.get? r.path e he
    exact ⟨e', he', hle.bundle_none hbundle⟩
  changes_iff path e' he' := by
    rcases hl.get?_of_get? he' with ⟨e, he, hle⟩ | ⟨hnone, hnew⟩
    · rw [hle.changes_isSome]
      exact h.changes_iff path e he
    · -- nobody builds a worker that was not registered
      rw [hnew.changes]
      refine ⟨nofun, ?_⟩
      rintro ⟨k, request, hk⟩
      obtain ⟨e, he, -⟩ := h.unbuilt k _ hk rfl
      rw [hnone] at he
      cases he

theorem arrive (h : Flights registry requests) (path : String) :
    Flights registry (requests ++ [⟨path, .arrived⟩]) where
  unbuilt k r hr hb := by
    rcases getElem?_append_arrived hr with hr | rfl
    · exact h.unbuilt k r hr hb
    · cases hb
  changes_iff q e he := by
    rw [h.changes_iff q e he]
    constructor
    · rintro ⟨k, request, hk⟩
      have hlt : k < requests.length := (List.getElem?_eq_some_iff.1 hk).1
      exact ⟨k, request, by rwa [List.getElem?_append_left hlt]⟩
    · rintro ⟨k, request, hk⟩
      rcases getElem?_append_arrived hk with hk | hk
      · exact ⟨k, request, hk⟩
      · cases hk

/-- A request goes on without a build that begins or ends. -/
theorem move (h : Flights registry requests) (hk : requests[k]? = some ⟨path, old⟩)
    (hold : ∀ request, old ≠ .building request) (hstage : ∀ request, stage ≠ .building request)
    (hunbuilt : stage.isBuild → ∃ e, registry.get? path = some e ∧ e.bundle = none) :
    Flights registry (requests.modify k fun r => { r with stage }) where
  unbuilt j r hr hb := by
    rw [getElem?_modify_stage hk] at hr
    split at hr
    · cases hr
      exact hunbuilt hb
    · exact h.unbuilt j r hr hb
  changes_iff q e he := by
    rw [h.changes_iff q e he]
    constructor
    · rintro ⟨j, request, hj⟩
      refine ⟨j, request, ?_⟩
      rw [getElem?_modify_stage hk, if_neg]
      · exact hj
      · rintro rfl
        rw [hk] at hj
        cases hj
        exact hold request rfl
    · rintro ⟨j, request, hj⟩
      rw [getElem?_modify_stage hk] at hj
      split at hj
      · cases hj
        exact absurd rfl (hstage request)
      · exact ⟨j, request, hj⟩

theorem beginBuild (h : Flights registry requests) (hk : requests[k]? = some ⟨path, .decided⟩)
    (request : BundleRequest) :
    Flights (registry.modify path WorkerEntry.beginBuild)
      (requests.modify k fun r => { r with stage := .building request }) where
  unbuilt j r hr hb := by
    have hunbuilt : ∃ e, registry.get? r.path = some e ∧ e.bundle = none := by
      rw [getElem?_modify_stage hk] at hr
      split at hr
      · cases hr
        exact h.unbuilt k ⟨path, .decided⟩ hk rfl
      · exact h.unbuilt j r hr hb
    obtain ⟨e, he, hbundle⟩ := hunbuilt
    rw [PluginState.get?_beginBuild, he]
    split
    · exact ⟨e.beginBuild, rfl, hbundle⟩
    · exact ⟨e, rfl, hbundle⟩
  changes_iff q e' he' := by
    rw [PluginState.get?_beginBuild] at he'
    split at he'
    · rename_i hq
      subst hq
      obtain ⟨e, -, rfl⟩ := Option.map_eq_some_iff.1 he'
      exact ⟨fun _ => ⟨k, request, getElem?_modify_self hk _⟩, fun _ => rfl⟩
    · rename_i hq
      rw [h.changes_iff q e' he']
      refine exists_congr fun j => exists_congr fun other => ?_
      rw [getElem?_modify_stage hk]
      split
      · rename_i hj
        subst hj
        rw [hk]
        simp [hq]
      · rfl

/-- A build ends, after which the entry is another one without changes. -/
theorem finishBuild {locked : List String} (h : Flights registry requests)
    (hlocks : Locks requests locked) {request : BundleRequest}
    (hk : requests[k]? = some ⟨path, .building request⟩) (hstage : stage.holdsLock = false)
    (hself : ∀ e, registry'.get? path = some e → e.changes = none)
    (hothers : ∀ q, path ≠ q → registry'.get? q = registry.get? q) :
    Flights registry' (requests.modify k fun r => { r with stage }) where
  unbuilt j r hr hb := by
    rw [getElem?_modify_stage hk] at hr
    split at hr
    · cases hr
      cases stage <;> cases hb <;> cases hstage
    · rename_i hj
      have hne : path ≠ r.path := fun hp =>
        hj (hlocks.unique k j _ r hk hr rfl (RequestStage.holdsLock_of_isBuild hb) hp)
      rw [hothers r.path hne]
      exact h.unbuilt j r hr hb
  changes_iff q e he := by
    by_cases hq : path = q
    · subst hq
      rw [hself e he]
      refine ⟨nofun, ?_⟩
      rintro ⟨j, other, hj⟩
      rw [getElem?_modify_stage hk] at hj
      split at hj
      · cases hj
        cases hstage
      · rename_i hkj
        exact absurd (hlocks.unique k j _ _ hk hj rfl rfl rfl) hkj
    · rw [hothers q hq] at he
      rw [h.changes_iff q e he]
      refine exists_congr fun j => exists_congr fun other => ?_
      rw [getElem?_modify_stage hk]
      split
      · rename_i hj
        subst hj
        rw [hk]
        simp [hq]
      · rfl

end Flights

/-- There is no answer at once just for a worker without a bundle. -/
theorem PluginState.answer?_lookup_eq_none {s : PluginState} {path : String}
    (h : (s.lookup path).answer? = (none : Option (PluginAnswer ε))) :
    s.virtualFiles.get? path = none ∧ ∃ e, s.registry.get? path = some e ∧ e.bundle = none := by
  unfold lookup at h
  split at h
  · cases h
  · rename_i hv
    split at h
    · cases h
    · rename_i e he
      split at h
      · cases h
      · rename_i hb
        exact ⟨hv, e, he, hb⟩

namespace Session

variable {options : PluginOptions} {s s' : Session ε}

theorem flights_step {ev : SessionEvent ε} (hlocks : Locks s.requests s.locked)
    (hs : Flights s.plugin.registry s.requests) (h : s.step options ev = some s') :
    Flights s'.plugin.registry s'.requests := by
  cases hbuild : ev.build? with
  | none =>
    -- the requests go on while the registry is as before, and only then does it change
    suffices hrequests : Flights s.plugin.registry s'.requests from
      hrequests.later (later_step h hbuild)
    have hmove : ∀ {k path old stage}, s.requests[k]? = some ⟨path, old⟩ →
        Move options s.plugin path k ev old stage →
        Flights s.plugin.registry (s.requests.modify k fun r => { r with stage }) := by
      intro k path old stage hk hm
      cases hm with
      | lookAgain_decide hn =>
        exact hs.move hk nofun nofun fun _ => (PluginState.answer?_lookup_eq_none hn).2
      | beginBuild | beginBuild_unknown | finishBuild => cases hbuild
      | look_answer | look_wait | lock | lookAgain_answer => exact hs.move hk nofun nofun nofun
    have hp := progress_step h
    generalize s'.requests = requests, s'.locked = locked at hp ⊢
    cases hp with
    | same => exact hs
    | arrive => exact hs.arrive _
    | move hk hm _ => exact hmove hk hm
    | take hk hm _ _ => exact hmove hk hm
    | leave hk hm _ _ => exact hmove hk hm
  | some k =>
    cases ev with
    | beginBuild k =>
      obtain ⟨path, hk, ⟨request, plugin, hb, rfl⟩ | ⟨-, rfl⟩⟩ := step_beginBuild h
      · obtain ⟨-, e, -, rfl⟩ := PluginState.exists_of_beginBuild hb
        exact hs.beginBuild hk request
      · exact hs.move hk nofun nofun nofun
    | finishBuild k outcome =>
      obtain ⟨path, request, hk, rfl⟩ := step_finishBuild h
      obtain ⟨e, he, -⟩ := hs.unbuilt k _ hk rfl
      refine hs.finishBuild hlocks hk rfl (fun e' he' => ?_) fun q hq => ?_
      · rw [PluginState.get?_finishBuild_self options he] at he'
        cases he'
        cases outcome <;> rfl
      · exact PluginState.get?_finishBuild_of_ne options s.plugin hq outcome
    | _ => cases hbuild

theorem flights_run {evs : List (SessionEvent ε)} (h : run options {} evs = some s) :
    Flights s.plugin.registry s.requests := by
  have hboth : Locks s.requests s.locked ∧ Flights s.plugin.registry s.requests :=
    run_induction (P := fun s => Locks s.requests s.locked ∧ Flights s.plugin.registry s.requests)
      h ⟨.empty, .empty⟩ fun _ _ _ ht hstep =>
        ⟨locks_step ht.1 hstep, flights_step ht.1 ht.2 hstep⟩
  exact hboth.2

end Session

end ModuleWorkers
