import ModuleWorkers.Proofs.Plugin.Session

/-!
# Locks of paths

The lock of a path is taken just while one request for the path has it (`Locks`), so that of the
requests for a path only one is past its second look. A request with a lock can always go on, and
gives the lock back with its answer.
-/

namespace ModuleWorkers

variable {ε : Type}

/-- The locks that are taken, and the requests that have them. -/
structure Locks (requests : List (PendingRequest ε)) (locked : List String) : Prop where
  mem_locked : ∀ (k : Nat) r, requests[k]? = some r → r.stage.holdsLock → r.path ∈ locked
  exists_holder : ∀ path ∈ locked, ∃ (k : Nat) (r : PendingRequest ε),
    requests[k]? = some r ∧ r.path = path ∧ r.stage.holdsLock
  unique : ∀ (j k : Nat) r r', requests[j]? = some r → requests[k]? = some r' →
    r.stage.holdsLock → r'.stage.holdsLock → r.path = r'.path → j = k
  nodup : locked.Nodup

namespace Locks

open Session

variable {requests : List (PendingRequest ε)} {locked : List String} {k : Nat} {path : String}
  {old stage : RequestStage ε}

theorem empty : Locks ([] : List (PendingRequest ε)) [] :=
  ⟨by simp, by simp, by simp, List.Pairwise.nil⟩

theorem arrive (h : Locks requests locked) (path : String) :
    Locks (requests ++ [⟨path, .arrived⟩]) locked where
  mem_locked k r hr hl := by
    rcases getElem?_append_arrived hr with hr | rfl
    · exact h.mem_locked k r hr hl
    · cases hl
  exists_holder path hp := by
    obtain ⟨k, r, hr, hrp, hl⟩ := h.exists_holder path hp
    have hk : k < requests.length := (List.getElem?_eq_some_iff.1 hr).1
    exact ⟨k, r, by rwa [List.getElem?_append_left hk], hrp, hl⟩
  unique j k r r' hr hr' hl hl' hp := by
    rcases getElem?_append_arrived hr with hr | rfl
    · rcases getElem?_append_arrived hr' with hr' | rfl
      · exact h.unique j k r r' hr hr' hl hl' hp
      · cases hl'
    · cases hl
  nodup := h.nodup

/-- A request goes on and has its lock as before. -/
theorem move (h : Locks requests locked) (hk : requests[k]? = some ⟨path, old⟩)
    (hold : stage.holdsLock = old.holdsLock) :
    Locks (requests.modify k fun r => { r with stage }) locked := by
  -- each request has a lock if it had one before
  have hback : ∀ (j : Nat) (r : PendingRequest ε),
      (requests.modify k fun r => { r with stage })[j]? = some r →
      ∃ d : PendingRequest ε, requests[j]? = some d ∧ d.path = r.path ∧
        d.stage.holdsLock = r.stage.holdsLock := by
    intro j r hr
    rw [getElem?_modify_stage hk] at hr
    split at hr
    · rename_i hj
      cases hr
      exact ⟨⟨path, old⟩, hj ▸ hk, rfl, hold.symm⟩
    · exact ⟨r, hr, rfl, rfl⟩
  refine ⟨fun j r hr hl => ?_, fun q hq => ?_, fun i j r r' hr hr' hl hl' hp => ?_, h.nodup⟩
  · obtain ⟨d, hd, hdp, hdl⟩ := hback j r hr
    rw [← hdp]
    exact h.mem_locked j d hd (hdl.trans hl)
  · obtain ⟨j, r, hr, hrp, hl⟩ := h.exists_holder q hq
    by_cases hj : k = j
    · subst hj
      rw [hk] at hr
      cases hr
      exact ⟨k, ⟨path, stage⟩, getElem?_modify_self hk _, hrp, hold.trans hl⟩
    · exact ⟨j, r, by rwa [getElem?_modify_stage hk, if_neg hj], hrp, hl⟩
  · obtain ⟨d, hd, hdp, hdl⟩ := hback i r hr
    obtain ⟨d', hd', hdp', hdl'⟩ := hback j r' hr'
    exact h.unique i j d d' hd hd' (hdl.trans hl) (hdl'.trans hl') (by rw [hdp, hp, hdp'])

/-- A request takes a lock that nobody has. -/
theorem take (h : Locks requests locked) (hk : requests[k]? = some ⟨path, old⟩)
    (hfree : path ∉ locked) (hstage : stage.holdsLock) :
    Locks (requests.modify k fun r => { r with stage }) (path :: locked) where
  mem_locked j r hr hl := by
    rw [getElem?_modify_stage hk] at hr
    split at hr
    · cases hr
      exact List.mem_cons_self
    · exact List.mem_cons_of_mem _ (h.mem_locked j r hr hl)
  exists_holder q hq := by
    rcases List.mem_cons.1 hq with rfl | hq
    · exact ⟨k, ⟨q, stage⟩, getElem?_modify_self hk _, rfl, hstage⟩
    · obtain ⟨j, r, hr, hrp, hl⟩ := h.exists_holder q hq
      have hj : k ≠ j := by
        rintro rfl
        rw [hk] at hr
        cases hr
        subst hrp
        exact hfree hq
      exact ⟨j, r, by rwa [getElem?_modify_stage hk, if_neg hj], hrp, hl⟩
  unique i j r r' hr hr' hl hl' hp := by
    rw [getElem?_modify_stage hk] at hr hr'
    split at hr <;> split at hr'
    · rename_i hi hj
      exact hi.symm.trans hj
    · cases hr
      have hlocked : path ∈ locked := by
        rw [show path = r'.path from hp]
        exact h.mem_locked j r' hr' hl'
      exact absurd hlocked hfree
    · cases hr'
      have hlocked : path ∈ locked := by
        rw [← show r.path = path from hp]
        exact h.mem_locked i r hr hl
      exact absurd hlocked hfree
    · exact h.unique i j r r' hr hr' hl hl' hp
  nodup := List.nodup_cons.2 ⟨hfree, h.nodup⟩

/-- A request gives its lock back. -/
theorem leave (h : Locks requests locked) (hk : requests[k]? = some ⟨path, old⟩)
    (hold : old.holdsLock) (hstage : stage.holdsLock = false) :
    Locks (requests.modify k fun r => { r with stage }) (locked.erase path) where
  mem_locked j r hr hl := by
    rw [getElem?_modify_stage hk] at hr
    split at hr
    · cases hr
      rw [hstage] at hl
      cases hl
    · rename_i hj
      refine (h.nodup.mem_erase_iff).2 ⟨fun hp => hj ?_, h.mem_locked j r hr hl⟩
      exact h.unique k j ⟨path, old⟩ r hk hr hold hl hp.symm
  exists_holder q hq := by
    obtain ⟨hne, hq⟩ := (h.nodup.mem_erase_iff).1 hq
    obtain ⟨j, r, hr, hrp, hl⟩ := h.exists_holder q hq
    have hj : k ≠ j := by
      rintro rfl
      rw [hk] at hr
      cases hr
      exact hne hrp.symm
    exact ⟨j, r, by rwa [getElem?_modify_stage hk, if_neg hj], hrp, hl⟩
  unique i j r r' hr hr' hl hl' hp := by
    rw [getElem?_modify_stage hk] at hr hr'
    split at hr
    · cases hr
      rw [hstage] at hl
      cases hl
    · split at hr'
      · cases hr'
        rw [hstage] at hl'
        cases hl'
      · exact h.unique i j r r' hr hr' hl hl' hp
  nodup := h.nodup.erase path

end Locks

namespace Session

variable {options : PluginOptions} {s s' : Session ε}

theorem locks_step {ev : SessionEvent ε} (hs : Locks s.requests s.locked)
    (h : s.step options ev = some s') : Locks s'.requests s'.locked := by
  have hp := progress_step h
  generalize s'.requests = requests, s'.locked = locked at hp ⊢
  cases hp with
  | same => exact hs
  | arrive => exact hs.arrive _
  | move hk _ hlock => exact hs.move hk hlock
  | take hk _ hfree hstage => exact hs.take hk hfree hstage
  | leave hk _ hold hstage => exact hs.leave hk hold hstage

theorem locks_run {evs : List (SessionEvent ε)} (h : run options {} evs = some s) :
    Locks s.requests s.locked :=
  run_induction (P := fun s => Locks s.requests s.locked) h .empty
    fun _ _ _ ht hstep => locks_step ht hstep

end Session

end ModuleWorkers
