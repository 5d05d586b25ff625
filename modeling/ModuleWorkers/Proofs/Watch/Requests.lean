import ModuleWorkers.Proofs.Watch.Counts

/-!
# Requests to watch files

A user of a watcher asks for files to be watched for a listener, and later withdraws the request.
Nothing keeps it from withdrawing one twice. The listener is removed once and for all, but the files
are counted down each time, whoever they are counted for: withdrawing again changes nothing exactly
if none of the files has a count (`WatchLog.Sound.unwatch_eq_self_iff`). So the requests that were not
withdrawn keep their files as long as nothing is withdrawn again that shares a file with one of them,
and not longer (`WatchLog.always_keeps_iff`); they keep their listeners in any case
(`WatchLog.Sound.call`).
-/

namespace ModuleWorkers

/-! ## Counting down what has no count -/

namespace WatchCounts

variable {counts : WatchCounts}

theorem decrement_of_count_eq_zero (h : WF counts) {f : Path} (hf : counts.count f = 0) :
    counts.decrement f = counts := by
  have hother := h.forall_of_count_eq_zero hf
  have hmap : (counts.map fun c => (c.1, if c.1 == f then c.2 - 1 else c.2)) = counts := by
    refine (List.map_congr_left fun c hc => ?_).trans (List.map_id counts)
    rw [hother c hc]
    rfl
  rw [decrement_eq, hmap, List.filter_eq_self]
  exact fun c hc => bne_iff_ne.2 (h.ne_zero c hc)

/-- Counting files down changes nothing exactly if none of them has a count. -/
theorem decrementAll_eq_self_iff (h : WF counts) {files : PathSet} (hf : PathSet.IsSorted files) :
    files.foldl decrement counts = counts ↔ ∀ p ∈ files, counts.count p = 0 := by
  constructor
  · intro hsame p hp
    have hcount := count_decrementAll h hf p
    rw [hsame, if_pos (List.contains_iff_exists_mem_beq.2 ⟨p, hp, BEq.rfl⟩)] at hcount
    omega
  · intro hzero
    clear hf
    induction files with
    | nil => rfl
    | cons f files ih =>
      rw [List.foldl_cons, decrement_of_count_eq_zero h (hzero f List.mem_cons_self)]
      exact ih fun p hp => hzero p (List.mem_cons_of_mem f hp)

end WatchCounts

/-! ## Watchers whose counts may be too low -/

namespace SharedWatcher

variable {α : Type} {w : SharedWatcher α} {files : PathSet}

/-- The host watches the files that have a count. -/
structure Covers (w : SharedWatcher α) : Prop where
  counts : w.counts.WF
  watched : ∀ p, w.counts.count p ≠ 0 → w.host.isWatched p

theorem Covers.watch (h : w.Covers) (hf : PathSet.IsSorted files) (a : α) :
    (w.watch files a).2.Covers := by
  refine ⟨h.counts.incrementAll files, fun p hp => ?_⟩
  have hcount : (w.watch files a).2.counts.count p =
      w.counts.count p + if files.contains p then 1 else 0 :=
    WatchCounts.count_incrementAll h.counts hf p
  rw [hcount] at hp
  rw [isWatched_watch]
  by_cases hzero : w.counts.count p = 0
  · cases hcontains : files.contains p with
    | false => simp [hzero, hcontains] at hp
    | true => simp [hzero]
  · simp [h.watched p hzero]

theorem Covers.unwatch (h : w.Covers) (hf : PathSet.IsSorted files) (id : ListenerId) :
    (w.unwatch id files).Covers := by
  refine ⟨h.counts.decrementAll files, fun p hp => ?_⟩
  have hcount : (w.unwatch id files).counts.count p =
      w.counts.count p - if files.contains p then 1 else 0 :=
    WatchCounts.count_decrementAll h.counts hf p
  rw [hcount] at hp
  rw [isWatched_unwatch, h.watched p (by omega), Bool.true_and, Bool.not_eq_true',
    Bool.and_eq_false_iff, beq_eq_false_iff_ne]
  cases hcontains : files.contains p with
  | false => exact .inl rfl
  | true =>
    rw [hcontains, if_pos rfl] at hp
    exact .inr (by omega)

end SharedWatcher

/-! ## Requests -/

/-- A call of a user of a watcher. A request is withdrawn by its number, with the listener and the
files that it was made with. -/
inductive WatchCall (α : Type)
  | watch (files : List Path) (listener : α)
  | unwatch (number : Nat)

/-- What was asked for in a call. -/
structure WatchRequest (α : Type) where
  id : ListenerId
  listener : α
  files : PathSet
  isWithdrawn : Bool := false

namespace WatchRequest

variable {α : Type}

def withdrawn (r : WatchRequest α) : WatchRequest α := { r with isWithdrawn := true }

/-- Whether a request that was not withdrawn needs a file. -/
def needs (p : Path) (r : WatchRequest α) : Bool := !r.isWithdrawn && r.files.contains p

end WatchRequest

/-- A watcher and the requests that were made, in their order. -/
structure WatchLog (α : Type) where
  watcher : SharedWatcher α
  requests : List (WatchRequest α) := []

namespace WatchLog

variable {α : Type} {s : WatchLog α} {c : WatchCall α} {r : WatchRequest α} {k : Nat}

/-- A watcher of a host that was not asked for anything. -/
def start (host : WatchHost α) : WatchLog α := ⟨⟨host, []⟩, []⟩

/-- Makes a call. A request that was not made is not withdrawn. -/
def call (s : WatchLog α) : WatchCall α → WatchLog α
  | .watch files listener =>
    let files := PathSet.ofList files
    let (id, watcher) := s.watcher.watch files listener
    ⟨watcher, s.requests ++ [⟨id, listener, files, false⟩]⟩
  | .unwatch k =>
    match s.requests[k]? with
    | none => s
    | some r => ⟨s.watcher.unwatch r.id r.files, s.requests.set k r.withdrawn⟩

/-- Whether calls have a property, each in the state that those before it leave. -/
def Always (P : WatchLog α → WatchCall α → Prop) (s : WatchLog α) : List (WatchCall α) → Prop
  | [] => True
  | c :: cs => P s c ∧ Always P (s.call c) cs

/-- What requests were made for is there as long as they are not withdrawn. -/
structure KeepsRequests (s : WatchLog α) : Prop where
  watched : ∀ r ∈ s.requests, r.isWithdrawn = false → ∀ p ∈ r.files, s.watcher.host.isWatched p
  listens : ∀ r ∈ s.requests, r.isWithdrawn = false →
    (r.id, r.listener) ∈ s.watcher.host.listeners

/-- A call withdraws a request that is withdrawn already. -/
def Repeats (s : WatchLog α) (c : WatchCall α) (r : WatchRequest α) : Prop :=
  ∃ k, c = .unwatch k ∧ s.requests[k]? = some r ∧ r.isWithdrawn = true

/-- A call keeps all requests, and changes nothing if it only withdraws one again. -/
def Keeps (s : WatchLog α) (c : WatchCall α) : Prop :=
  (s.call c).KeepsRequests ∧ ∀ r, s.Repeats c r → (s.call c).watcher = s.watcher

/-- A call does not withdraw a request again while another one needs a file of it. -/
def IsCareful (s : WatchLog α) (c : WatchCall α) : Prop :=
  ∀ r, s.Repeats c r → ∀ p ∈ r.files, ∀ other ∈ s.requests, other.needs p = false

theorem call_unwatch (hr : s.requests[k]? = some r) : s.call (.unwatch k) =
    ⟨s.watcher.unwatch r.id r.files, s.requests.set k r.withdrawn⟩ := by
  rw [call, hr]

theorem call_unwatch_none (hr : s.requests[k]? = none) : s.call (.unwatch k) = s := by
  rw [call, hr]

/-- Withdrawing a request leaves the others. -/
theorem cases_of_mem_set {x : WatchRequest α} (hx : x ∈ s.requests.set k r.withdrawn) :
    x = r.withdrawn ∨ ∃ j, j ≠ k ∧ s.requests[j]? = some x := by
  obtain ⟨j, hj⟩ := List.mem_iff_getElem?.1 hx
  rw [List.getElem?_set] at hj
  split at hj
  · split at hj
    · exact .inl (Option.some.inj hj).symm
    · cases hj
  · rename_i hne
    exact .inr ⟨j, Ne.symm hne, hj⟩

/-- Requests have the same numbers as before one of them was withdrawn. -/
theorem exists_id_eq_of_set (hr : s.requests[k]? = some r) {i : Nat} {x : WatchRequest α}
    (hx : (s.requests.set k r.withdrawn)[i]? = some x) :
    ∃ y, s.requests[i]? = some y ∧ y.id = x.id := by
  rw [List.getElem?_set] at hx
  split at hx
  · rename_i hi
    split at hx
    · cases hx
      exact ⟨r, hi ▸ hr, rfl⟩
    · cases hx
  · exact ⟨x, hx, rfl⟩

/-- A request is one that was made before, or the last one. -/
theorem cases_of_getElem?_concat {i : Nat} {x : WatchRequest α}
    (hx : (s.requests ++ [r])[i]? = some x) :
    s.requests[i]? = some x ∨ i = s.requests.length ∧ x = r := by
  rw [List.getElem?_append] at hx
  split at hx
  · exact .inl hx
  · rw [List.getElem?_singleton] at hx
    split at hx
    · cases hx
      exact .inr ⟨by omega, rfl⟩
    · cases hx

/-! ## What holds after any calls -/

/-- What does not depend on how often requests are withdrawn: what has a count is watched, and just
the requests that are not withdrawn have their listeners. -/
structure Sound (s : WatchLog α) : Prop where
  covers : s.watcher.Covers
  sorted : ∀ r ∈ s.requests, PathSet.IsSorted r.files
  lt_next : ∀ r ∈ s.requests, r.id < s.watcher.host.next
  distinct : ∀ (j k : Nat) (r r' : WatchRequest α), s.requests[j]? = some r →
    s.requests[k]? = some r' → r.id = r'.id → j = k
  listens : ∀ r ∈ s.requests, r.isWithdrawn = false →
    (r.id, r.listener) ∈ s.watcher.host.listeners
  silent : ∀ r ∈ s.requests, r.isWithdrawn = true → ∀ l ∈ s.watcher.host.listeners, l.1 ≠ r.id

namespace Sound

theorem start (host : WatchHost α) : (start host).Sound :=
  ⟨⟨.nil, nofun⟩, nofun, nofun, nofun, nofun, nofun⟩

theorem watch (h : s.Sound) (files : List Path) (listener : α) :
    (s.call (.watch files listener)).Sound := by
  let new : WatchRequest α := ⟨s.watcher.host.next, listener, PathSet.ofList files, false⟩
  have hsorted := PathSet.isSorted_ofList files
  have hlisteners : (s.call (.watch files listener)).watcher.host.listeners =
      s.watcher.host.listeners ++ [(new.id, listener)] := rfl
  have hmem : ∀ {x : WatchRequest α}, x ∈ s.requests ++ [new] → x ∈ s.requests ∨ x = new :=
    fun hx => by simpa using hx
  refine ⟨h.covers.watch hsorted listener, fun r hr => ?_, fun r hr => ?_,
    fun j k r r' hr hr' hid => ?_, fun r hr hstands => ?_, fun r hr hgone l hl => ?_⟩
  · rcases hmem hr with hr | rfl
    · exact h.sorted r hr
    · exact hsorted
  · rcases hmem hr with hr | rfl
    · exact Nat.lt_succ_of_lt (h.lt_next r hr)
    · exact Nat.lt_succ_self _
  · -- a new number is none of those that were given
    have hold : ∀ {i : Nat} {x : WatchRequest α}, s.requests[i]? = some x → x.id ≠ new.id :=
      fun hx => Nat.ne_of_lt (h.lt_next _ (List.mem_of_getElem? hx))
    rcases cases_of_getElem?_concat hr with hr | ⟨rfl, rfl⟩ <;>
      rcases cases_of_getElem?_concat hr' with hr' | ⟨rfl, rfl⟩
    · exact h.distinct j k r r' hr hr' hid
    · exact absurd hid (hold hr)
    · exact absurd hid.symm (hold hr')
    · rfl
  · rw [hlisteners]
    rcases hmem hr with hr | rfl
    · exact List.mem_append_left _ (h.listens r hr hstands)
    · exact List.mem_append_right _ (List.mem_singleton_self _)
  · rw [hlisteners] at hl
    rcases hmem hr with hr | rfl
    · rcases List.mem_append.1 hl with hl | hl
      · exact h.silent r hr hgone l hl
      · rw [List.mem_singleton.1 hl]
        exact Nat.ne_of_gt (h.lt_next r hr)
    · cases hgone

theorem unwatch (h : s.Sound) (k : Nat) : (s.call (.unwatch k)).Sound := by
  cases hr : s.requests[k]? with
  | none =>
    rw [call_unwatch_none hr]
    exact h
  | some r =>
    have hmem := List.mem_of_getElem? hr
    have hsorted := h.sorted r hmem
    have hlisteners : (s.watcher.unwatch r.id r.files).host.listeners =
        s.watcher.host.listeners.filter (·.1 != r.id) := rfl
    rw [call_unwatch hr]
    refine ⟨h.covers.unwatch hsorted r.id, fun x hx => ?_, fun x hx => ?_,
      fun i j x y hx hy hid => ?_, fun x hx hstands => ?_, fun x hx hgone l hl => ?_⟩
    · rcases cases_of_mem_set hx with rfl | ⟨j, -, hj⟩
      · exact hsorted
      · exact h.sorted x (List.mem_of_getElem? hj)
    · rcases cases_of_mem_set hx with rfl | ⟨j, -, hj⟩
      · exact h.lt_next r hmem
      · exact h.lt_next x (List.mem_of_getElem? hj)
    · obtain ⟨x', hx', hxid⟩ := exists_id_eq_of_set hr hx
      obtain ⟨y', hy', hyid⟩ := exists_id_eq_of_set hr hy
      exact h.distinct i j x' y' hx' hy' (hxid.trans (hid.trans hyid.symm))
    · rcases cases_of_mem_set hx with rfl | ⟨j, hjk, hj⟩
      · cases hstands
      · rw [hlisteners]
        refine List.mem_filter.2 ⟨h.listens x (List.mem_of_getElem? hj) hstands, ?_⟩
        exact bne_iff_ne.2 fun hid => hjk (h.distinct j k x r hj hr hid)
    · rw [hlisteners] at hl
      obtain ⟨hl, hne⟩ := List.mem_filter.1 hl
      rcases cases_of_mem_set hx with rfl | ⟨j, -, hj⟩
      · exact bne_iff_ne.1 hne
      · exact h.silent x (List.mem_of_getElem? hj) hgone l hl

theorem call (h : s.Sound) (c : WatchCall α) : (s.call c).Sound := by
  cases c with
  | watch files listener => exact h.watch files listener
  | unwatch k => exact h.unwatch k

/-- Withdrawing a request again changes nothing exactly if none of its files has a count. -/
theorem unwatch_eq_self_iff (h : s.Sound) (hr : r ∈ s.requests) (hgone : r.isWithdrawn = true) :
    s.watcher.unwatch r.id r.files = s.watcher ↔
      ∀ p ∈ r.files, s.watcher.counts.count p = 0 := by
  have hcounts := WatchCounts.decrementAll_eq_self_iff h.covers.counts (h.sorted r hr)
  constructor
  · exact fun hsame => hcounts.1 (congrArg SharedWatcher.counts hsame)
  · intro hzero
    have hunlisten : s.watcher.host.unlisten r.id = s.watcher.host := by
      have hother : s.watcher.host.listeners.filter (·.1 != r.id) = s.watcher.host.listeners :=
        List.filter_eq_self.2 fun l hl => bne_iff_ne.2 (h.silent r hr hgone l hl)
      exact congrArg (fun ls => { s.watcher.host with listeners := ls }) hother
    have hnone : r.files.filter (s.watcher.counts.count · == 1) = [] :=
      List.filter_eq_nil_iff.2 fun p hp => by simp [hzero p hp]
    have hhost : s.watcher.host.unwatch [] = s.watcher.host := by
      have hall : s.watcher.host.watched.filter (fun p => !List.contains ([] : PathSet) p) =
          s.watcher.host.watched := List.filter_eq_self.2 fun _ _ => rfl
      exact congrArg (fun ps => { s.watcher.host with watched := ps }) hall
    have hunwatch : s.watcher.unwatch r.id r.files =
        ⟨(s.watcher.host.unlisten r.id).unwatch
          (r.files.filter (s.watcher.counts.count · == 1)),
          r.files.foldl WatchCounts.decrement s.watcher.counts⟩ := rfl
    rw [hunwatch, hunlisten, hnone, hhost, hcounts.2 hzero]

end Sound

/-! ## What holds after careful calls -/

/-- The count of a file is the number of requests that need it. -/
def Counted (s : WatchLog α) : Prop :=
  ∀ p, s.watcher.counts.count p = s.requests.countP (·.needs p)

theorem Counted.keepsRequests (hc : s.Counted) (h : s.Sound) : s.KeepsRequests where
  watched r hr hstands p hp := by
    refine h.covers.watched p ?_
    rw [hc p, ← Nat.pos_iff_ne_zero, List.countP_pos_iff]
    refine ⟨r, hr, ?_⟩
    rw [WatchRequest.needs, hstands, Bool.not_false, Bool.true_and]
    exact List.contains_iff_exists_mem_beq.2 ⟨p, hp, BEq.rfl⟩
  listens := h.listens

theorem Counted.watch (hc : s.Counted) (h : s.Sound) (files : List Path) (listener : α) :
    (s.call (.watch files listener)).Counted := by
  intro p
  have hcount : (s.call (.watch files listener)).watcher.counts.count p =
      s.watcher.counts.count p + if (PathSet.ofList files).contains p then 1 else 0 :=
    WatchCounts.count_incrementAll h.covers.counts (PathSet.isSorted_ofList files) p
  have hrequests : (s.call (.watch files listener)).requests =
      s.requests ++ [⟨s.watcher.host.next, listener, PathSet.ofList files, false⟩] := rfl
  rw [hcount, hc p, hrequests, List.countP_append, List.countP_singleton]
  rfl

/-- Withdrawing a request for the first time takes away what it was counted for. -/
theorem Counted.unwatch (hc : s.Counted) (h : s.Sound) (hr : s.requests[k]? = some r)
    (hstands : r.isWithdrawn = false) : (s.call (.unwatch k)).Counted := by
  intro p
  obtain ⟨hk, hget⟩ := List.getElem?_eq_some_iff.1 hr
  have hsorted := h.sorted r (List.mem_of_getElem? hr)
  have hcount := WatchCounts.count_decrementAll h.covers.counts hsorted p
  have hneeds : r.needs p = r.files.contains p := by
    rw [WatchRequest.needs, hstands]
    rfl
  have hgone : r.withdrawn.needs p = false := rfl
  rw [call_unwatch hr, List.countP_set hk, hget, hneeds, hgone, if_neg Bool.false_ne_true,
    Nat.add_zero, ← hc p]
  exact hcount

/-- Withdrawing a request again does not matter if no other one needs its files. -/
theorem Counted.unwatch_eq_self (hc : s.Counted) (h : s.Sound) (hr : s.requests[k]? = some r)
    (hgone : r.isWithdrawn = true) (hcareful : s.IsCareful (.unwatch k)) :
    s.call (.unwatch k) = s := by
  obtain ⟨hk, hget⟩ := List.getElem?_eq_some_iff.1 hr
  have hzero : ∀ p ∈ r.files, s.watcher.counts.count p = 0 := by
    intro p hp
    rw [hc p, List.countP_eq_zero]
    intro other hother
    rw [hcareful r ⟨k, rfl, hr, hgone⟩ p hp other hother]
    exact Bool.false_ne_true
  have hsame : r.withdrawn = r := by
    rw [WatchRequest.withdrawn, ← hgone]
  rw [call_unwatch hr, (h.unwatch_eq_self_iff (List.mem_of_getElem? hr) hgone).2 hzero, hsame,
    ← hget, List.set_getElem_self]

theorem Counted.call (hc : s.Counted) (h : s.Sound) (hcareful : s.IsCareful c) :
    (s.call c).Counted := by
  cases c with
  | watch files listener => exact hc.watch h files listener
  | unwatch k =>
    cases hr : s.requests[k]? with
    | none =>
      rw [call_unwatch_none hr]
      exact hc
    | some r =>
      cases hgone : r.isWithdrawn with
      | false => exact hc.unwatch h hr hgone
      | true =>
        rw [hc.unwatch_eq_self h hr hgone hcareful]
        exact hc

/-- As long as counts are right, a call keeps all requests exactly if it is careful. -/
theorem Counted.keeps_iff (hc : s.Counted) (h : s.Sound) : s.Keeps c ↔ s.IsCareful c := by
  constructor
  · rintro ⟨-, hsame⟩ r hrepeats p hp other hother
    have hwatcher := hsame r hrepeats
    obtain ⟨k, rfl, hr, hgone⟩ := hrepeats
    rw [call_unwatch hr] at hwatcher
    have hzero := (h.unwatch_eq_self_iff (List.mem_of_getElem? hr) hgone).1 hwatcher p hp
    rw [hc p, List.countP_eq_zero] at hzero
    exact Bool.eq_false_iff.2 (hzero other hother)
  · intro hcareful
    refine ⟨(hc.call h hcareful).keepsRequests (h.call c), fun r hrepeats => ?_⟩
    obtain ⟨k, rfl, hr, hgone⟩ := hrepeats
    rw [hc.unwatch_eq_self h hr hgone hcareful]

theorem Counted.always_iff (hc : s.Counted) (h : s.Sound) (calls : List (WatchCall α)) :
    s.Always Keeps calls ↔ s.Always IsCareful calls := by
  induction calls generalizing s with
  | nil => exact Iff.rfl
  | cons c calls ih =>
    rw [Always, Always, hc.keeps_iff h]
    exact and_congr_right fun hcareful => ih (hc.call h hcareful) (h.call c)

theorem Sound.always_listens (h : s.Sound) (calls : List (WatchCall α)) :
    s.Always (fun s c => ∀ r ∈ (s.call c).requests, r.isWithdrawn = false →
      (r.id, r.listener) ∈ (s.call c).watcher.host.listeners) calls := by
  induction calls generalizing s with
  | nil => trivial
  | cons c calls ih => exact ⟨(h.call c).listens, ih (h.call c)⟩

/-- After each call the requests that are not withdrawn have their listeners. They have their files,
too, and withdrawing a request again changes nothing, exactly if this is never done while another
request needs a file of it. -/
theorem always_keeps_iff (host : WatchHost α) (calls : List (WatchCall α)) :
    (start host).Always (fun s c => ∀ r ∈ (s.call c).requests, r.isWithdrawn = false →
        (r.id, r.listener) ∈ (s.call c).watcher.host.listeners) calls ∧
      ((start host).Always Keeps calls ↔ (start host).Always IsCareful calls) :=
  have hcounted : (start host).Counted := fun _ => rfl
  ⟨(Sound.start host).always_listens calls, hcounted.always_iff (.start host) calls⟩

/-- A request that is withdrawn twice takes away the file that another one needs. -/
theorem not_always_keeps_shared : ¬ (start ({} : WatchHost String)).Always Keeps
    [.watch [⟨"/shared.js"⟩] "a", .watch [⟨"/shared.js"⟩] "b", .unwatch 0, .unwatch 0] := by
  rintro ⟨-, -, -, ⟨hkeeps, -⟩, -⟩
  have hwatched := hkeeps.watched ⟨1, "b", [⟨"/shared.js"⟩], false⟩
    (List.mem_of_getElem? (i := 1) rfl) rfl ⟨"/shared.js"⟩ (List.mem_singleton_self _)
  revert hwatched
  decide +kernel

end WatchLog

end ModuleWorkers
