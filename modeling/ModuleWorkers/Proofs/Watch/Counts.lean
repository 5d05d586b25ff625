import ModuleWorkers.Proofs.Path.Order
import ModuleWorkers.Watch.Shared

/-!
# Counting the listeners of a file

A table of counts is well-formed if no count is zero and no file has two (`WatchCounts.WF`). On such
tables counting a set of files up and down again does what it says, file by file
(`WatchCounts.count_incrementAll`, `WatchCounts.count_decrementAll`), and a watcher whose host
watches just the files with a count stays one (`SharedWatcher.Exact.watch`,
`SharedWatcher.Exact.unwatch`).
-/

namespace ModuleWorkers

namespace WatchCounts

/-! ## Well-formed tables -/

structure WF (counts : WatchCounts) : Prop where
  ne_zero : ∀ c ∈ counts, c.2 ≠ 0
  distinct : counts.Pairwise fun a b => (a.1 == b.1) = false

theorem WF.nil : WF [] := ⟨by simp, List.Pairwise.nil⟩

@[simp] theorem count_nil (p : Path) : count [] p = 0 := rfl

theorem count_cons (q : Path) (n : Nat) (counts : WatchCounts) (p : Path) :
    count ((q, n) :: counts) p = if q == p then n else counts.count p := by
  unfold count
  cases h : q == p <;> simp [h]

theorem WF.tail {c : Path × Nat} {counts : WatchCounts} (h : WF (c :: counts)) : WF counts :=
  ⟨fun d hd => h.ne_zero d (List.mem_cons_of_mem _ hd), (List.pairwise_cons.1 h.distinct).2⟩

/-- Spellings of one path have the same count. -/
theorem count_congr {p q : Path} (h : p == q) (counts : WatchCounts) :
    counts.count p = counts.count q := by
  induction counts with
  | nil => rfl
  | cons c counts ih =>
    obtain ⟨r, n⟩ := c
    rw [count_cons, count_cons, ih, BEq.congr_right h]

/-- A file has no count if it is not in the table. -/
theorem count_eq_zero_of_forall {counts : WatchCounts} {p : Path}
    (h : ∀ c ∈ counts, (c.1 == p) = false) : counts.count p = 0 := by
  induction counts with
  | nil => rfl
  | cons c counts ih =>
    obtain ⟨q, n⟩ := c
    have hq : (q == p) = false := h (q, n) List.mem_cons_self
    rw [count_cons, hq, ih fun d hd => h d (List.mem_cons_of_mem _ hd)]
    rfl

theorem WF.forall_of_count_eq_zero {counts : WatchCounts} (h : WF counts) {p : Path}
    (hp : counts.count p = 0) : ∀ c ∈ counts, (c.1 == p) = false := by
  induction counts with
  | nil => simp
  | cons c counts ih =>
    obtain ⟨q, n⟩ := c
    rw [count_cons] at hp
    have hn : n ≠ 0 := h.ne_zero (q, n) List.mem_cons_self
    cases hq : q == p with
    | true => simp [hq, hn] at hp
    | false =>
      intro d hd
      rcases List.mem_cons.1 hd with rfl | hd
      · exact hq
      · exact ih h.tail (by simpa [hq] using hp) d hd

/-! ## One listener more -/

theorem count_append_new {counts : WatchCounts} (h : WF counts) {f : Path}
    (hf : counts.count f = 0) (p : Path) :
    count (counts ++ [(f, 1)]) p = counts.count p + if f == p then 1 else 0 := by
  induction counts with
  | nil => simp [count_cons]
  | cons c counts ih =>
    obtain ⟨q, n⟩ := c
    have hqf : (q == f) = false := h.forall_of_count_eq_zero hf (q, n) List.mem_cons_self
    have hf' : count counts f = 0 := by simpa [count_cons, hqf] using hf
    rw [List.cons_append, count_cons, count_cons, ih h.tail hf']
    by_cases hq : q == p
    · have hfp : (f == p) = false := by
        rw [← hqf, BEq.comm (a := q)]
        exact BEq.congr_right (BEq.symm hq)
      simp [hq, hfp]
    · simp [hq]

/-- Changing the counts of a table changes what is counted for a path that is in it; for others
nothing may be what it is changed to. -/
theorem count_map {counts : WatchCounts} (g : Path → Nat → Nat) {p : Path}
    (hg : ∀ q, q == p → g q = g p) (hp : counts.count p ≠ 0 ∨ g p 0 = 0) :
    count (counts.map fun c => (c.1, g c.1 c.2)) p = g p (counts.count p) := by
  induction counts with
  | nil => exact (hp.resolve_left fun h => h rfl).symm
  | cons c counts ih =>
    obtain ⟨q, n⟩ := c
    rw [List.map_cons, count_cons, count_cons]
    rw [count_cons] at hp
    cases hq : q == p with
    | true => simp [hg q hq]
    | false => simpa using ih (by simpa [hq] using hp)

theorem increment_of_ne_zero {counts : WatchCounts} {f : Path} (hf : counts.count f ≠ 0) :
    counts.increment f = counts.map fun c => (c.1, if c.1 == f then c.2 + 1 else c.2) := by
  rw [increment, if_neg hf]
  refine List.map_congr_left fun c _ => ?_
  dsimp only
  split <;> rfl

theorem count_increment {counts : WatchCounts} (h : WF counts) (f p : Path) :
    (counts.increment f).count p = counts.count p + if f == p then 1 else 0 := by
  by_cases hf : counts.count f = 0
  · rw [increment, if_pos hf, count_append_new h hf]
  · rw [increment_of_ne_zero hf, count_map fun q n => if q == f then n + 1 else n]
    · rw [BEq.comm (a := f)]
      split <;> rfl
    · intro q hq
      simp only [BEq.congr_left hq]
    · by_cases hp : p == f
      · exact .inl (by rwa [count_congr hp])
      · exact .inr (by simp [hp])

theorem WF.increment {counts : WatchCounts} (h : WF counts) (f : Path) :
    WF (counts.increment f) := by
  by_cases hf : counts.count f = 0
  · rw [WatchCounts.increment, if_pos hf]
    refine ⟨fun c hc => ?_, List.pairwise_append.2 ⟨h.distinct, List.pairwise_singleton _ _, ?_⟩⟩
    · rcases List.mem_append.1 hc with hc | hc
      · exact h.ne_zero c hc
      · rw [List.mem_singleton.1 hc]
        exact Nat.one_ne_zero
    · intro c hc d hd
      rw [List.mem_singleton.1 hd]
      exact h.forall_of_count_eq_zero hf c hc
  · rw [increment_of_ne_zero hf]
    refine ⟨fun c hc => ?_, List.pairwise_map.2 h.distinct⟩
    obtain ⟨d, hd, rfl⟩ := List.mem_map.1 hc
    have := h.ne_zero d hd
    dsimp only
    split <;> omega

/-! ## One listener less -/

theorem decrement_eq (counts : WatchCounts) (f : Path) :
    counts.decrement f =
      (counts.map fun c => (c.1, if c.1 == f then c.2 - 1 else c.2)).filter (·.2 != 0) := by
  unfold decrement
  congr 1
  refine List.map_congr_left fun c _ => ?_
  dsimp only
  split <;> rfl

/-- Leaving out counts that are zero changes no count. -/
theorem count_filter_ne_zero {counts : WatchCounts}
    (h : counts.Pairwise fun a b => (a.1 == b.1) = false) (p : Path) :
    count (counts.filter (·.2 != 0)) p = counts.count p := by
  induction counts with
  | nil => rfl
  | cons c counts ih =>
    obtain ⟨q, n⟩ := c
    obtain ⟨hq, hc⟩ := List.pairwise_cons.1 h
    rw [List.filter_cons]
    by_cases hn : n = 0
    · subst hn
      have hcount : q == p → count counts p = 0 := by
        intro hqp
        refine count_eq_zero_of_forall fun d hd => ?_
        rw [← BEq.congr_right hqp, BEq.comm]
        exact hq d hd
      rw [if_neg (by simp), ih hc, count_cons]
      split
      · exact hcount ‹_›
      · rfl
    · rw [if_pos (by simpa using hn), count_cons, count_cons, ih hc]

theorem count_decrement {counts : WatchCounts} (h : WF counts) (f p : Path) :
    (counts.decrement f).count p = counts.count p - if f == p then 1 else 0 := by
  have hd : (counts.map fun c => (c.1, if c.1 == f then c.2 - 1 else c.2)).Pairwise
      fun a b => (a.1 == b.1) = false := List.pairwise_map.2 h.distinct
  rw [decrement_eq, count_filter_ne_zero hd, count_map fun q n => if q == f then n - 1 else n]
  · rw [BEq.comm (a := f)]
    split <;> rfl
  · intro q hq
    simp only [BEq.congr_left hq]
  · exact .inr (by simp)

theorem WF.decrement {counts : WatchCounts} (h : WF counts) (f : Path) :
    WF (counts.decrement f) := by
  rw [decrement_eq]
  refine ⟨fun c hc => ?_, (List.pairwise_map.2 h.distinct).filter _⟩
  simpa using (List.mem_filter.1 hc).2

/-! ## Sets of files -/

theorem WF.incrementAll {counts : WatchCounts} (h : WF counts) (files : PathSet) :
    WF (files.foldl WatchCounts.increment counts) := by
  induction files generalizing counts with
  | nil => exact h
  | cons f files ih => exact ih (h.increment f)

theorem WF.decrementAll {counts : WatchCounts} (h : WF counts) (files : PathSet) :
    WF (files.foldl WatchCounts.decrement counts) := by
  induction files generalizing counts with
  | nil => exact h
  | cons f files ih => exact ih (h.decrement f)

theorem count_incrementAll {counts : WatchCounts} (h : WF counts) {files : PathSet}
    (hf : PathSet.IsSorted files) (p : Path) :
    (files.foldl increment counts).count p =
      counts.count p + if files.contains p then 1 else 0 := by
  induction files generalizing counts with
  | nil => rfl
  | cons f files ih =>
    rw [List.foldl_cons, ih (h.increment f) hf.tail, count_increment h, List.contains_cons,
      BEq.comm (a := p)]
    by_cases hp : f == p
    · have hnot : List.contains files p = false := by
        rw [← List.contains_congr hp]
        exact hf.not_contains_head
      simp [hp, hnot]
    · simp [hp]

theorem count_decrementAll {counts : WatchCounts} (h : WF counts) {files : PathSet}
    (hf : PathSet.IsSorted files) (p : Path) :
    (files.foldl decrement counts).count p =
      counts.count p - if files.contains p then 1 else 0 := by
  induction files generalizing counts with
  | nil => rfl
  | cons f files ih =>
    rw [List.foldl_cons, ih (h.decrement f) hf.tail, count_decrement h, List.contains_cons,
      BEq.comm (a := p)]
    by_cases hp : f == p
    · have hnot : List.contains files p = false := by
        rw [← List.contains_congr hp]
        exact hf.not_contains_head
      simp [hp, hnot]
    · simp [hp]

end WatchCounts

/-! ## Hosts -/

namespace WatchHost

variable {α : Type}

theorem isWatched_watch (h : WatchHost α) (files : List Path) (p : Path) :
    (h.watch files).isWatched p = (h.isWatched p || files.contains p) := by
  unfold watch isWatched
  dsimp only
  induction files generalizing h with
  | nil => simp
  | cons f files ih =>
    have := ih { h with watched := PathSet.insert f h.watched }
    rw [List.foldl_cons, this, PathSet.contains_insert, List.contains_cons, BEq.comm (a := p)]
    cases f == p <;> simp

theorem isWatched_unwatch (h : WatchHost α) (files : List Path) (p : Path) :
    (h.unwatch files).isWatched p = (h.isWatched p && !files.contains p) := by
  unfold unwatch isWatched
  rw [List.contains_filter, List.contains_eq_any_beq, Bool.eq_iff_iff]
  simp only [Bool.and_eq_true, List.any_eq_true]
  constructor
  · rintro ⟨q, hq, hpq, hn⟩
    exact ⟨⟨q, hq, hpq⟩, by rwa [List.contains_congr hpq]⟩
  · rintro ⟨⟨q, hq, hpq⟩, hn⟩
    exact ⟨q, hq, hpq, by rwa [← List.contains_congr hpq]⟩

end WatchHost

/-! ## Watchers that watch what is counted -/

namespace SharedWatcher

variable {α : Type}

/-- The host watches just the files that have a count. -/
structure Exact (w : SharedWatcher α) : Prop where
  counts : w.counts.WF
  watched : ∀ p, w.host.isWatched p ↔ w.counts.count p ≠ 0

theorem contains_filter_count (w : SharedWatcher α) (files : PathSet) (n : Nat) (p : Path) :
    (files.filter (w.counts.count · == n)).contains p =
      (files.contains p && w.counts.count p == n) := by
  rw [List.contains_filter, List.contains_eq_any_beq, Bool.eq_iff_iff]
  simp only [Bool.and_eq_true, List.any_eq_true]
  constructor
  · rintro ⟨q, hq, hpq, hn⟩
    exact ⟨⟨q, hq, hpq⟩, by rwa [WatchCounts.count_congr hpq]⟩
  · rintro ⟨⟨q, hq, hpq⟩, hn⟩
    exact ⟨q, hq, hpq, by rwa [← WatchCounts.count_congr hpq]⟩

theorem isWatched_watch (w : SharedWatcher α) (files : PathSet) (a : α) (p : Path) :
    (w.watch files a).2.host.isWatched p =
      (w.host.isWatched p || (files.contains p && w.counts.count p == 0)) := by
  rw [← contains_filter_count, ← WatchHost.isWatched_watch]
  rfl

theorem isWatched_unwatch (w : SharedWatcher α) (id : ListenerId) (files : PathSet) (p : Path) :
    (w.unwatch id files).host.isWatched p =
      (w.host.isWatched p && !(files.contains p && w.counts.count p == 1)) := by
  rw [← contains_filter_count]
  exact WatchHost.isWatched_unwatch (w.host.unlisten id) _ p

theorem count_watch {w : SharedWatcher α} (h : w.Exact) {files : PathSet}
    (hf : PathSet.IsSorted files) (a : α) (p : Path) :
    (w.watch files a).2.counts.count p =
      w.counts.count p + if files.contains p then 1 else 0 :=
  WatchCounts.count_incrementAll h.counts hf p

theorem count_unwatch {w : SharedWatcher α} (h : w.Exact) {files : PathSet}
    (hf : PathSet.IsSorted files) (id : ListenerId) (p : Path) :
    (w.unwatch id files).counts.count p =
      w.counts.count p - if files.contains p then 1 else 0 :=
  WatchCounts.count_decrementAll h.counts hf p

theorem Exact.watch {w : SharedWatcher α} (h : w.Exact) {files : PathSet}
    (hf : PathSet.IsSorted files) (a : α) : (w.watch files a).2.Exact := by
  refine ⟨h.counts.incrementAll files, fun p => ?_⟩
  have := h.watched p
  rw [count_watch h hf, isWatched_watch]
  by_cases hc : w.counts.count p = 0 <;> cases files.contains p <;> simp_all

theorem Exact.unwatch {w : SharedWatcher α} (h : w.Exact) {files : PathSet}
    (hf : PathSet.IsSorted files) (id : ListenerId) : (w.unwatch id files).Exact := by
  refine ⟨h.counts.decrementAll files, fun p => ?_⟩
  have := h.watched p
  rw [count_unwatch h hf, isWatched_unwatch]
  cases files.contains p
  · simp_all
  · simp only [Bool.true_and, Bool.and_eq_true, Bool.not_eq_true', beq_eq_false_iff_ne, this,
      if_true]
    omega

end SharedWatcher

end ModuleWorkers
