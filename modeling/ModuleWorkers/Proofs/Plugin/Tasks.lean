import ModuleWorkers.Plugin.Scheduling
import ModuleWorkers.Proofs.Plugin.Locks

/-!
# Tasks of a schedule

The tasks that a schedule has not done stand for requests of a session (`Session.Tracks`): a request
that goes on takes its task along (`Session.Tracks.move`) until it is answered
(`Session.Tracks.answer`). Each turn that a task has brings the schedule nearer to its end
(`Schedule.turnsLeft_turn`).
-/

namespace ModuleWorkers

variable {σ ε : Type}

/-- The stage of a request that a task stands for. -/
def ResolveStage.toRequest : ResolveStage → RequestStage ε
  | .arrived => .arrived
  | .holding => .holding
  | .building request => .building request

/-- The tasks of a schedule that are not done, with the stages of their requests. -/
def Schedule.entries (c : Schedule σ ε) : List (ResolveTask × RequestStage ε) :=
  (c.ready ++ c.paused).map (fun e => (e.1, e.2.toRequest)) ++ c.waiting.map (·, .waiting)

/-! ## How long it takes -/

/-- How many turns it takes at most until a task is done. -/
def ResolveStage.turnsLeft : ResolveStage → Nat
  | .arrived => 4
  | .holding => 3
  | .building _ => 1

namespace Schedule

/-- The same for tasks that can go on. -/
def readyTurns : List (ResolveTask × ResolveStage) → Nat
  | [] => 0
  | e :: es => e.2.turnsLeft + readyTurns es

/-- How many turns it takes at most until all tasks are done. -/
def turnsLeft (c : Schedule σ ε) : Nat :=
  readyTurns c.ready + 2 * c.paused.length + 3 * c.waiting.length

theorem readyTurns_append (es es' : List (ResolveTask × ResolveStage)) :
    readyTurns (es ++ es') = readyTurns es + readyTurns es' := by
  induction es with
  | nil => simp [readyTurns]
  | cons e es ih => rw [List.cons_append, readyTurns, readyTurns, ih, Nat.add_assoc]

theorem readyTurns_of_forall {n : Nat} {es : List (ResolveTask × ResolveStage)}
    (h : ∀ e ∈ es, e.2.turnsLeft = n) : readyTurns es = n * es.length := by
  induction es with
  | nil => rfl
  | cons e es ih =>
    rw [readyTurns, ih fun d hd => h d (List.mem_cons_of_mem e hd), h e List.mem_cons_self,
      List.length_cons, Nat.mul_succ, Nat.add_comm]

theorem turnsLeft_release (c : Schedule σ ε) (path : String) :
    (c.release path).turnsLeft = c.turnsLeft := by
  unfold release
  cases hfind : c.waiting.find? (·.path == path) with
  | none => rfl
  | some t =>
    have hmem : t ∈ c.waiting := List.mem_of_find?_eq_some hfind
    have hlength := List.length_erase_of_mem hmem
    have hpos := List.length_pos_of_mem hmem
    simp only [turnsLeft, readyTurns_append, readyTurns, ResolveStage.turnsLeft, hlength]
    omega

theorem turnsLeft_beginBuild (c : Schedule σ ε) (t : ResolveTask) :
    (c.beginBuild t).turnsLeft ≤ c.turnsLeft + 2 := by
  unfold beginBuild
  split
  · simp only [turnsLeft, List.length_cons]
    omega
  · rw [turnsLeft_release]
    exact Nat.le_add_right _ 2

theorem turnsLeft_proceed (c : Schedule σ ε) (t : ResolveTask) :
    (c.proceed t).turnsLeft ≤ c.turnsLeft + 2 := by
  unfold proceed
  split
  · rw [turnsLeft_release]
    exact Nat.le_add_right _ 2
  · rw [turnsLeft_release]
    exact Nat.le_add_right _ 2
  · exact c.turnsLeft_beginBuild t

theorem turnsLeft_arrive (c : Schedule σ ε) (t : ResolveTask) :
    (c.arrive t).turnsLeft ≤ c.turnsLeft + 3 := by
  unfold arrive
  split
  · exact Nat.le_add_right _ 3
  · exact Nat.le_add_right _ 3
  · split
    · simp only [turnsLeft, List.length_append, List.length_singleton]
      omega
    · have := turnsLeft_beginBuild { c with locked := t.path :: c.locked } t
      exact Nat.le_succ_of_le this

/-- A turn that a task has brings the end nearer. -/
theorem turnsLeft_turn (p : Plugin σ ε) (fs : FileSystem) {c : Schedule σ ε}
    (h : c.ready ≠ [] ∨ c.paused ≠ []) (hpaused : ∀ e ∈ c.paused, e.2.turnsLeft = 1) :
    (c.turn p fs).turnsLeft < c.turnsLeft := by
  unfold turn
  cases hready : c.ready with
  | nil =>
    have hpos := List.length_pos_of_ne_nil (h.resolve_left (not_not_intro hready))
    have hgo : ∀ es : List (ResolveTask × ResolveStage), es.Perm c.paused →
        turnsLeft { c with ready := es, paused := [] } < c.turnsLeft := by
      intro es hes
      have hes' := readyTurns_of_forall fun e he => hpaused e (hes.mem_iff.1 he)
      simp only [turnsLeft, hready, hes', hes.length_eq, readyTurns, List.length_nil]
      omega
    dsimp only
    split
    · exact hgo _ (.refl _)
    · exact hgo _ (List.reverse_perm _)
  | cons entry ready =>
    obtain ⟨t, stage⟩ := entry
    have hleft : c.turnsLeft = stage.turnsLeft + turnsLeft { c with ready } := by
      simp only [turnsLeft, hready, readyTurns]
      omega
    rw [hleft]
    cases stage with
    | arrived =>
      have := turnsLeft_arrive { c with ready } t
      simp only [ResolveStage.turnsLeft]
      omega
    | holding =>
      have := turnsLeft_proceed { c with ready } t
      simp only [ResolveStage.turnsLeft]
      omega
    | building request =>
      have : (finish p fs { c with ready } t request).turnsLeft = turnsLeft { c with ready } :=
        turnsLeft_release _ _
      simp only [ResolveStage.turnsLeft]
      omega

theorem entries_eq_nil {c : Schedule σ ε} (h : c.turnsLeft = 0) : c.entries = [] := by
  have hpaused : c.paused = [] := List.eq_nil_of_length_eq_zero (by unfold turnsLeft at h; omega)
  have hwaiting : c.waiting = [] := List.eq_nil_of_length_eq_zero (by unfold turnsLeft at h; omega)
  have hready : c.ready = [] := by
    cases hready : c.ready with
    | nil => rfl
    | cons entry ready =>
      obtain ⟨t, stage⟩ := entry
      rw [turnsLeft, hready, readyTurns] at h
      cases stage <;> simp only [ResolveStage.turnsLeft] at h <;> omega
  rw [entries, hready, hpaused, hwaiting]
  rfl

end Schedule

namespace Session

/-- Each request is answered or has a task, which is as far as the request is. The requests of the
tasks come after a number of others. -/
structure Tracks (before : Nat) (requests : List (PendingRequest ε))
    (entries : List (ResolveTask × RequestStage ε)) (answers : List (Nat × PluginAnswer ε)) :
    Prop where
  distinct : (entries.map (before + ·.1.number)).Nodup
  getElem? : ∀ e ∈ entries, requests[before + e.1.number]? = some ⟨e.1.path, e.2⟩
  requestedPath : ∀ t request, (t, .building request) ∈ entries → request.requestedPath = t.path
  answered : ∀ k a, (k, a) ∈ answers → ∃ path, requests[before + k]? = some ⟨path, .answered a⟩
  complete : ∀ (k : Nat) r, requests[k]? = some r →
    (∃ a, r.stage = .answered a ∧ (before ≤ k → (k - before, a) ∈ answers)) ∨
      k ∈ entries.map (before + ·.1.number)

namespace Tracks

variable {before : Nat} {requests : List (PendingRequest ε)}
  {entries entries' : List (ResolveTask × RequestStage ε)}
  {answers : List (Nat × PluginAnswer ε)} {t : ResolveTask} {old stage : RequestStage ε}

theorem perm (h : Tracks before requests entries answers) (hp : entries'.Perm entries) :
    Tracks before requests entries' answers where
  distinct := (hp.map _).nodup_iff.2 h.distinct
  getElem? e he := h.getElem? e (hp.mem_iff.1 he)
  requestedPath t request ht := h.requestedPath t request (hp.mem_iff.1 ht)
  answered := h.answered
  complete k r hr := (h.complete k r hr).imp_right (hp.map _).mem_iff.2

theorem head (h : Tracks before requests ((t, old) :: entries) answers) :
    requests[before + t.number]? = some ⟨t.path, old⟩ :=
  h.getElem? _ List.mem_cons_self

theorem ne_of_mem (h : Tracks before requests ((t, old) :: entries) answers)
    {e : ResolveTask × RequestStage ε} (he : e ∈ entries) :
    before + t.number ≠ before + e.1.number := by
  intro heq
  have hmem : before + e.1.number ∈ entries.map (before + ·.1.number) :=
    List.mem_map.2 ⟨e, he, rfl⟩
  rw [← heq] at hmem
  exact (List.nodup_cons.1 h.distinct).1 hmem

theorem ne_of_answered (h : Tracks before requests ((t, old) :: entries) answers)
    (hold : ∀ a, old ≠ .answered a) {k : Nat} {a : PluginAnswer ε} (hk : (k, a) ∈ answers) :
    before + t.number ≠ before + k := by
  intro heq
  obtain ⟨path, hpath⟩ := h.answered k a hk
  rw [← heq, h.head] at hpath
  cases hpath
  exact hold a rfl

/-- A request goes on. -/
theorem move (h : Tracks before requests ((t, old) :: entries) answers)
    (hold : ∀ a, old ≠ .answered a)
    (hstage : ∀ request, stage = .building request → request.requestedPath = t.path) :
    Tracks before (requests.modify (before + t.number) fun r => { r with stage })
      ((t, stage) :: entries) answers where
  distinct := h.distinct
  getElem? e he := by
    rw [getElem?_modify_stage h.head]
    rcases List.mem_cons.1 he with rfl | he
    · rw [if_pos rfl]
    · rw [if_neg (h.ne_of_mem he)]
      exact h.getElem? e (List.mem_cons_of_mem _ he)
  requestedPath u request hu := by
    rcases List.mem_cons.1 hu with hu | hu
    · cases hu
      exact hstage request rfl
    · exact h.requestedPath u request (List.mem_cons_of_mem _ hu)
  answered k a hk := by
    rw [getElem?_modify_stage h.head, if_neg (h.ne_of_answered hold hk)]
    exact h.answered k a hk
  complete k r hr := by
    rw [getElem?_modify_stage h.head] at hr
    split at hr
    · rename_i hk
      exact .inr (hk ▸ List.mem_cons_self)
    · exact h.complete k r hr

/-- A request is answered. -/
theorem answer (h : Tracks before requests ((t, old) :: entries) answers)
    (hold : ∀ a, old ≠ .answered a) (a : PluginAnswer ε) :
    Tracks before (requests.modify (before + t.number) fun r => { r with stage := .answered a })
      entries ((t.number, a) :: answers) where
  distinct := (List.nodup_cons.1 h.distinct).2
  getElem? e he := by
    rw [getElem?_modify_stage h.head, if_neg (h.ne_of_mem he)]
    exact h.getElem? e (List.mem_cons_of_mem _ he)
  requestedPath u request hu := h.requestedPath u request (List.mem_cons_of_mem _ hu)
  answered k b hk := by
    rw [getElem?_modify_stage h.head]
    rcases List.mem_cons.1 hk with hk | hk
    · cases hk
      exact ⟨t.path, by rw [if_pos rfl]⟩
    · rw [if_neg (h.ne_of_answered hold hk)]
      exact h.answered k b hk
  complete k r hr := by
    rw [getElem?_modify_stage h.head] at hr
    split at hr
    · rename_i hk
      subst hk
      cases hr
      refine .inl ⟨a, rfl, fun _ => ?_⟩
      rw [Nat.add_sub_cancel_left]
      exact List.mem_cons_self
    · rename_i hk
      rcases h.complete k r hr with ⟨b, hr, hb⟩ | hmem
      · exact .inl ⟨b, hr, fun hle => List.mem_cons_of_mem _ (hb hle)⟩
      · exact .inr ((List.mem_cons.1 hmem).resolve_left (Ne.symm hk))

end Tracks

end Session

end ModuleWorkers
