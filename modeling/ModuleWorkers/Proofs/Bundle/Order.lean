import Mathlib.Data.List.Nodup
import Mathlib.Data.List.Perm.Subperm
import ModuleWorkers.Bundle.Order

/-!
# What a depth-first walk lists

Each part of a walk adds nodes that were not entered before, and leaves nothing open: what the nodes
that it adds need was entered when it ends, or is left out (`DepthFirst.visits_walk`). The invariant
that carries this is that a node is entered at most once, so that the depth, which is more than
there are nodes, is never used up. The whole walk is the part that starts with nothing entered: the
nodes that it lists are closed under edges (`DepthFirst.mem_order_of_mem_edges`), and the root comes
last (`DepthFirst.getLast?_order`).
-/

namespace ModuleWorkers.DepthFirst

variable {size depth root n k : Nat} {edges : Nat → List Nat} {leftOut : Nat → Bool}
  {w w' w'' : Walk} {ks ks' : List Nat}

/-- No node was entered twice, and all that were are nodes of the graph. -/
structure Walk.WF (size : Nat) (w : Walk) : Prop where
  nodup : w.entered.Nodup
  lt : ∀ n ∈ w.entered, n < size

theorem Walk.WF.length_le (h : w.WF size) : w.entered.length ≤ size := by
  have hsub : w.entered ⊆ List.range size := fun n hn => List.mem_range.2 (h.lt n hn)
  simpa using (h.nodup.subperm hsub).length_le

theorem Walk.WF.enter (h : w.WF size) (hn : n < size) (hnew : n ∉ w.entered) :
    Walk.WF size { w with entered := n :: w.entered } := by
  refine ⟨List.nodup_cons.2 ⟨hnew, h.nodup⟩, fun k hk => ?_⟩
  rcases List.mem_cons.1 hk with rfl | hk
  · exact hn
  · exact h.lt k hk

/-- A part of a walk that visits some nodes. -/
structure Visits (size : Nat) (edges : Nat → List Nat) (leftOut : Nat → Bool) (w w' : Walk)
    (ks : List Nat) : Prop where
  wf : w'.WF size
  /-- All that was entered in this part was left in it, and with what it needs. -/
  adds : ∃ new, w'.left = new ++ w.left ∧ w'.entered.Perm (new ++ w.entered) ∧
    ∀ n ∈ new, leftOut n = false ∧ ∀ k ∈ edges n, leftOut k = true ∨ k ∈ w'.entered
  visited : ∀ k ∈ ks, leftOut k = true ∨ k ∈ w'.entered

namespace Visits

theorem mem_entered (h : Visits size edges leftOut w w' ks) (hn : n ∈ w.entered) :
    n ∈ w'.entered := by
  obtain ⟨new, -, hperm, -⟩ := h.adds
  exact hperm.mem_iff.2 (List.mem_append_right _ hn)

theorem length_entered (h : Visits size edges leftOut w w' ks) :
    w.entered.length ≤ w'.entered.length := by
  obtain ⟨new, -, hperm, -⟩ := h.adds
  rw [hperm.length_eq, List.length_append]
  omega

theorem refl (h : w.WF size) (hks : ∀ k ∈ ks, leftOut k = true ∨ k ∈ w.entered) :
    Visits size edges leftOut w w ks :=
  ⟨h, ⟨[], rfl, .refl _, nofun⟩, hks⟩

theorem trans (h : Visits size edges leftOut w w' ks) (h' : Visits size edges leftOut w' w'' ks') :
    Visits size edges leftOut w w'' (ks ++ ks') := by
  obtain ⟨new, hleft, hperm, hnew⟩ := h.adds
  obtain ⟨new', hleft', hperm', hnew'⟩ := h'.adds
  refine ⟨h'.wf, ⟨new' ++ new, ?_, ?_, fun n hn => ?_⟩, fun k hk => ?_⟩
  · rw [hleft', hleft, List.append_assoc]
  · rw [List.append_assoc]
    exact hperm'.trans (hperm.append_left new')
  · rcases List.mem_append.1 hn with hn | hn
    · exact hnew' n hn
    · obtain ⟨hout, hedges⟩ := hnew n hn
      exact ⟨hout, fun k hk => (hedges k hk).imp_right h'.mem_entered⟩
  · rcases List.mem_append.1 hk with hk | hk
    · exact (h.visited k hk).imp_right h'.mem_entered
    · exact h'.visited k hk

/-- A node is entered, then what it needs is visited, and then it is left. -/
theorem leave (hroot : leftOut n = false)
    (h : Visits size edges leftOut { w with entered := n :: w.entered } w' (edges n)) :
    Visits size edges leftOut w { w' with left := n :: w'.left } [n] := by
  obtain ⟨new, hleft, hperm, hnew⟩ := h.adds
  refine ⟨⟨h.wf.nodup, h.wf.lt⟩, ⟨n :: new, ?_, hperm.trans List.perm_middle, fun k hk => ?_⟩,
    fun k hk => .inr ?_⟩
  · rw [List.cons_append, ← hleft]
  · rcases List.mem_cons.1 hk with rfl | hk
    · exact ⟨hroot, h.visited⟩
    · exact hnew k hk
  · rw [List.mem_singleton.1 hk]
    exact h.mem_entered List.mem_cons_self

end Visits

/-- If each node can be visited from where a walk is, several can one after the other. -/
theorem visits_foldl {visit : Walk → Nat → Walk}
    (hvisit : ∀ w n, w.WF size → n < size → size < depth + w.entered.length →
      Visits size edges leftOut w (visit w n) [n])
    (hw : w.WF size) (hks : ∀ k ∈ ks, k < size) (hdepth : size < depth + w.entered.length) :
    Visits size edges leftOut w (ks.foldl visit w) ks := by
  induction ks generalizing w with
  | nil => exact .refl hw nofun
  | cons k ks ih =>
    have h := hvisit w k hw (hks k List.mem_cons_self) hdepth
    have hlength := h.length_entered
    exact h.trans (ih h.wf (fun j hj => hks j (List.mem_cons_of_mem _ hj)) (by omega))

/-- A walk from a node visits it. The nodes that were entered before and the depth are together more
than there are nodes, so the depth lasts. -/
theorem visits_walk (hedges : ∀ n < size, ∀ k ∈ edges n, k < size) (hw : w.WF size) (hn : n < size)
    (hdepth : size < depth + w.entered.length) :
    Visits size edges leftOut w (walk edges leftOut depth w n) [n] := by
  induction depth generalizing w n with
  | zero =>
    have hlength := hw.length_le
    omega
  | succ depth ih =>
    unfold walk
    split
    · rename_i hskip
      refine .refl hw fun k hk => ?_
      rw [List.mem_singleton.1 hk]
      simpa using hskip
    · rename_i hskip
      obtain ⟨hout, hfresh⟩ : leftOut n = false ∧ n ∉ w.entered := by simpa using hskip
      refine .leave hout (visits_foldl (fun w n hw hn hd => ih hw hn hd) (hw.enter hn hfresh)
        (hedges n hn) ?_)
      rw [List.length_cons]
      omega

/-! ## The whole walk -/

section

variable (hedges : ∀ n < size, ∀ k ∈ edges n, k < size) (hroot : root < size)

include hedges hroot

theorem visits_order (leftOut : Nat → Bool) :
    Visits size edges leftOut {} (walk edges leftOut (size + 1) {} root) [root] :=
  visits_walk hedges ⟨List.nodup_nil, nofun⟩ hroot (by simp)

/-- The nodes that are listed are those that were entered. -/
theorem order_perm :
    (order size edges leftOut root).Perm (walk edges leftOut (size + 1) {} root).entered := by
  obtain ⟨new, hleft, hperm, -⟩ := (visits_order hedges hroot leftOut).adds
  rw [List.append_nil] at hleft hperm
  unfold order
  rw [hleft]
  exact (List.reverse_perm new).trans hperm.symm

theorem nodup_order : (order size edges leftOut root).Nodup :=
  (order_perm hedges hroot).nodup_iff.2 (visits_order hedges hroot leftOut).wf.nodup

theorem lt_of_mem_order (hn : n ∈ order size edges leftOut root) : n < size :=
  (visits_order hedges hroot leftOut).wf.lt n ((order_perm hedges hroot).mem_iff.1 hn)

/-- With a node all nodes are listed that it needs, if they are not left out. -/
theorem mem_order_of_mem_edges (hn : n ∈ order size edges leftOut root) (hk : k ∈ edges n) :
    leftOut k = true ∨ k ∈ order size edges leftOut root := by
  obtain ⟨new, hleft, -, hnew⟩ := (visits_order hedges hroot leftOut).adds
  rw [List.append_nil] at hleft
  unfold order at hn
  rw [List.mem_reverse, hleft] at hn
  exact ((hnew n hn).2 k hk).imp_right (order_perm hedges hroot).mem_iff.2

theorem mem_order_root (hout : leftOut root = false) : root ∈ order size edges leftOut root := by
  rcases (visits_order hedges hroot leftOut).visited root List.mem_cons_self with h | h
  · rw [hout] at h
    cases h
  · exact (order_perm hedges hroot).mem_iff.2 h

end

/-- The root comes after all that it needs. -/
theorem getLast?_order (hout : leftOut root = false) :
    (order size edges leftOut root).getLast? = some root := by
  unfold order walk
  simp [hout]

end ModuleWorkers.DepthFirst
