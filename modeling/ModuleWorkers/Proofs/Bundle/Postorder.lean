import ModuleWorkers.Proofs.Bundle.Scripts

/-!
# What is needed comes first

A depth-first walk (`DepthFirst.Walks`, which is not bounded in its depth) lists what can be reached
from where it starts, and lists it in the order in which nodes are left. When a node is left, what it
needs was either left before, or it is still open, and then it is on the way to the node: all open
nodes reach the node that is entered next. This invariant gives the order up to cycles
(`DepthFirst.Walks.isOrdered`). The bounded walk is such a walk, as its bound is never met
(`DepthFirst.walks_walk`), so all this holds of the static order of a graph
(`ModuleGraph.isDependencyOrder_staticOrder`).
-/

namespace ModuleWorkers

open Script (DependencyKind)

namespace DepthFirst

/-- Whether there is a way from a node to another one that keeps to some nodes. -/
inductive Reaches (edge : Nat → Nat → Prop) (keeps : Nat → Prop) (n : Nat) : Nat → Prop
  | refl : keeps n → Reaches edge keeps n n
  | step {k j : Nat} : Reaches edge keeps n k → edge k j → keeps j → Reaches edge keeps n j

theorem Reaches.keeps_start {edge : Nat → Nat → Prop} {keeps : Nat → Prop} {n k : Nat}
    (h : Reaches edge keeps n k) : keeps n := by
  induction h with
  | refl hn => exact hn
  | step _ _ _ ih => exact ih

theorem Reaches.trans {edge : Nat → Nat → Prop} {keeps : Nat → Prop} {n k j : Nat}
    (h : Reaches edge keeps n k) (h' : Reaches edge keeps k j) : Reaches edge keeps n j := by
  induction h' with
  | refl _ => exact h
  | step _ hedge hkeeps ih => exact ih.step hedge hkeeps

/-- A walk from nodes, one after the other, however deep it goes. -/
inductive Walks (edges : Nat → List Nat) (leftOut : Nat → Bool) : Walk → List Nat → Walk → Prop
  | done (w : Walk) : Walks edges leftOut w [] w
  | skip {w w' : Walk} {n : Nat} {ks : List Nat} : leftOut n = true ∨ n ∈ w.entered →
      Walks edges leftOut w ks w' → Walks edges leftOut w (n :: ks) w'
  | enter {w w' w'' : Walk} {n : Nat} {ks : List Nat} : leftOut n = false → n ∉ w.entered →
      Walks edges leftOut { w with entered := n :: w.entered } (edges n) w' →
      Walks edges leftOut { w' with left := n :: w'.left } ks w'' →
      Walks edges leftOut w (n :: ks) w''

variable {size depth root n k : Nat} {edges : Nat → List Nat} {leftOut : Nat → Bool}
  {w w' w'' : Walk} {ks : List Nat}

/-! ## The bounded walk -/

theorem Walks.cons (h : Walks edges leftOut w [k] w') (h' : Walks edges leftOut w' ks w'') :
    Walks edges leftOut w (k :: ks) w'' := by
  cases h with
  | skip hskip hdone =>
    cases hdone
    exact .skip hskip h'
  | enter hkeeps hnew hedges hdone =>
    cases hdone
    exact .enter hkeeps hnew hedges h'

/-- If each node can be walked from, several can one after the other: each part of the walk leaves
more nodes entered. -/
theorem walks_foldl (hedges : ∀ n < size, ∀ k ∈ edges n, k < size)
    (hwalk : ∀ w n, w.WF size → n < size → size < depth + w.entered.length →
      Walks edges leftOut w [n] (walk edges leftOut depth w n))
    (hw : w.WF size) (hks : ∀ k ∈ ks, k < size) (hdepth : size < depth + w.entered.length) :
    Walks edges leftOut w ks (ks.foldl (walk edges leftOut depth) w) := by
  induction ks generalizing w with
  | nil => exact .done w
  | cons k ks ih =>
    have hk := hks k List.mem_cons_self
    have hvisits : Visits size edges leftOut w (walk edges leftOut depth w k) [k] :=
      visits_walk hedges hw hk hdepth
    have hlength := hvisits.length_entered
    exact (hwalk w k hw hk hdepth).cons
      (ih hvisits.wf (fun j hj => hks j (List.mem_cons_of_mem k hj)) (by omega))

/-- As long as the depth and the nodes that were entered are more than there are nodes, the depth
does not matter. -/
theorem walks_walk (hedges : ∀ n < size, ∀ k ∈ edges n, k < size) (hw : w.WF size) (hn : n < size)
    (hdepth : size < depth + w.entered.length) :
    Walks edges leftOut w [n] (walk edges leftOut depth w n) := by
  induction depth generalizing w n with
  | zero =>
    have hlength := hw.length_le
    omega
  | succ depth ih =>
    unfold walk
    split
    · rename_i hskip
      exact .skip (by simpa using hskip) (.done w)
    · rename_i hskip
      obtain ⟨hkeeps, hnew⟩ : leftOut n = false ∧ n ∉ w.entered := by simpa using hskip
      have hinner := walks_foldl hedges (fun w n hw hn hd => ih hw hn hd) (hw.enter hn hnew)
        (hedges n hn) (by rw [List.length_cons]; omega)
      exact .enter hkeeps hnew hinner (.done _)

/-! ## What a walk lists -/

namespace Walks

/-- What a walk enters it leaves, too. -/
theorem exists_new (h : Walks edges leftOut w ks w') :
    ∃ new, w'.left = new ++ w.left ∧ w'.entered.Perm (new ++ w.entered) := by
  induction h with
  | done w => exact ⟨[], rfl, .refl _⟩
  | skip _ _ ih => exact ih
  | @enter w w' w'' n ks _ _ _ _ ih ih' =>
    obtain ⟨new, hleft, hperm⟩ := ih
    obtain ⟨new', hleft', hperm'⟩ := ih'
    refine ⟨new' ++ n :: new, ?_, ?_⟩
    · rw [hleft', hleft, List.append_assoc, List.cons_append]
    · rw [List.append_assoc, List.cons_append]
      exact hperm'.trans ((hperm.trans List.perm_middle).append_left new')

theorem mem_entered (h : Walks edges leftOut w ks w') (hn : n ∈ w.entered) : n ∈ w'.entered := by
  obtain ⟨new, -, hperm⟩ := h.exists_new
  exact hperm.mem_iff.2 (List.mem_append_right new hn)

/-- What is open after a walk was open before it. -/
theorem open_of_open (h : Walks edges leftOut w ks w') (hn : n ∈ w'.entered) (hopen : n ∉ w'.left) :
    n ∈ w.entered ∧ n ∉ w.left := by
  obtain ⟨new, hleft, hperm⟩ := h.exists_new
  rw [hleft, List.mem_append, not_or] at hopen
  exact ⟨(List.mem_append.1 (hperm.mem_iff.1 hn)).resolve_left hopen.1, hopen.2⟩

theorem visited (h : Walks edges leftOut w ks w') :
    ∀ k ∈ ks, leftOut k = true ∨ k ∈ w'.entered := by
  induction h with
  | done => exact nofun
  | skip hskip hrest ih =>
    intro k hk
    rcases List.mem_cons.1 hk with rfl | hk
    · exact hskip.imp_right hrest.mem_entered
    · exact ih k hk
  | enter _ _ hinner hrest _ ih' =>
    intro k hk
    rcases List.mem_cons.1 hk with rfl | hk
    · exact .inr (hrest.mem_entered (hinner.mem_entered List.mem_cons_self))
    · exact ih' k hk

/-- Only what can be reached from where a walk starts is left in it. -/
theorem reaches (h : Walks edges leftOut w ks w') : ∀ n ∈ w'.left, n ∈ w.left ∨
    ∃ k ∈ ks, Reaches (fun a b => b ∈ edges a) (leftOut · = false) k n := by
  induction h with
  | done => exact fun n hn => .inl hn
  | skip _ _ ih =>
    intro n hn
    exact (ih n hn).imp_right fun ⟨k, hk, hreaches⟩ => ⟨k, List.mem_cons_of_mem _ hk, hreaches⟩
  | @enter w w' w'' n ks hkeeps _ _ _ ih ih' =>
    intro j hj
    rcases ih' j hj with hj | ⟨k, hk, hreaches⟩
    · rcases List.mem_cons.1 hj with rfl | hj
      · exact .inr ⟨j, List.mem_cons_self, .refl hkeeps⟩
      · rcases ih j hj with hj | ⟨k, hk, hreaches⟩
        · exact .inl hj
        · have hfirst : Reaches (fun a b => b ∈ edges a) (leftOut · = false) n k :=
            .step (.refl hkeeps) hk hreaches.keeps_start
          exact .inr ⟨n, List.mem_cons_self, hfirst.trans hreaches⟩
    · exact .inr ⟨k, List.mem_cons_of_mem n hk, hreaches⟩

end Walks

/-- What a node needs was left before it (comes behind it in the list), unless it reaches the
node. -/
def IsOrdered (edges : Nat → List Nat) (leftOut : Nat → Bool) (left : List Nat) : Prop :=
  ∀ front u back, left = front ++ u :: back → ∀ v ∈ edges u, leftOut v = true ∨ v ∈ back ∨
    Reaches (fun a b => b ∈ edges a) (leftOut · = false) v u

/-- All that is open reaches some nodes. -/
def OpenReaches (edges : Nat → List Nat) (leftOut : Nat → Bool) (w : Walk) (ks : List Nat) : Prop :=
  ∀ o ∈ w.entered, o ∉ w.left → ∀ k ∈ ks, leftOut k = false →
    Reaches (fun a b => b ∈ edges a) (leftOut · = false) o k

/-- What is open when a node is entered reaches what this node needs. -/
theorem OpenReaches.enter (h : OpenReaches edges leftOut w (n :: ks)) (hkeeps : leftOut n = false) :
    OpenReaches edges leftOut { w with entered := n :: w.entered } (edges n) := by
  intro o ho hopen k hk hkeeps'
  rcases List.mem_cons.1 ho with rfl | ho
  · exact .step (.refl hkeeps) hk hkeeps'
  · exact (h o ho hopen n List.mem_cons_self hkeeps).step hk hkeeps'

/-- When a node is left, what it needs was left before or is open, as it was when the node was
entered. -/
theorem IsOrdered.leave (h : IsOrdered edges leftOut w'.left)
    (hopen : OpenReaches edges leftOut w (n :: ks)) (hkeeps : leftOut n = false)
    (hinner : Walks edges leftOut { w with entered := n :: w.entered } (edges n) w') :
    IsOrdered edges leftOut (n :: w'.left) := by
  intro front u back hsplit v hv
  cases front with
  | cons a front => exact h front u back (List.cons.inj hsplit).2 v hv
  | nil =>
    obtain ⟨rfl, rfl⟩ := List.cons.inj hsplit
    rcases hinner.visited v hv with hout | hentered
    · exact .inl hout
    · by_cases hleft : v ∈ w'.left
      · exact .inr (.inl hleft)
      · obtain ⟨hv', hleft'⟩ := hinner.open_of_open hentered hleft
        rcases List.mem_cons.1 hv' with rfl | hv'
        · exact .inr (.inr (.refl hkeeps))
        · exact .inr (.inr (hopen v hv' hleft' n List.mem_cons_self hkeeps))

theorem Walks.isOrdered (h : Walks edges leftOut w ks w') (hopen : OpenReaches edges leftOut w ks)
    (hordered : IsOrdered edges leftOut w.left) : IsOrdered edges leftOut w'.left := by
  induction h with
  | done => exact hordered
  | skip _ _ ih =>
    exact ih (fun o ho hleft k hk => hopen o ho hleft k (List.mem_cons_of_mem _ hk)) hordered
  | @enter w w' w'' n ks hkeeps _ hinner _ ih ih' =>
    refine ih' (fun o ho hleft k hk => ?_)
      ((ih (hopen.enter hkeeps) hordered).leave hopen hkeeps hinner)
    -- What is open now is not the node that was just left, so it was open before.
    rw [List.mem_cons, not_or] at hleft
    obtain ⟨hne, hleft⟩ := hleft
    obtain ⟨ho, hleft⟩ := hinner.open_of_open ho hleft
    exact hopen o ((List.mem_cons.1 ho).resolve_left hne) hleft k (List.mem_cons_of_mem n hk)

section

variable (hedges : ∀ n < size, ∀ k ∈ edges n, k < size) (hroot : root < size)

include hedges hroot

theorem walks_order (leftOut : Nat → Bool) :
    ∃ w, Walks edges leftOut {} [root] w ∧ order size edges leftOut root = w.left.reverse :=
  ⟨_, walks_walk hedges ⟨List.nodup_nil, nofun⟩ hroot (by simp), rfl⟩

/-- Just the nodes are listed that the root reaches. -/
theorem mem_order_iff : n ∈ order size edges leftOut root ↔
    Reaches (fun a b => b ∈ edges a) (leftOut · = false) root n := by
  constructor
  · intro hn
    obtain ⟨w, hw, horder⟩ := walks_order hedges hroot leftOut
    rw [horder, List.mem_reverse] at hn
    obtain ⟨k, hk, hreaches⟩ := (hw.reaches n hn).resolve_left List.not_mem_nil
    exact List.mem_singleton.1 hk ▸ hreaches
  · intro hreaches
    induction hreaches with
    | refl hkeeps => exact mem_order_root hedges hroot hkeeps
    | step _ hedge hkeeps ih =>
      refine (mem_order_of_mem_edges hedges hroot ih hedge).resolve_left ?_
      rw [hkeeps]
      exact Bool.false_ne_true

/-- What a node needs is listed before it, unless it reaches the node. -/
theorem sublist_order (hn : n ∈ order size edges leftOut root) (hk : k ∈ edges n)
    (hkeeps : leftOut k = false) : [k, n].Sublist (order size edges leftOut root) ∨
      Reaches (fun a b => b ∈ edges a) (leftOut · = false) k n := by
  obtain ⟨w, hw, horder⟩ := walks_order hedges hroot leftOut
  rw [horder] at hn ⊢
  obtain ⟨front, back, hsplit⟩ := List.append_of_mem (List.mem_reverse.1 hn)
  have hordered := hw.isOrdered nofun (fun front _ _ h => by simp at h)
  rcases hordered front n back hsplit k hk with hout | hback | hreaches
  · rw [hkeeps] at hout
    cases hout
  · left
    have hpair : [n, k].Sublist w.left := by
      rw [hsplit]
      exact (List.cons_sublist_cons.2 (List.singleton_sublist.2 hback)).trans
        (List.sublist_append_right front _)
    exact hpair.reverse
  · exact .inr hreaches

end

theorem order_eq_nil (hout : leftOut root = true) : order size edges leftOut root = [] := by
  unfold order walk
  simp [hout]

end DepthFirst

/-! ## The static order of a graph -/

namespace ModuleGraph

variable {g : ModuleGraph} {root j k : Nat} {leftOut : List Nat}

/-- A module needs another one before it runs: one of its imports, not made while it runs, means
it. -/
def Needs (g : ModuleGraph) (j k : Nat) : Prop :=
  ∃ m d, g.modules[j]? = some m ∧ (d, k) ∈ m.imports.zip m.targets ∧
    (d.kind = .static ∨ d.kind = .require)

theorem mem_staticEdges_iff : k ∈ g.staticEdges j ↔ g.Needs j k := by
  unfold staticEdges Needs
  cases hm : g.modules[j]? with
  | none => simp
  | some m => simp [BundledModule.mem_edges]

/-- A way over modules that need each other, past those that are left out. -/
def NeedsAtLast (g : ModuleGraph) (leftOut : List Nat) : Nat → Nat → Prop :=
  DepthFirst.Reaches g.Needs (· ∉ leftOut)

/-- An order of what a root needs before it runs: what a depth-first walk from it leaves, one after
the other. -/
structure IsDependencyOrder (g : ModuleGraph) (root : Nat) (leftOut order : List Nat) : Prop where
  /-- The walk comes to its end, and leaves the modules in this order. -/
  ends : ∃ w, DepthFirst.Walks g.staticEdges leftOut.contains {} [root] w ∧
    order = w.left.reverse
  nodup : order.Nodup
  mem_iff : ∀ n, n ∈ order ↔ g.NeedsAtLast leftOut root n
  nil : root ∈ leftOut → order = []
  last : root ∉ leftOut → order.getLast? = some root
  /-- What a module needs comes before it, unless it needs the module itself at last. -/
  ordered : ∀ u ∈ order, ∀ v ∈ order, g.Needs u v →
    [v, u].Sublist order ∨ g.NeedsAtLast leftOut v u

theorem isDependencyOrder_staticOrder
    (hg : ∀ m ∈ g.modules, ∀ k ∈ m.targets, k < g.modules.size) (hroot : root < g.modules.size)
    (leftOut : List Nat) :
    g.IsDependencyOrder root leftOut (g.staticOrder root leftOut) := by
  have hedges : ∀ n < g.modules.size, ∀ k ∈ g.staticEdges n, k < g.modules.size := by
    intro n _ k hk
    obtain ⟨m, d, hm, hd, -⟩ := mem_staticEdges_iff.1 hk
    exact hg m (Array.mem_of_getElem? hm) k (List.of_mem_zip hd).2
  have hneeds : (fun a b => b ∈ g.staticEdges a) = g.Needs :=
    funext fun a => funext fun b => propext mem_staticEdges_iff
  have hkeeps : (leftOut.contains · = false) = (· ∉ leftOut) :=
    funext fun n => by simp
  have hreaches : DepthFirst.Reaches (fun a b => b ∈ g.staticEdges a)
      (leftOut.contains · = false) = g.NeedsAtLast leftOut := by
    rw [hneeds, hkeeps]
    rfl
  have hmem : ∀ n, n ∈ g.staticOrder root leftOut ↔ g.NeedsAtLast leftOut root n := fun n => by
    rw [← hreaches]
    exact DepthFirst.mem_order_iff hedges hroot
  refine ⟨DepthFirst.walks_order hedges hroot _, DepthFirst.nodup_order hedges hroot, hmem,
    fun hout => ?_, fun hout => ?_, fun u hu v hv huv => ?_⟩
  · exact DepthFirst.order_eq_nil (List.contains_iff_mem.2 hout)
  · exact DepthFirst.getLast?_order (by simpa using hout)
  · rw [← hreaches]
    refine DepthFirst.sublist_order hedges hroot hu (mem_staticEdges_iff.2 huv) ?_
    have hkept : v ∉ leftOut := by
      cases (hmem v).1 hv with
      | refl hkept => exact hkept
      | step _ _ hkept => exact hkept
    simpa using hkept

/-- A module that depends on others. -/
def moduleWith (edges : List (DependencyKind × Nat)) : BundledModule :=
  { id := "", path := ⟨""⟩, code := ""
    imports := edges.map fun e => { kind := e.1, specifier := "" }
    targets := edges.map (·.2) }

/-- Two modules that need each other, one of which needs itself, and more behind them. -/
def tangled : ModuleGraph := { modules := #[
  moduleWith [(.static, 1), (.dynamic, 4), (.static, 3)],
  moduleWith [(.require, 2)],
  moduleWith [(.static, 2), (.static, 3), (.static, 1)],
  moduleWith [(.static, 4)],
  moduleWith []] }

theorem isDependencyOrder_staticOrder_tangled :
    tangled.staticOrder 0 [3] = [2, 1, 0] ∧
      tangled.IsDependencyOrder 0 [3] (tangled.staticOrder 0 [3]) :=
  ⟨by decide, isDependencyOrder_staticOrder (by decide) (by decide) [3]⟩

end ModuleGraph

end ModuleWorkers
