import Mathlib.Logic.Relation
import ModuleWorkers.Proofs.Bundle.Loading

/-!
# Breadth first

A breadth-first search keeps the modules that were found and a queue of imports that have still to
be looked at (`ModuleLoader.Searches`). Loading does not keep the queue: it is what is left of the
imports of the module whose targets are found, and then the imports of the modules behind it. A
target that is found takes one step of the search (`ModuleLoader.Searches.target`), so a load ends
well when the queue is empty (`ModuleLoader.searches_of_expandWithin`), and it fails with what is
wrong with the first import in the queue (`ModuleLoader.isFirstError_of_expandWithin`).
-/

namespace ModuleWorkers

open Script (Dependency)

/-- The imports of a module, each with the file that it is in. -/
def BundledModule.asked (m : BundledModule) : List (Path × Dependency) := m.imports.map (m.path, ·)

namespace ModuleLoader

variable {l : ModuleLoader} {entry file path : Path} {d : Dependency} {ds : List Dependency}
  {queue : List (Path × Dependency)} {ms : List BundledModule} {m n : BundledModule}
  {g g' : ModuleGraph} {mapFile : Option Path} {e : BundleError} {index k steps : Nat}
  {ks : List Nat}

/-! ## The search -/

/-- The modules that a breadth-first search found, and the imports that it looks at next. -/
inductive Searches (l : ModuleLoader) (entry : Path) :
    List BundledModule → List (Path × Dependency) → Prop
  | start {m : BundledModule} {mapFile : Option Path} : l.readModule entry = .ok (m, mapFile) →
      Searches l entry [m] m.asked
  /-- The first import means a module that was found before. -/
  | known {ms : List BundledModule} {file path : Path} {d : Dependency}
      {queue : List (Path × Dependency)} : Searches l entry ms ((file, d) :: queue) →
      (l.resolve d.specifier file).found = some path → (∃ m ∈ ms, (m.path == path) = true) →
      Searches l entry ms queue
  /-- The first import means a file that is read, and its imports come last. -/
  | new {ms : List BundledModule} {file path : Path} {d : Dependency}
      {queue : List (Path × Dependency)} {m : BundledModule} {mapFile : Option Path} :
      Searches l entry ms ((file, d) :: queue) →
      (l.resolve d.specifier file).found = some path → (∀ m ∈ ms, (m.path == path) = false) →
      l.readModule path = .ok (m, mapFile) → Searches l entry (ms ++ [m]) (queue ++ m.asked)

/-- What is wrong with an import when some modules were found: it means no file, or one that cannot
be read. -/
def IsWrong (l : ModuleLoader) (ms : List BundledModule) (file : Path) (d : Dependency)
    (e : BundleError) : Prop :=
  ((l.resolve d.specifier file).found = none ∧ e = .unresolved d.specifier file) ∨
    ∃ path, (l.resolve d.specifier file).found = some path ∧
      (∀ m ∈ ms, (m.path == path) = false) ∧ l.readModule path = .error e

/-- The first error of a breadth-first search: the entry cannot be read, or else the search comes to
an import that is wrong. -/
def IsFirstError (l : ModuleLoader) (entry : Path) (e : BundleError) : Prop :=
  l.readModule entry = .error e ∨ ∃ ms file d queue,
    l.Searches entry ms ((file, d) :: queue) ∧ l.IsWrong ms file d e

/-- One module imports another one. -/
def Imports (l : ModuleLoader) (ms : List BundledModule) (m n : BundledModule) : Prop :=
  m ∈ ms ∧ n ∈ ms ∧ ∃ d ∈ m.imports, (l.resolve d.specifier m.path).found = some n.path

namespace Searches

/-- What is looked at are imports of modules that were found. -/
theorem exists_of_mem_queue (h : l.Searches entry ms queue) (hx : (file, d) ∈ queue) :
    ∃ m ∈ ms, m.path = file ∧ d ∈ m.imports := by
  have hasked : ∀ {m : BundledModule}, (file, d) ∈ m.asked → m.path = file ∧ d ∈ m.imports := by
    intro m hx
    obtain ⟨d, hd, heq⟩ := List.mem_map.1 hx
    obtain ⟨rfl, rfl⟩ := Prod.mk.inj heq
    exact ⟨rfl, hd⟩
  induction h with
  | start _ => exact ⟨_, List.mem_singleton_self _, hasked hx⟩
  | known _ _ _ ih => exact ih (List.mem_cons_of_mem _ hx)
  | new _ _ _ _ ih =>
    rcases List.mem_append.1 hx with hx | hx
    · obtain ⟨m, hm, hx⟩ := ih (List.mem_cons_of_mem _ hx)
      exact ⟨m, List.mem_append_left _ hm, hx⟩
    · exact ⟨_, List.mem_append_right _ (List.mem_singleton_self _), hasked hx⟩

theorem isRead (h : l.Searches entry ms queue) :
    ∀ m ∈ ms, ∃ mapFile, l.readModule m.path = .ok (m, mapFile) := by
  have hread : ∀ {path m mapFile}, l.readModule path = .ok (m, mapFile) →
      ∃ mapFile, l.readModule m.path = .ok (m, mapFile) := by
    intro path m mapFile hm
    obtain ⟨rfl, -, -⟩ := readModule_spec hm
    exact ⟨mapFile, hm⟩
  induction h with
  | start hm => exact fun n hn => List.mem_singleton.1 hn ▸ hread hm
  | known _ _ _ ih => exact ih
  | new _ _ _ hm ih =>
    intro n hn
    rcases List.mem_append.1 hn with hn | hn
    · exact ih n hn
    · exact List.mem_singleton.1 hn ▸ hread hm

/-- No file is found twice. -/
theorem pairwise (h : l.Searches entry ms queue) :
    ms.Pairwise fun m n => (m.path == n.path) = false := by
  induction h with
  | start _ => exact List.pairwise_singleton _ _
  | known _ _ _ ih => exact ih
  | new _ _ hnew hm ih =>
    obtain ⟨rfl, -, -⟩ := readModule_spec hm
    refine List.pairwise_append.2 ⟨ih, List.pairwise_singleton _ _, fun m hm' n hn => ?_⟩
    exact List.mem_singleton.1 hn ▸ hnew m hm'

/-- All that was found is imported by way of modules that were found, starting with the entry. -/
theorem exists_chain (h : l.Searches entry ms queue) : ∃ first rest, ms = first :: rest ∧
    first.path = entry ∧ ∀ m ∈ ms, Relation.ReflTransGen (l.Imports ms) first m := by
  induction h with
  | @start m mapFile hm =>
    refine ⟨m, [], rfl, (readModule_spec hm).1, fun n hn => ?_⟩
    exact List.mem_singleton.1 hn ▸ .refl
  | known _ _ _ ih => exact ih
  | @new ms file path d queue m mapFile hs hfound _ hm ih =>
    obtain ⟨first, rest, hms, hfirst, hchain⟩ := ih
    refine ⟨first, rest ++ [m], by rw [hms]; rfl, hfirst, fun n hn => ?_⟩
    have himports : ∀ a b, l.Imports ms a b → l.Imports (ms ++ [m]) a b := fun a b ⟨ha, hb, hd⟩ =>
      ⟨List.mem_append_left _ ha, List.mem_append_left _ hb, hd⟩
    have hmono : ∀ n ∈ ms, Relation.ReflTransGen (l.Imports (ms ++ [m])) first n :=
      fun n hn => Relation.ReflTransGen.mono himports first n (hchain n hn)
    rcases List.mem_append.1 hn with hn | hn
    · exact hmono n hn
    · obtain ⟨m', hm', rfl, hd⟩ := hs.exists_of_mem_queue List.mem_cons_self
      obtain rfl := List.mem_singleton.1 hn
      refine (hmono m' hm').tail ⟨List.mem_append_left _ hm', List.mem_append_right _ hn, d, hd, ?_⟩
      rw [(readModule_spec hm).1]
      exact hfound

end Searches

end ModuleLoader

/-! ## Loading searches breadth first -/

namespace ModuleGraph

/-- The modules of a graph as they were read. -/
def found (g : ModuleGraph) : List BundledModule := g.modules.toList.map (·.untargeted)

/-- The imports of the modules from an index on. -/
def asked (g : ModuleGraph) (index : Nat) : List (Path × Dependency) :=
  (g.found.drop index).flatMap (·.asked)

variable {g g' : ModuleGraph} {index : Nat} {m : BundledModule}

@[simp] theorem found_watch (g : ModuleGraph) (files : List Path) :
    (g.watch files).found = g.found := rfl

theorem length_found (g : ModuleGraph) : g.found.length = g.modules.size := by
  rw [found, List.length_map, Array.length_toList]

theorem forall_mem_found {P : BundledModule → Prop} :
    (∀ m ∈ g.found, P m) ↔ ∀ m ∈ g.modules, P m.untargeted := by
  simp [found]

theorem ne_of_mem_found {file : Path} (h : g.indexOf? file = none) :
    ∀ m ∈ g.found, (m.path == file) = false := by
  refine forall_mem_found.2 fun m hm => ?_
  have hpath : (m.path == file) = false := ne_of_indexOf?_eq_none h hm
  exact hpath

theorem found_setTargets (g : ModuleGraph) (index : Nat) (targets : List Nat) :
    ({ g with modules := g.modules.modify index fun m => { m with targets } } : ModuleGraph).found =
      g.found := by
  refine List.ext_getElem? fun k => ?_
  simp only [found, List.getElem?_map, Array.getElem?_toList, Array.getElem?_modify]
  split
  · rw [Option.map_map]
    rfl
  · rfl

theorem asked_of_found_eq (hindex : index ≤ g.modules.size) (h : g'.found = g.found ++ [m]) :
    g'.asked index = g.asked index ++ m.asked := by
  rw [asked, asked, h, List.drop_append_of_le_length (hindex.trans_eq g.length_found.symm),
    List.flatMap_append, List.flatMap_singleton]

/-- The imports of a module come before those of the modules behind it. -/
theorem asked_eq (hm : g.modules[index]? = some m) :
    g.asked index = m.asked ++ g.asked (index + 1) := by
  have hfound : g.found[index]? = some m.untargeted := by
    rw [found, List.getElem?_map, Array.getElem?_toList, hm]
    rfl
  obtain ⟨hindex, hget⟩ := List.getElem?_eq_some_iff.1 hfound
  rw [asked, List.drop_eq_getElem_cons hindex, hget, List.flatMap_cons]
  rfl

theorem asked_eq_nil (h : g.modules[index]? = none) : g.asked index = [] := by
  rw [Array.getElem?_eq_none_iff, ← length_found] at h
  rw [asked, List.drop_eq_nil_of_le h]
  rfl

theorem Appends.size_le (h : g.Appends g') : g.modules.size ≤ g'.modules.size := by
  by_contra hlt
  have hlast : g.modules[g'.modules.size]? = some g.modules[g'.modules.size] :=
    Array.getElem?_eq_getElem (by omega)
  exact absurd (Array.getElem?_eq_some_iff.1 (h.kept _ _ hlast)).1 (Nat.lt_irrefl _)

end ModuleGraph

namespace ModuleLoader

variable {l : ModuleLoader} {entry file : Path} {d : Dependency} {ds : List Dependency}
  {rest : List (Path × Dependency)} {m : BundledModule} {g g' : ModuleGraph} {e : BundleError}
  {index k steps : Nat} {ks : List Nat}

theorem exists_found_of_add (h : l.add g file = .ok g') : ∃ m mapFile,
    l.readModule file = .ok (m, mapFile) ∧ g'.found = g.found ++ [m] := by
  obtain ⟨m, mapFile, hread, rfl⟩ := add_eq_ok h
  refine ⟨m, mapFile, hread, ?_⟩
  have huntargeted : m.untargeted = m := by
    rw [BundledModule.untargeted, ← (readModule_spec hread).2.2]
  simp [ModuleGraph.found, huntargeted]

theorem add_eq_error (h : l.add g file = .error e) : l.readModule file = .error e := by
  rcases exists_of_bind_eq_error h with h | ⟨a, -, h⟩
  · exact h
  · cases h

/-- To find a target is a step of the search. -/
theorem Searches.target (h : l.Searches entry g.found ((file, d) :: (rest ++ g.asked index)))
    (hindex : index ≤ g.modules.size) (ht : l.target file g d = .ok (k, g')) :
    l.Searches entry g'.found (rest ++ g'.asked index) := by
  obtain ⟨path, hfound, ⟨hk, rfl⟩ | ⟨hk, -, hadd⟩⟩ := target_eq_ok ht
  · obtain ⟨m, hm, hpath⟩ := ModuleGraph.exists_of_indexOf? hk
    have hmem := ModuleGraph.forall_mem_found.1 (fun _ hm => hm) m (Array.mem_of_getElem? hm)
    exact h.known hfound ⟨_, hmem, hpath⟩
  · obtain ⟨m, mapFile, hread, hfound'⟩ := exists_found_of_add hadd
    rw [ModuleGraph.found_watch] at hfound'
    rw [ModuleGraph.asked_of_found_eq hindex hfound', hfound', ← List.append_assoc]
    exact h.new hfound (ModuleGraph.ne_of_mem_found hk) hread

theorem isWrong_of_target (ht : l.target file g d = .error e) : l.IsWrong g.found file d e := by
  unfold target at ht
  dsimp only at ht
  split at ht
  · rename_i hnone
    cases ht
    exact .inl ⟨hnone, rfl⟩
  · rename_i path hfound
    split at ht
    · cases ht
    · rename_i hk
      rcases exists_of_bind_eq_error ht with hadd | ⟨g', -, ht⟩
      · exact .inr ⟨path, hfound, ModuleGraph.ne_of_mem_found hk, add_eq_error hadd⟩
      · cases ht

theorem Searches.targets
    (h : l.Searches entry g.found (ds.map (file, ·) ++ g.asked index))
    (hindex : index ≤ g.modules.size) (ht : l.targets file g ds = .ok (ks, g')) :
    l.Searches entry g'.found (g'.asked index) := by
  induction ds generalizing g ks with
  | nil =>
    cases ht
    exact h
  | cons d ds ih =>
    obtain ⟨k, g₁, js, hk, hks, -⟩ := targets_cons_eq_ok ht
    exact ih (h.target hindex hk) (hindex.trans (appends_of_target hk).size_le) hks

theorem Searches.isFirstError_of_targets
    (h : l.Searches entry g.found (ds.map (file, ·) ++ g.asked index))
    (hindex : index ≤ g.modules.size) (ht : l.targets file g ds = .error e) :
    l.IsFirstError entry e := by
  induction ds generalizing g with
  | nil => cases ht
  | cons d ds ih =>
    rcases exists_of_bind_eq_error ht with hd | ⟨⟨k, g₁⟩, hk, ht⟩
    · exact .inr ⟨_, _, _, _, h, isWrong_of_target hd⟩
    · rcases exists_of_bind_eq_error ht with hds | ⟨⟨ks, g₂⟩, -, ht⟩
      · exact ih (h.target hindex hk) (hindex.trans (appends_of_target hk).size_le) hds
      · cases ht

/-- To find the targets of the next module is to look at all its imports. -/
theorem Searches.setTargets (h : l.Searches entry g.found (g.asked index))
    (hm : g.modules[index]? = some m) (ht : l.targets m.path g m.imports = .ok (ks, g')) :
    l.Searches entry
      ({ g' with modules := g'.modules.modify index fun m => { m with targets := ks } } :
        ModuleGraph).found
      (({ g' with modules := g'.modules.modify index fun m => { m with targets := ks } } :
        ModuleGraph).asked (index + 1)) := by
  have hindex := (Array.getElem?_eq_some_iff.1 hm).1
  rw [ModuleGraph.asked_eq hm] at h
  rw [ModuleGraph.asked, ModuleGraph.found_setTargets]
  exact h.targets hindex ht

/-- In each step of a walk the targets of one module are found, or it fails with the first error. -/
theorem searches_of_expandWithin (h : l.Searches entry g.found (g.asked index))
    (hr : l.expandWithin steps index g = some (.ok g')) : l.Searches entry g'.found [] := by
  induction steps generalizing index g with
  | zero => cases hr
  | succ steps ih =>
    obtain ⟨hnone, rfl⟩ | ⟨n, m, ks, g₁, hn, hm, hks, hrest⟩ := expandWithin_cases hr
    · exact ModuleGraph.asked_eq_nil hnone ▸ h
    · cases hn
      exact ih (h.setTargets hm hks) hrest

theorem isFirstError_of_expandWithin (h : l.Searches entry g.found (g.asked index))
    (hr : l.expandWithin steps index g = some (.error e)) : l.IsFirstError entry e := by
  induction steps generalizing index g with
  | zero => cases hr
  | succ steps ih =>
    rw [expandWithin] at hr
    split at hr
    · cases hr
    · rename_i m hm
      split at hr
      · rename_i hks
        cases hr
        rw [ModuleGraph.asked_eq hm] at h
        exact h.isFirstError_of_targets (Array.getElem?_eq_some_iff.1 hm).1 hks
      · rename_i ks g₁ hks
        exact ih (h.setTargets hm hks) hr

theorem searches_of_add (h : l.add {} entry = .ok g) :
    l.Searches entry g.found (g.asked 0) := by
  obtain ⟨m, mapFile, hread, hfound⟩ := exists_found_of_add h
  have hasked := ModuleGraph.asked_of_found_eq (g := {}) (Nat.zero_le _) hfound
  rw [hasked, hfound]
  exact .start hread

end ModuleLoader

end ModuleWorkers
