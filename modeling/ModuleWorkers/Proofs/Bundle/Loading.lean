import Mathlib.Data.List.Forall2
import ModuleWorkers.Bundle.Loading
import ModuleWorkers.Proofs.Path.Order
import ModuleWorkers.Proofs.SourceMap.Composition

/-!
# Loaded graphs

What can be relied on of a graph that was loaded (`ModuleLoader.loaded_of_load`): it starts with the
entry, no file is in it twice, each module is what its file reads as, the targets of a module are
the modules that its imports mean, one for each import and in their order, and all that was read on
the way is watched.

Modules are added while the targets of another one are found, so the invariant of loading
(`ModuleLoader.Loading`) speaks of targets only up to an index. Finding a target keeps it and leaves
the modules that are there alone (`ModuleGraph.Appends`); from one module to the next only targets
change (`ModuleGraph.Grows`).
-/

namespace ModuleWorkers

open Script (Dependency)

theorem PathSet.contains_foldl_insert (ps : List Path) (s : PathSet) (q : Path) :
    (ps.foldl (fun s p => PathSet.insert p s) s).contains q = (ps.contains q || s.contains q) := by
  induction ps generalizing s with
  | nil => rfl
  | cons p ps ih =>
    rw [List.foldl_cons, ih, PathSet.contains_insert, List.contains_cons, BEq.comm (a := q),
      Bool.or_left_comm, Bool.or_assoc]

namespace BundledModule

variable {m n : BundledModule}

/-- A module as it is read, before its targets are found. -/
def untargeted (m : BundledModule) : BundledModule := { m with targets := [] }

theorem untargeted_eq_iff : m.untargeted = n.untargeted ↔ m.id = n.id ∧ m.path = n.path ∧
    m.code = n.code ∧ m.isJson = n.isJson ∧ m.imports = n.imports ∧ m.inputMap = n.inputMap := by
  simp [untargeted]

theorem path_of_untargeted (h : m.untargeted = n.untargeted) : m.path = n.path :=
  (untargeted_eq_iff.1 h).2.1

theorem imports_of_untargeted (h : m.untargeted = n.untargeted) : m.imports = n.imports :=
  (untargeted_eq_iff.1 h).2.2.2.2.1

end BundledModule

namespace ModuleGraph

variable {g g' g'' : ModuleGraph} {file : Path} {k : Nat} {m : BundledModule}

@[simp] theorem modules_watch (g : ModuleGraph) (files : List Path) :
    (g.watch files).modules = g.modules := rfl

@[simp] theorem contains_watch (g : ModuleGraph) (files : List Path) (p : Path) :
    (g.watch files).watchFiles.contains p = (files.contains p || g.watchFiles.contains p) :=
  PathSet.contains_foldl_insert ..

theorem exists_of_indexOf? (h : g.indexOf? file = some k) :
    ∃ m, g.modules[k]? = some m ∧ (m.path == file) = true := by
  obtain ⟨hk, hpath, -⟩ := Array.findIdx?_eq_some_iff_getElem.1 h
  exact ⟨_, Array.getElem?_eq_getElem hk, hpath⟩

theorem ne_of_indexOf?_eq_none (h : g.indexOf? file = none) (hm : m ∈ g.modules) :
    (m.path == file) = false := by
  simpa using Array.findIdx?_eq_none_iff.1 h m hm

/-- A graph to which modules may have been added, with more files that are watched. -/
structure Appends (g g' : ModuleGraph) : Prop where
  kept : ∀ (k : Nat) (m : BundledModule), g.modules[k]? = some m → g'.modules[k]? = some m
  watched : ∀ p, g.watchFiles.contains p = true → g'.watchFiles.contains p = true

namespace Appends

theorem refl (g : ModuleGraph) : g.Appends g := ⟨fun _ _ => id, fun _ => id⟩

theorem trans (h : g.Appends g') (h' : g'.Appends g'') : g.Appends g'' :=
  ⟨fun k m hm => h'.kept k m (h.kept k m hm), fun p hp => h'.watched p (h.watched p hp)⟩

theorem mem (h : g.Appends g') (hm : m ∈ g.modules) : m ∈ g'.modules := by
  obtain ⟨k, hk⟩ := Array.mem_iff_getElem?.1 hm
  exact Array.mem_of_getElem? (h.kept k m hk)

theorem watch (g : ModuleGraph) (files : List Path) : g.Appends (g.watch files) :=
  ⟨fun _ _ => id, fun p hp => by simp [hp]⟩

theorem push (g : ModuleGraph) (m : BundledModule) :
    g.Appends { g with modules := g.modules.push m } := by
  refine ⟨fun k n hn => ?_, fun _ => id⟩
  obtain ⟨hk, -⟩ := Array.getElem?_eq_some_iff.1 hn
  rw [Array.getElem?_push, if_neg (by omega), hn]

end Appends

/-- A graph in which besides targets may have been found. -/
structure Grows (g g' : ModuleGraph) : Prop where
  modules : ∀ (k : Nat) (m : BundledModule), g.modules[k]? = some m →
    ∃ targets, g'.modules[k]? = some { m with targets }
  watched : ∀ p, g.watchFiles.contains p = true → g'.watchFiles.contains p = true

namespace Grows

theorem refl (g : ModuleGraph) : g.Grows g := ⟨fun _ m hm => ⟨m.targets, hm⟩, fun _ => id⟩

theorem trans (h : g.Grows g') (h' : g'.Grows g'') : g.Grows g'' := by
  refine ⟨fun k m hm => ?_, fun p hp => h'.watched p (h.watched p hp)⟩
  obtain ⟨ts, hm'⟩ := h.modules k m hm
  exact h'.modules k { m with targets := ts } hm'

theorem exists_mem (h : g.Grows g') (hm : m ∈ g.modules) :
    ∃ targets, { m with targets } ∈ g'.modules := by
  obtain ⟨k, hk⟩ := Array.mem_iff_getElem?.1 hm
  obtain ⟨targets, hm'⟩ := h.modules k m hk
  exact ⟨targets, Array.mem_of_getElem? hm'⟩

theorem setTargets (g : ModuleGraph) (index : Nat) (targets : List Nat) :
    g.Grows { g with modules := g.modules.modify index fun m => { m with targets } } := by
  refine ⟨fun k m hm => ?_, fun _ => id⟩
  rw [Array.getElem?_modify]
  split
  · exact ⟨targets, by rw [hm]; rfl⟩
  · exact ⟨m.targets, hm⟩

end Grows

theorem Appends.grows (h : g.Appends g') : g.Grows g' :=
  ⟨fun k m hm => ⟨m.targets, h.kept k m hm⟩, h.watched⟩

end ModuleGraph

namespace ModuleLoader

variable {l : ModuleLoader} {g g' : ModuleGraph} {file entry : Path} {d : Dependency}
  {ds : List Dependency} {index k : Nat} {ks : List Nat} {m : BundledModule} {mapFile : Option Path}

/-! ## What the parts of loading do -/

theorem readModule_spec (h : l.readModule file = .ok (m, mapFile)) :
    m.path = file ∧ m.id = BundledModule.idOf l.root file ∧ m.targets = [] := by
  unfold readModule at h
  split at h
  · cases h
  · dsimp only at h
    split at h
    · cases h
      exact ⟨rfl, rfl, rfl⟩
    · unfold readScript at h
      split at h
      · cases h
      · cases h
        exact ⟨rfl, rfl, rfl⟩

theorem add_eq_ok (h : l.add g file = .ok g') : ∃ m mapFile,
    l.readModule file = .ok (m, mapFile) ∧
      g' = { g with modules := g.modules.push m }.watch (file :: mapFile.toList) := by
  obtain ⟨⟨m, mapFile⟩, hread, h⟩ := exists_of_bind_eq_ok h
  cases h
  exact ⟨m, mapFile, hread, rfl⟩

/-- The target of an import is a module that is there, or else one that is added at the end. -/
theorem target_eq_ok (h : l.target file g d = .ok (k, g')) : ∃ path,
    (l.resolve d.specifier file).found = some path ∧
      ((g.indexOf? path = some k ∧ g' = g.watch (l.resolve d.specifier file).read) ∨
        (g.indexOf? path = none ∧ k = g.modules.size ∧
          l.add (g.watch (l.resolve d.specifier file).read) path = .ok g')) := by
  unfold target at h
  dsimp only at h
  split at h
  · cases h
  · rename_i path hfound
    refine ⟨path, hfound, ?_⟩
    split at h
    · rename_i k hk
      cases h
      exact .inl ⟨hk, rfl⟩
    · rename_i hk
      obtain ⟨g₁, hadd, h⟩ := exists_of_bind_eq_ok h
      cases h
      exact .inr ⟨hk, rfl, hadd⟩

theorem targets_cons_eq_ok (h : l.targets file g (d :: ds) = .ok (ks, g')) : ∃ k g₁ js,
    l.target file g d = .ok (k, g₁) ∧ l.targets file g₁ ds = .ok (js, g') ∧ ks = k :: js := by
  obtain ⟨⟨k, g₁⟩, hk, h⟩ := exists_of_bind_eq_ok h
  obtain ⟨⟨js, g₂⟩, hks, h⟩ := exists_of_bind_eq_ok h
  cases h
  exact ⟨k, g₁, js, hk, hks, rfl⟩

/-! ## What is there stays -/

theorem appends_of_add (h : l.add g file = .ok g') : g.Appends g' := by
  obtain ⟨m, mapFile, -, rfl⟩ := add_eq_ok h
  exact (ModuleGraph.Appends.push g m).trans (.watch _ _)

theorem appends_of_target (h : l.target file g d = .ok (k, g')) : g.Appends g' := by
  obtain ⟨path, -, ⟨-, rfl⟩ | ⟨-, -, hadd⟩⟩ := target_eq_ok h
  · exact .watch _ _
  · exact (ModuleGraph.Appends.watch _ _).trans (appends_of_add hadd)

theorem appends_of_targets (h : l.targets file g ds = .ok (ks, g')) : g.Appends g' := by
  induction ds generalizing g ks with
  | nil =>
    cases h
    exact .refl _
  | cons d ds ih =>
    obtain ⟨k, g₁, js, hk, hks, rfl⟩ := targets_cons_eq_ok h
    exact (appends_of_target hk).trans (ih hks)

/-! ## The invariant of loading -/

/-- A module is what its file reads as, and the files that were read for it are watched. -/
def IsRead (l : ModuleLoader) (g : ModuleGraph) (m : BundledModule) : Prop :=
  ∃ mapFile, l.readModule m.path = .ok (m.untargeted, mapFile) ∧
    ∀ p ∈ m.path :: mapFile.toList, g.watchFiles.contains p = true

/-- An import of a file means the module with an index. -/
def Means (l : ModuleLoader) (g : ModuleGraph) (file : Path) (d : Dependency) (k : Nat) : Prop :=
  ∃ m path, g.modules[k]? = some m ∧ (l.resolve d.specifier file).found = some path ∧
    (m.path == path) = true

/-- The files that were read to find what the imports of a module mean are watched. -/
def IsResolved (l : ModuleLoader) (g : ModuleGraph) (file : Path) (ds : List Dependency) : Prop :=
  ∀ d ∈ ds, ∀ p ∈ (l.resolve d.specifier file).read, g.watchFiles.contains p = true

/-- No file is in the graph twice. -/
def Distinct (g : ModuleGraph) : Prop :=
  ∀ (j k : Nat) (m n : BundledModule), g.modules[j]? = some m → g.modules[k]? = some n →
    (m.path == n.path) = true → j = k

/-- A graph in which the targets of the modules in front of an index were found. -/
structure Loading (l : ModuleLoader) (index : Nat) (g : ModuleGraph) : Prop where
  le : index ≤ g.modules.size
  read : ∀ (k : Nat) (m : BundledModule), g.modules[k]? = some m → l.IsRead g m
  targets : ∀ (k : Nat) (m : BundledModule), k < index → g.modules[k]? = some m →
    List.Forall₂ (l.Means g m.path) m.imports m.targets ∧ l.IsResolved g m.path m.imports
  distinct : Distinct g

/-- A graph that was loaded from an entry. -/
structure Loaded (l : ModuleLoader) (entry : Path) (g : ModuleGraph) : Prop where
  entry : ∃ m, g.modules[0]? = some m ∧ m.path = entry
  read : ∀ (k : Nat) (m : BundledModule), g.modules[k]? = some m → l.IsRead g m
  targets : ∀ (k : Nat) (m : BundledModule), g.modules[k]? = some m →
    List.Forall₂ (l.Means g m.path) m.imports m.targets
  resolved : ∀ (k : Nat) (m : BundledModule), g.modules[k]? = some m →
    l.IsResolved g m.path m.imports
  distinct : Distinct g

theorem IsRead.id_eq (h : l.IsRead g m) : m.id = BundledModule.idOf l.root m.path := by
  obtain ⟨mapFile, hread, -⟩ := h
  exact (readModule_spec hread).2.1

theorem IsRead.grows (h : l.IsRead g m) (hg : g.Grows g') : l.IsRead g' m := by
  obtain ⟨mapFile, hread, hwatch⟩ := h
  exact ⟨mapFile, hread, fun p hp => hg.watched p (hwatch p hp)⟩

theorem Means.grows (h : l.Means g file d k) (hg : g.Grows g') : l.Means g' file d k := by
  obtain ⟨m, path, hm, hfound, hpath⟩ := h
  obtain ⟨ts, hm'⟩ := hg.modules k m hm
  exact ⟨_, path, hm', hfound, hpath⟩

theorem IsResolved.grows (h : l.IsResolved g file ds) (hg : g.Grows g') :
    l.IsResolved g' file ds :=
  fun d hd p hp => hg.watched p (h d hd p hp)

namespace Loading

theorem watch (h : l.Loading index g) (files : List Path) : l.Loading index (g.watch files) := by
  have hg := (ModuleGraph.Appends.watch g files).grows
  refine ⟨h.le, fun k m hm => (h.read k m hm).grows hg, fun k m hk hm => ?_, h.distinct⟩
  obtain ⟨htargets, hresolved⟩ := h.targets k m hk hm
  exact ⟨htargets.imp fun _ _ hd => hd.grows hg, hresolved.grows hg⟩

/-- A file that is not there yet can be added. -/
theorem add (h : l.Loading index g) (hnew : ∀ m ∈ g.modules, (m.path == file) = false)
    (hadd : l.add g file = .ok g') : l.Loading index g' ∧
      ∃ m, g'.modules[g.modules.size]? = some m ∧ m.path = file := by
  have hg := appends_of_add hadd
  obtain ⟨n, mapFile, hread, rfl⟩ := add_eq_ok hadd
  obtain ⟨hpath, -, htargets⟩ := readModule_spec hread
  -- a module of the new graph is one of the old or the new one
  have hmem : ∀ (k : Nat) (m : BundledModule), (g.modules.push n)[k]? = some m →
      g.modules[k]? = some m ∨ k = g.modules.size ∧ m = n := by
    intro k m hm
    rw [Array.getElem?_push] at hm
    split at hm
    · rename_i hk
      cases hm
      exact .inr ⟨hk, rfl⟩
    · exact .inl hm
  have hfresh : ∀ (k : Nat) (m : BundledModule), g.modules[k]? = some m →
      (m.path == n.path) = false := by
    intro k m hm
    rw [hpath]
    exact hnew m (Array.mem_of_getElem? hm)
  refine ⟨⟨?_, fun k m hm => ?_, fun k m hk hm => ?_, fun j k m m' hm hm' hp => ?_⟩, n, ?_,
    hpath⟩
  · exact h.le.trans (by simp)
  · rcases hmem k m hm with hm | ⟨-, rfl⟩
    · exact (h.read k m hm).grows hg.grows
    · refine ⟨mapFile, ?_, fun p hp => ?_⟩
      · rw [hpath, hread, BundledModule.untargeted, ← htargets]
      · rw [hpath] at hp
        rw [ModuleGraph.contains_watch, List.contains_iff_exists_mem_beq.2 ⟨p, hp, BEq.rfl⟩,
          Bool.true_or]
  · rcases hmem k m hm with hm | ⟨rfl, -⟩
    · obtain ⟨htargets, hresolved⟩ := h.targets k m hk hm
      exact ⟨htargets.imp fun _ _ hd => hd.grows hg.grows, hresolved.grows hg.grows⟩
    · exact absurd h.le (by omega)
  · rcases hmem j m hm with hj | ⟨rfl, rfl⟩ <;> rcases hmem k m' hm' with hk | ⟨rfl, rfl⟩
    · exact h.distinct j k m m' hj hk hp
    · rw [hfresh j m hj] at hp
      cases hp
    · rw [BEq.comm, hfresh k m' hk] at hp
      cases hp
    · rfl
  · simp

theorem target (h : l.Loading index g) (ht : l.target file g d = .ok (k, g')) :
    l.Loading index g' ∧ l.Means g' file d k ∧ l.IsResolved g' file [d] := by
  obtain ⟨path, hfound, ⟨hk, rfl⟩ | ⟨hk, rfl, hadd⟩⟩ := target_eq_ok ht
  all_goals
    have hresolved : l.IsResolved (g.watch (l.resolve d.specifier file).read) file [d] := by
      intro d' hd p hp
      rw [List.mem_singleton.1 hd] at hp
      rw [ModuleGraph.contains_watch, List.contains_iff_exists_mem_beq.2 ⟨p, hp, BEq.rfl⟩,
        Bool.true_or]
  · obtain ⟨m, hm, hpath⟩ := ModuleGraph.exists_of_indexOf? hk
    exact ⟨h.watch _, ⟨m, path, hm, hfound, hpath⟩, hresolved⟩
  · obtain ⟨hl, m, hm, rfl⟩ :=
      (h.watch _).add (fun m hm => ModuleGraph.ne_of_indexOf?_eq_none hk hm) hadd
    exact ⟨hl, ⟨m, m.path, hm, hfound, BEq.rfl⟩, hresolved.grows (appends_of_add hadd).grows⟩

theorem targets_ok (h : l.Loading index g) (ht : l.targets file g ds = .ok (ks, g')) :
    l.Loading index g' ∧ List.Forall₂ (l.Means g' file) ds ks ∧ l.IsResolved g' file ds := by
  induction ds generalizing g ks with
  | nil =>
    cases ht
    exact ⟨h, .nil, nofun⟩
  | cons d ds ih =>
    obtain ⟨k, g₁, js, hk, hks, rfl⟩ := targets_cons_eq_ok ht
    have hg := (appends_of_targets hks).grows
    obtain ⟨h₁, hmeans, hresolved⟩ := h.target hk
    obtain ⟨h₂, hmeans', hresolved'⟩ := ih h₁ hks
    refine ⟨h₂, .cons (hmeans.grows hg) hmeans', fun e he => ?_⟩
    rcases List.mem_cons.1 he with rfl | he
    · exact (hresolved.grows hg) e List.mem_cons_self
    · exact hresolved' e he

/-- The targets of the next module are found. -/
theorem setTargets (h : l.Loading index g) (hm : g.modules[index]? = some m)
    (ht : l.targets m.path g m.imports = .ok (ks, g')) :
    l.Loading (index + 1)
      { g' with modules := g'.modules.modify index fun m => { m with targets := ks } } := by
  obtain ⟨h', hmeans, hresolved⟩ := h.targets_ok ht
  have hset := ModuleGraph.Grows.setTargets g' index ks
  have hm' := (appends_of_targets ht).kept index m hm
  have hindex : index < g'.modules.size := (Array.getElem?_eq_some_iff.1 hm').1
  -- a module is what it was up to its targets
  have hback : ∀ (k : Nat) (n : BundledModule),
      (g'.modules.modify index fun m => { m with targets := ks })[k]? = some n →
      ∃ n', g'.modules[k]? = some n' ∧ n'.untargeted = n.untargeted ∧
        n.targets = if index = k then ks else n'.targets := by
    intro k n hn
    rw [Array.getElem?_modify] at hn
    split at hn
    · rename_i hk
      obtain ⟨n', hn', rfl⟩ := Option.map_eq_some_iff.1 hn
      exact ⟨n', hn', rfl, (if_pos hk).symm⟩
    · rename_i hk
      exact ⟨n, hn, rfl, (if_neg hk).symm⟩
  refine ⟨?_, fun k n hn => ?_, fun k n hk hn => ?_, fun j k n₁ n₂ hj hk hp => ?_⟩
  · dsimp only
    rw [Array.size_modify]
    omega
  · obtain ⟨n', hn', hread, -⟩ := hback k n hn
    obtain ⟨mapFile, hfile, hwatch⟩ := h'.read k n' hn'
    rw [BundledModule.path_of_untargeted hread, hread] at hfile
    rw [BundledModule.path_of_untargeted hread] at hwatch
    exact ⟨mapFile, hfile, hwatch⟩
  · obtain ⟨n', hn', hread, htargets⟩ := hback k n hn
    rw [← BundledModule.path_of_untargeted hread, ← BundledModule.imports_of_untargeted hread,
      htargets]
    split
    · rename_i hk
      subst hk
      rw [hm'] at hn'
      cases hn'
      exact ⟨hmeans.imp fun _ _ hd => hd.grows hset, hresolved.grows hset⟩
    · obtain ⟨hmeans', hresolved'⟩ := h'.targets k n' (by omega) hn'
      exact ⟨hmeans'.imp fun _ _ hd => hd.grows hset, hresolved'.grows hset⟩
  · obtain ⟨n₁', hj', hread₁, -⟩ := hback j n₁ hj
    obtain ⟨n₂', hk', hread₂, -⟩ := hback k n₂ hk
    rw [← BundledModule.path_of_untargeted hread₁, ← BundledModule.path_of_untargeted hread₂] at hp
    exact h'.distinct j k n₁' n₂' hj' hk' hp

end Loading

/-! ## The whole load -/

/-- More steps change no outcome. -/
theorem expandWithin_mono {steps more : Nat} {r : Except BundleError ModuleGraph}
    (h : l.expandWithin steps index g = some r) (hle : steps ≤ more) :
    l.expandWithin more index g = some r := by
  induction steps generalizing index g more with
  | zero => cases h
  | succ steps ih =>
    obtain ⟨more, rfl⟩ : ∃ n, more = n + 1 := ⟨more - 1, by omega⟩
    rw [expandWithin] at h ⊢
    split at h
    · exact h
    · split at h
      · exact h
      · exact ih h (Nat.le_of_succ_le_succ hle)

/-- In each step of a walk that ends well the targets of one module are found. -/
theorem expandWithin_cases {steps : Nat} (h : l.expandWithin steps index g = some (.ok g')) :
    (g.modules[index]? = none ∧ g' = g) ∨ ∃ (n : Nat) (m : BundledModule) (ks : List Nat)
      (g₁ : ModuleGraph), steps = n + 1 ∧ g.modules[index]? = some m ∧
        l.targets m.path g m.imports = .ok (ks, g₁) ∧
        l.expandWithin n (index + 1)
          { g₁ with modules := g₁.modules.modify index fun m => { m with targets := ks } } =
            some (.ok g') := by
  cases steps with
  | zero => cases h
  | succ n =>
    rw [expandWithin] at h
    split at h
    · rename_i hnone
      cases h
      exact .inl ⟨hnone, rfl⟩
    · rename_i m hm
      split at h
      · cases h
      · rename_i ks g₁ hks
        exact .inr ⟨n, m, ks, g₁, rfl, hm, hks, h⟩

theorem grows_of_expandWithin {steps : Nat} (h : l.expandWithin steps index g = some (.ok g')) :
    g.Grows g' := by
  induction steps generalizing index g with
  | zero => cases h
  | succ steps ih =>
    obtain ⟨-, rfl⟩ | ⟨n, m, ks, g₁, hn, hm, hks, hrest⟩ := expandWithin_cases h
    · exact .refl _
    · cases hn
      exact ((appends_of_targets hks).grows.trans (.setTargets g₁ index ks)).trans (ih hrest)

/-- What the walk over the modules keeps. -/
theorem loading_of_expandWithin {steps : Nat}
    (h : l.expandWithin steps index g = some (.ok g')) (hg : l.Loading index g) :
    l.Loading g'.modules.size g' := by
  induction steps generalizing index g with
  | zero => cases h
  | succ steps ih =>
    obtain ⟨hnone, rfl⟩ | ⟨n, m, ks, g₁, hn, hm, hks, hrest⟩ := expandWithin_cases h
    · have hindex : index = g'.modules.size :=
        Nat.le_antisymm hg.le (Array.getElem?_eq_none_iff.1 hnone)
      exact hindex ▸ hg
    · cases hn
      exact ih hrest (hg.setTargets hm hks)

/-- The entry is added, and then the targets of all modules are found. -/
theorem exists_of_loadWithin {steps : Nat} (h : l.loadWithin steps entry = some (.ok g)) :
    ∃ g₀, l.add {} entry = .ok g₀ ∧ l.expandWithin steps 0 g₀ = some (.ok g) := by
  unfold loadWithin at h
  split at h
  · cases h
  · rename_i g₀ hadd
    exact ⟨g₀, hadd, h⟩

theorem loadWithin_of_load (h : l.load entry = .ok g) :
    l.loadWithin maxModules entry = some (.ok g) := by
  unfold load at h
  cases hload : l.loadWithin maxModules entry with
  | none =>
    rw [hload] at h
    cases h
  | some r =>
    rw [hload] at h
    exact congrArg some h

theorem exists_of_load (h : l.load entry = .ok g) : ∃ g₀, l.add {} entry = .ok g₀ ∧
    l.expandWithin maxModules 0 g₀ = some (.ok g) :=
  exists_of_loadWithin (loadWithin_of_load h)

theorem load_of_expandWithin {steps : Nat} (hadd : l.add {} entry = .ok g)
    (hwalk : l.expandWithin steps 0 g = some (.ok g')) (hsteps : steps ≤ maxModules) :
    l.load entry = .ok g' := by
  unfold load loadWithin
  rw [hadd]
  dsimp only
  rw [expandWithin_mono hwalk hsteps]
  rfl

theorem load_of_loadWithin {steps : Nat} (h : l.loadWithin steps entry = some (.ok g))
    (hsteps : steps ≤ maxModules) : l.load entry = .ok g := by
  obtain ⟨g₀, hadd, hwalk⟩ := exists_of_loadWithin h
  exact load_of_expandWithin hadd hwalk hsteps

theorem loaded_of_loadWithin {steps : Nat} (h : l.loadWithin steps entry = some (.ok g)) :
    l.Loaded entry g := by
  obtain ⟨g₀, hadd, hexpand⟩ := exists_of_loadWithin h
  have hempty : l.Loading 0 {} := ⟨Nat.le_refl _, by simp, by simp, by simp [Distinct]⟩
  obtain ⟨h₀, m, hm, rfl⟩ := hempty.add (by simp) hadd
  have h₁ := loading_of_expandWithin hexpand h₀
  obtain ⟨ts, hm'⟩ := (grows_of_expandWithin hexpand).modules 0 m hm
  have hlt : ∀ (k : Nat) (m : BundledModule), g.modules[k]? = some m → k < g.modules.size :=
    fun k m hm => (Array.getElem?_eq_some_iff.1 hm).1
  exact ⟨⟨_, hm', rfl⟩, h₁.read, fun k m hm => (h₁.targets k m (hlt k m hm) hm).1,
    fun k m hm => (h₁.targets k m (hlt k m hm) hm).2, h₁.distinct⟩

theorem loaded_of_load (h : l.load entry = .ok g) : l.Loaded entry g :=
  loaded_of_loadWithin (loadWithin_of_load h)

end ModuleLoader

end ModuleWorkers
