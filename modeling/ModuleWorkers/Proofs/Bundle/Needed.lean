import Mathlib.Data.Set.Finite.Basic
import ModuleWorkers.Proofs.Bundle.Breadth
import ModuleWorkers.Proofs.Bundle.Reloading
import ModuleWorkers.Proofs.Bundle.Scripts
import ModuleWorkers.Proofs.Bundle.Trails
import ModuleWorkers.Proofs.Path.Detours

/-!
# What an entry needs

A load of an entry ends with what a breadth-first search finds: the modules that the entry needs,
each file once and each import with its target, or the first error (`ModuleLoader.loadsNeeded`). A
search finds no more modules than there are trails to files, so loads come to an end
(`ModuleLoader.exists_loads`) unless extensions go up. Ids tell the modules apart up to detours,
which imports of packages that are named by a scope and `..` can lead to
(`ModuleLoader.exists_not_nodup_ids`).
-/

namespace ModuleWorkers

open Script (Dependency)

namespace ModuleLoader

variable {l : ModuleLoader} {entry file : Path} {m : BundledModule} {ms : List BundledModule}
  {queue : List (Path × Dependency)} {g : ModuleGraph} {mapFile : Option Path}
  {index steps bound : Nat} {r : Except BundleError ModuleGraph} {scopes : List Char → Prop}

/-! ## Where modules are -/

theorem exists_content_of_readModule (h : l.readModule file = .ok (m, mapFile)) :
    ∃ bytes, l.fs.content? file = some bytes ∧ ∀ d ∈ m.imports, ∃ code imports,
      String.fromUTF8? bytes = some code ∧ l.analyze code = .ok imports ∧ d ∈ imports := by
  obtain ⟨code, hcode, hread⟩ := readModule_eq_ok_iff.1 h
  obtain ⟨bytes, hbytes, hcode⟩ := exists_of_bind_eq_ok hcode
  unfold FileSystem.read at hbytes
  split at hbytes
  · rename_i hcontent
    cases hbytes
    refine ⟨bytes, hcontent, fun d hd => ?_⟩
    split at hcode
    · rename_i text htext
      cases hcode
      obtain ⟨-, rfl, -⟩ | ⟨-, imports, himports, rfl, -⟩ := hread
      · cases hd
      · exact ⟨code, imports, htext, himports, hd⟩
    · cases hcode
  · cases hbytes

theorem isFile_of_readModule (h : l.readModule file = .ok (m, mapFile)) : l.fs.isFile file := by
  obtain ⟨bytes, hbytes, -⟩ := exists_content_of_readModule h
  rw [FileSystem.isFile, hbytes]
  rfl

theorem Searches.isAbsolute (h : l.Searches entry ms queue) (hroot : l.root.isAbsolute)
    (hentry : entry.isAbsolute) : ∀ m ∈ ms, m.path.isAbsolute := by
  induction h with
  | start hm => exact fun n hn => List.mem_singleton.1 hn ▸ (readModule_spec hm).1 ▸ hentry
  | known _ _ _ ih => exact ih
  | new hs hfound _ hm ih =>
    intro n hn
    rcases List.mem_append.1 hn with hn | hn
    · exact ih n hn
    · obtain ⟨m', hm', hpath, -⟩ := hs.exists_of_mem_queue List.mem_cons_self
      rw [List.mem_singleton.1 hn, (readModule_spec hm).1]
      exact Resolver.isAbsolute_of_found hroot (hpath ▸ ih m' hm') hfound

/-- Modules are on trails of the scopes that imports name packages by. -/
theorem Searches.onTrail (h : l.Searches entry ms queue) (hroot : l.root.IsPlain)
    (hentry : entry.IsPlain)
    (hext : ∀ e ∈ l.options.extensions, ['.', '.'] ∉ segments e.toList)
    (hscopes : ∀ m ∈ ms, ∀ d ∈ m.imports, ∀ s, Specifier.GoesUpFrom d.specifier s → scopes s) :
    ∀ m ∈ ms, m.path.OnTrail scopes := by
  induction h with
  | start hm =>
    exact fun n hn => List.mem_singleton.1 hn ▸ (readModule_spec hm).1 ▸ .of_isPlain hentry
  | known _ _ _ ih => exact ih hscopes
  | new hs hfound _ hm ih =>
    have ih := ih fun m hm => hscopes m (List.mem_append_left _ hm)
    intro n hn
    rcases List.mem_append.1 hn with hn | hn
    · exact ih n hn
    · obtain ⟨m', hm', hpath, hd⟩ := hs.exists_of_mem_queue List.mem_cons_self
      rw [List.mem_singleton.1 hn, (readModule_spec hm).1]
      exact Resolver.onTrail_of_found hext (.of_isPlain hroot) (hpath ▸ ih m' hm')
        (hscopes m' (List.mem_append_left _ hm') _ hd) hfound

/-! ## Loads come to an end -/

/-- All that the scripts among the files import. -/
def importsOfFiles (l : ModuleLoader) : List Dependency :=
  l.fs.files.flatMap fun (_, content) =>
    (((String.fromUTF8? content).map l.analyze).bind Except.toOption).getD []

theorem mem_importsOfFiles (h : l.readModule file = .ok (m, mapFile)) {d : Dependency}
    (hd : d ∈ m.imports) : d ∈ l.importsOfFiles := by
  obtain ⟨bytes, hbytes, himports⟩ := exists_content_of_readModule h
  obtain ⟨code, imports, hcode, hanalyze, hd⟩ := himports d hd
  obtain ⟨front, back, hfiles, -⟩ := List.lookup_eq_some_iff.1 hbytes
  refine List.mem_flatMap.2 ⟨(file.place, bytes), ?_, ?_⟩
  · rw [hfiles]
    exact List.mem_append_right _ List.mem_cons_self
  · dsimp only
    rw [hcode, Option.map_some, Option.bind_some, hanalyze]
    exact hd

/-- There are no more modules than there are trails to files. -/
theorem exists_length_le (hroot : l.root.IsPlain) (hentry : entry.IsPlain)
    (hext : ∀ e ∈ l.options.extensions, ['.', '.'] ∉ segments e.toList) :
    ∃ bound, ∀ ms queue, l.Searches entry ms queue → ms.length ≤ bound := by
  let scopes := l.importsOfFiles.flatMap fun d => segments d.specifier.toList
  have hfinite := IsTrail.finite scopes (l.fs.files.map Prod.fst)
  refine ⟨hfinite.toFinset.card, fun ms queue h => ?_⟩
  have htrail : ∀ m ∈ ms, m.path.OnTrail (· ∈ scopes) := by
    refine h.onTrail hroot hentry hext fun m hm d hd s hs => ?_
    obtain ⟨mapFile, hread⟩ := h.isRead m hm
    exact List.mem_flatMap.2 ⟨d, mem_importsOfFiles hread hd, hs.mem_segments⟩
  have hmem : ∀ ss ∈ ms.map (·.path.pieces), ss ∈ hfinite.toFinset := by
    intro ss hss
    obtain ⟨m, hm, rfl⟩ := List.mem_map.1 hss
    obtain ⟨mapFile, hread⟩ := h.isRead m hm
    refine hfinite.mem_toFinset.2 ⟨(htrail m hm).trail, ?_⟩
    rw [← Path.place_eq_collapse]
    exact FileSystem.isFile_iff.1 (isFile_of_readModule hread)
  have hnodup : (ms.map (·.path.pieces)).Nodup := by
    refine List.pairwise_map.2 (h.pairwise.imp_of_mem fun hm hn hne hsame => ?_)
    rw [(Path.beq_iff_pieces (htrail _ hm).isAbsolute (htrail _ hn).isAbsolute).2 hsame] at hne
    cases hne
  calc ms.length
    _ = (ms.map (·.path.pieces)).length := (List.length_map _).symm
    _ = (ms.map (·.path.pieces)).toFinset.card := (List.toFinset_card_of_nodup hnodup).symm
    _ ≤ hfinite.toFinset.card :=
      Finset.card_le_card fun ss hss => hmem ss (List.mem_toFinset.1 hss)

theorem exists_expandWithin
    (hbound : ∀ ms queue, l.Searches entry ms queue → ms.length ≤ bound)
    (h : l.Searches entry g.found (g.asked index)) (hindex : index ≤ g.modules.size)
    (hsteps : bound < steps + index) : ∃ r, l.expandWithin steps index g = some r := by
  induction steps generalizing index g with
  | zero =>
    have := hbound _ _ h
    rw [g.length_found] at this
    omega
  | succ steps ih =>
    rw [expandWithin]
    split
    · exact ⟨_, rfl⟩
    · rename_i m hm
      split
      · exact ⟨_, rfl⟩
      · rename_i ks g' hks
        refine ih (h.setTargets hm hks) ?_ (by omega)
        have hlt := (Array.getElem?_eq_some_iff.1 ((appends_of_targets hks).kept index m hm)).1
        rw [Array.size_modify]
        omega

/-- The outcome of a load, however many steps it takes. -/
def Loads (l : ModuleLoader) (entry : Path) (r : Except BundleError ModuleGraph) : Prop :=
  ∃ steps, ∀ more, steps ≤ more → l.loadWithin more entry = some r

theorem loads_of_loadWithin (h : l.loadWithin steps entry = some r) : l.Loads entry r := by
  refine ⟨steps, fun more hle => ?_⟩
  unfold loadWithin at h ⊢
  split at h
  · exact h
  · exact expandWithin_mono h hle

theorem exists_loads (hroot : l.root.IsPlain) (hentry : entry.IsPlain)
    (hext : ∀ e ∈ l.options.extensions, ['.', '.'] ∉ segments e.toList) :
    ∃ r, l.Loads entry r := by
  obtain ⟨bound, hbound⟩ := exists_length_le hroot hentry hext
  cases hadd : l.add {} entry with
  | error e =>
    refine ⟨.error e, 0, fun more _ => ?_⟩
    unfold loadWithin
    rw [hadd]
  | ok g =>
    have hsteps : bound < (bound + 1) + 0 := by omega
    obtain ⟨r, hr⟩ :=
      exists_expandWithin hbound (searches_of_add hadd) (Nat.zero_le _) hsteps
    have hload : l.loadWithin (bound + 1) entry = some r := by
      unfold loadWithin
      rw [hadd]
      exact hr
    exact ⟨r, loads_of_loadWithin hload⟩

/-! ## What is loaded -/

end ModuleLoader

/-- A module has another one as the target of an import. -/
def ModuleGraph.HasTarget (g : ModuleGraph) (j k : Nat) : Prop :=
  ∃ m, g.modules[j]? = some m ∧ k ∈ m.targets

namespace ModuleLoader

variable {l : ModuleLoader} {entry : Path} {g : ModuleGraph} {k steps : Nat} {m n : BundledModule}

/-- A graph of the modules that an entry needs. -/
structure HoldsNeeded (l : ModuleLoader) (entry : Path) (g : ModuleGraph) : Prop where
  first : ∃ m, g.modules[0]? = some m ∧ m.path = entry
  read : ∀ (k : Nat) (m : BundledModule), g.modules[k]? = some m → l.IsRead g m
  watched : ∀ m ∈ g.modules, g.watchFiles.contains m.path = true
  distinct : Distinct g
  /-- Modules have their ids for themselves, unless a path is a detour to another one. -/
  id_eq_iff : ∀ (j k : Nat) (m n : BundledModule), g.modules[j]? = some m →
    g.modules[k]? = some n → (m.id = n.id ↔
      j = k ∨ Path.IsDetour l.root m.path n.path ∨ Path.IsDetour l.root n.path m.path)
  /-- There are no detours if no package is named by a scope and `..`. -/
  ids : (∀ e ∈ l.options.extensions, ['.', '.'] ∉ segments e.toList) →
    (∀ m ∈ g.modules, ∀ d ∈ m.imports, ∀ s, ¬ Specifier.GoesUpFrom d.specifier s) →
    ∀ (j k : Nat) (m n : BundledModule), g.modules[j]? = some m → g.modules[k]? = some n →
      m.id = n.id → j = k
  /-- There is a target for each import, which is the module that the import means. -/
  targets : ∀ (k : Nat) (m : BundledModule), g.modules[k]? = some m →
    List.Forall₂ (l.Means g m.path) m.imports m.targets
  reached : ∀ k < g.modules.size, Relation.ReflTransGen g.HasTarget 0 k
  searched : l.Searches entry g.found []

/-- A chain of imports leads from target to target. -/
theorem Loaded.reaches_of_imports (h : l.Loaded entry g) {first : BundledModule}
    (hfirst : first.path = entry) (hchain : Relation.ReflTransGen (l.Imports g.found) first n)
    (hm : g.modules[k]? = some m) (hn : m.untargeted = n) :
    Relation.ReflTransGen g.HasTarget 0 k := by
  induction hchain generalizing k m with
  | refl =>
    obtain ⟨e, he, hentry⟩ := h.entry
    have hsame : (m.path == e.path) = true := by
      rw [hentry, ← hfirst, ← hn]
      exact BEq.rfl
    exact h.distinct k 0 m e hm he hsame ▸ .refl
  | @tail b c _ himports ih =>
    obtain ⟨hb, -, d, hd, hfound⟩ := himports
    obtain ⟨b, hmem, rfl⟩ := List.mem_map.1 hb
    obtain ⟨j, hj⟩ := Array.mem_iff_getElem?.1 (Array.mem_toList_iff.1 hmem)
    obtain ⟨i, hi, n, path, hn', hfound', hpath⟩ := h.exists_mem_zip hj hd
    obtain rfl : c.path = path := Option.some.inj (hfound.symm.trans hfound')
    rw [← hn] at hpath
    obtain rfl := h.distinct i k n m hn' hm hpath
    exact (ih hj rfl).tail ⟨b, hj, (List.of_mem_zip hi).2⟩

theorem searches_of_loadWithin (h : l.loadWithin steps entry = some (.ok g)) :
    l.Searches entry g.found [] := by
  obtain ⟨g₀, hadd, hexpand⟩ := exists_of_loadWithin h
  exact searches_of_expandWithin (searches_of_add hadd) hexpand

theorem isFirstError_of_loadWithin {e : BundleError}
    (h : l.loadWithin steps entry = some (.error e)) : l.IsFirstError entry e := by
  unfold loadWithin at h
  split at h
  · rename_i hadd
    cases h
    exact .inl (add_eq_error hadd)
  · rename_i g₀ hadd
    exact isFirstError_of_expandWithin (searches_of_add hadd) h

theorem holdsNeeded_of_loadWithin (hroot : l.root.IsPlain) (hentry : entry.IsPlain)
    (h : l.loadWithin steps entry = some (.ok g)) : l.HoldsNeeded entry g := by
  have hg := loaded_of_loadWithin h
  have hs := searches_of_loadWithin h
  have hmem : ∀ (k : Nat) (m : BundledModule), g.modules[k]? = some m → m.untargeted ∈ g.found :=
    fun k m hm => List.mem_map.2 ⟨m, Array.mem_toList_iff.2 (Array.mem_of_getElem? hm), rfl⟩
  have habsolute : ∀ (k : Nat) (m : BundledModule), g.modules[k]? = some m → m.path.isAbsolute :=
    fun k m hm => hs.isAbsolute hroot.1 hentry.1 m.untargeted (hmem k m hm)
  refine ⟨hg.entry, hg.read, fun m hm => ?_, hg.distinct, fun j k m n hm hn => ?_,
    fun hext hnone j k m n hm hn hid => ?_, hg.targets, fun k hk => ?_, hs⟩
  · obtain ⟨k, hk⟩ := Array.mem_iff_getElem?.1 hm
    obtain ⟨mapFile, -, hwatched⟩ := hg.read k m hk
    exact hwatched m.path List.mem_cons_self
  · have hiff := BundledModule.idOf_eq_iff hroot (habsolute j m hm) (habsolute k n hn)
    rw [(hg.read j m hm).id_eq, (hg.read k n hn).id_eq, hiff]
    refine or_congr_left ⟨hg.distinct j k m n hm hn, ?_⟩
    rintro rfl
    cases hm.symm.trans hn
    exact BEq.rfl
  · have hplain : ∀ (k : Nat) (m : BundledModule), g.modules[k]? = some m → m.path.IsPlain := by
      intro k m hm
      have htrail : m.untargeted.path.OnTrail fun _ => False :=
        hs.onTrail hroot hentry hext (ModuleGraph.forall_mem_found.2 hnone) _ (hmem k m hm)
      exact htrail.isPlain fun _ => id
    rw [(hg.read j m hm).id_eq, (hg.read k n hn).id_eq] at hid
    exact hg.distinct j k m n hm hn
      (BundledModule.idOf_injective hroot (hplain j m hm) (hplain k n hn) hid)
  · obtain ⟨first, rest, -, hfirst, hchain⟩ := hs.exists_chain
    have hm := Array.getElem?_eq_getElem hk
    exact hg.reaches_of_imports hfirst (hchain _ (hmem k _ hm)) hm rfl

/-- A load of an entry comes to an end, unless an extension goes up, and either holds what is needed
or fails with the first error. -/
structure LoadsNeeded (l : ModuleLoader) (entry : Path) : Prop where
  ends : (∀ e ∈ l.options.extensions, ['.', '.'] ∉ segments e.toList) → ∃! r, l.Loads entry r
  ok : ∀ g, l.Loads entry (.ok g) → l.HoldsNeeded entry g
  error : ∀ e, l.Loads entry (.error e) → l.IsFirstError entry e
  /-- The bound on indexes does not change a graph. -/
  load : ∀ g, l.load entry = .ok g → l.Loads entry (.ok g)

theorem loadsNeeded (hroot : l.root.IsPlain) (hentry : entry.IsPlain) : l.LoadsNeeded entry := by
  refine ⟨fun hext => ?_, fun g ⟨steps, h⟩ => ?_, fun e ⟨steps, h⟩ => ?_, fun g h => ?_⟩
  · obtain ⟨r, hr⟩ := exists_loads hroot hentry hext
    refine ⟨r, hr, fun r' hr' => ?_⟩
    obtain ⟨steps, h⟩ := hr
    obtain ⟨steps', h'⟩ := hr'
    have hsame := (h _ (Nat.le_max_left steps steps')).symm.trans
      (h' _ (Nat.le_max_right steps steps'))
    exact (Option.some.inj hsame).symm
  · exact holdsNeeded_of_loadWithin hroot hentry (h steps (Nat.le_refl steps))
  · exact isFirstError_of_loadWithin (h steps (Nat.le_refl steps))
  · exact loads_of_loadWithin (loadWithin_of_load h)

theorem exists_loads_of_any (l : ModuleLoader) (entry : Path) (steps : Nat)
    (holds : ModuleGraph → Bool)
    (h : ((l.loadWithin steps entry).bind Except.toOption).any holds) :
    ∃ g, l.Loads entry (.ok g) ∧ holds g := by
  obtain ⟨g, hg, hholds⟩ := (Option.any_eq_true _ _).1 h
  obtain ⟨r, hr, hg⟩ := Option.bind_eq_some_iff.1 hg
  exact ⟨g, loads_of_loadWithin (eq_ok_of_toOption hg ▸ hr), hholds⟩

/-- A worker and a module that import each other, and a package that imports one of them. -/
def circular : ModuleLoader :=
  (Bundler.ofScripts [
    ("/w.js", "import './a.js'; import('p'); import './a'"),
    ("/a.js", "import './w.js'"),
    ("/node_modules/p/index.js", "require('/a')")]).loader (Bundler.requestOf "/w.js")

theorem loadsNeeded_circular : circular.LoadsNeeded ⟨"/w.js"⟩ ∧
    ∃ g, circular.Loads ⟨"/w.js"⟩ (.ok g) ∧ g.modules.toList.map (fun m => (m.id, m.targets)) =
      [("w.js", [1, 2, 1]), ("a.js", [0]), ("node_modules/p/index.js", [1])] := by
  refine ⟨loadsNeeded ⟨by decide +kernel, by decide +kernel⟩ ⟨by decide +kernel, by decide +kernel⟩,
    ?_⟩
  obtain ⟨g, hg, h⟩ := exists_loads_of_any circular ⟨"/w.js"⟩ 4
    (fun g => g.modules.toList.map (fun m => (m.id, m.targets)) =
      [("w.js", [1, 2, 1]), ("a.js", [0]), ("node_modules/p/index.js", [1])]) (by decide +kernel)
  exact ⟨g, hg, of_decide_eq_true h⟩

/-- A worker in the directory of a scope that imports the directory above, as a package and as it
is. -/
def climbing : ModuleLoader :=
  (Bundler.ofScripts [
    ("/node_modules/@s/w.js", "import '@s/..';\nimport '../index.js';\n"),
    ("/node_modules/index.js", "")]).loader
      ⟨⟨"/node_modules/@s/w.js"⟩, ⟨"/node_modules/@s"⟩, ⟨"/node_modules/@s"⟩, "/w.js"⟩

/-- One file is found by two paths, and both modules have the same id. -/
theorem exists_not_nodup_ids : ∃ g, climbing.Loads ⟨"/node_modules/@s/w.js"⟩ (.ok g) ∧
    g.modules.toList.map (fun m => (m.id, m.path.text, m.targets)) = [
      ("w.js", "/node_modules/@s/w.js", [1, 2]),
      ("../index.js", "/node_modules/@s/../index.js", []),
      ("../index.js", "/node_modules/index.js", [])] ∧
    ¬ (g.modules.toList.map (·.id)).Nodup := by
  obtain ⟨g, hg, h⟩ := exists_loads_of_any climbing ⟨"/node_modules/@s/w.js"⟩ 4
    (fun g => g.modules.toList.map (fun m => (m.id, m.path.text, m.targets)) = [
        ("w.js", "/node_modules/@s/w.js", [1, 2]),
        ("../index.js", "/node_modules/@s/../index.js", []),
        ("../index.js", "/node_modules/index.js", [])] ∧
      ¬ (g.modules.toList.map (·.id)).Nodup) (by decide +kernel)
  exact ⟨g, hg, of_decide_eq_true h⟩

end ModuleLoader

end ModuleWorkers
