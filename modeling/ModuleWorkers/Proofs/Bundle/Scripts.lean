import ModuleWorkers.Bundle.Bundler
import ModuleWorkers.Proofs.Bundle.Loading
import ModuleWorkers.Proofs.Bundle.Order

/-!
# What the scripts of a bundle are made of

A bundle that is built from a loaded graph has one script for the modules that the entry needs and
one for each other module that is imported while the worker runs (`Bundler.ofGraph_eq_ok`). Each
packages modules of the graph (`Bundler.Packages`): it is the loader, then the definitions of these
modules, and the call of the entry in the first one.
-/

namespace ModuleWorkers

open Script (Dependency DependencyKind Target)

theorem mapError_eq_ok {α ε ε' : Type} {f : ε → ε'} {x : Except ε α} {a : α}
    (h : x.mapError f = .ok a) : x = .ok a := by
  cases x with
  | error e => cases h
  | ok b =>
    cases h
    rfl

/-! ## Imports by the indexes of modules -/

namespace BundledModule

theorem mem_edges {m : BundledModule} {kinds : List DependencyKind} {k : Nat} :
    k ∈ m.edges kinds ↔ ∃ d, (d, k) ∈ m.imports.zip m.targets ∧ d.kind ∈ kinds := by
  simp [edges, List.mem_filterMap, and_comm]

end BundledModule

namespace ModuleLoader

variable {l : ModuleLoader} {g : ModuleGraph} {file entry : Path} {d : Dependency} {j k : Nat}
  {m : BundledModule}

theorem Means.lt (h : l.Means g file d k) : k < g.modules.size := by
  obtain ⟨m, path, hm, -, -⟩ := h
  exact (Array.getElem?_eq_some_iff.1 hm).1

namespace Loaded

/-- An import means one module. -/
theorem means_unique (h : l.Loaded entry g) (hj : l.Means g file d j) (hk : l.Means g file d k) :
    j = k := by
  obtain ⟨m, path, hm, hfound, hpath⟩ := hj
  obtain ⟨n, path', hn, hfound', hpath'⟩ := hk
  rw [hfound] at hfound'
  cases hfound'
  refine h.distinct j k m n hm hn ?_
  rw [Path.beq_iff] at hpath hpath' ⊢
  rw [hpath, hpath']

theorem exists_mem_zip (h : l.Loaded entry g) (hm : g.modules[j]? = some m) (hd : d ∈ m.imports) :
    ∃ k, (d, k) ∈ m.imports.zip m.targets ∧ l.Means g m.path d k := by
  obtain ⟨hlength, hzip⟩ := List.forall₂_iff_zip.1 (h.targets j m hm)
  obtain ⟨⟨d', k⟩, hk, rfl⟩ : ∃ x ∈ m.imports.zip m.targets, x.1 = d :=
    List.mem_map.1 (by rwa [List.map_fst_zip hlength.le])
  exact ⟨k, hk, hzip hk⟩

theorem mem_zip_iff (h : l.Loaded entry g) (hm : g.modules[j]? = some m) :
    (d, k) ∈ m.imports.zip m.targets ↔ d ∈ m.imports ∧ l.Means g m.path d k := by
  constructor
  · exact fun hz => ⟨(List.of_mem_zip hz).1, (List.forall₂_iff_zip.1 (h.targets j m hm)).2 hz⟩
  · rintro ⟨hd, hmeans⟩
    obtain ⟨i, hi, hmeans'⟩ := h.exists_mem_zip hm hd
    rwa [h.means_unique hmeans hmeans']

theorem mem_edges_iff (h : l.Loaded entry g) (hm : g.modules[j]? = some m)
    {kinds : List DependencyKind} :
    k ∈ m.edges kinds ↔ ∃ d ∈ m.imports, d.kind ∈ kinds ∧ l.Means g m.path d k := by
  rw [BundledModule.mem_edges]
  refine exists_congr fun d => ?_
  rw [h.mem_zip_iff hm]
  tauto

theorem mem_staticEdges_iff (h : l.Loaded entry g) (hm : g.modules[j]? = some m) :
    k ∈ g.staticEdges j ↔ ∃ d ∈ m.imports, d.kind ≠ .dynamic ∧ l.Means g m.path d k := by
  have hkind : ∀ kind : DependencyKind, kind ∈ [.static, .require] ↔ kind ≠ .dynamic := by
    intro kind
    cases kind <;> decide
  unfold ModuleGraph.staticEdges
  rw [hm]
  simp only [h.mem_edges_iff hm, hkind]

theorem mem_dynamicTargets_iff (h : l.Loaded entry g) : k ∈ g.dynamicTargets ↔
    ∃ (j : Nat) (m : BundledModule), g.modules[j]? = some m ∧
      ∃ d ∈ m.imports, d.kind = .dynamic ∧ l.Means g m.path d k := by
  unfold ModuleGraph.dynamicTargets
  rw [List.mem_eraseDups, List.mem_flatMap]
  constructor
  · rintro ⟨m, hm, hk⟩
    obtain ⟨j, hj⟩ := List.mem_iff_getElem?.1 hm
    rw [Array.getElem?_toList] at hj
    obtain ⟨d, hd, hkind, hmeans⟩ := (h.mem_edges_iff hj).1 hk
    exact ⟨j, m, hj, d, hd, List.mem_singleton.1 hkind, hmeans⟩
  · rintro ⟨j, m, hm, d, hd, hkind, hmeans⟩
    exact ⟨m, Array.mem_toList_iff.2 (Array.mem_of_getElem? hm),
      (h.mem_edges_iff hm).2 ⟨d, hd, List.mem_singleton.2 hkind, hmeans⟩⟩

theorem size_pos (h : l.Loaded entry g) : 0 < g.modules.size := by
  obtain ⟨m, hm, -⟩ := h.entry
  exact (Array.getElem?_eq_some_iff.1 hm).1

theorem staticEdges_lt (h : l.Loaded entry g) :
    ∀ n < g.modules.size, ∀ k ∈ g.staticEdges n, k < g.modules.size := by
  intro n hn k hk
  obtain ⟨d, -, -, hmeans⟩ := (h.mem_staticEdges_iff (Array.getElem?_eq_getElem hn)).1 hk
  exact hmeans.lt

end Loaded

end ModuleLoader

/-! ## The modules of the scripts -/

namespace Bundler

variable {l : ModuleLoader} {entry : Path} {g : ModuleGraph} {s : LaterScript} {k : Nat}

theorem mem_laterScripts_iff : s ∈ laterScripts g ↔
    s.target ∈ g.dynamicTargets ∧ s.target ∉ mainModules g ∧
      s.modules = g.staticOrder s.target (mainModules g) ∧
      s.name = scriptName g s.target s.modules := by
  unfold laterScripts
  simp only [List.mem_map, List.mem_filter, Bool.not_eq_true', List.contains_eq_mem,
    decide_eq_false_iff_not]
  constructor
  · rintro ⟨target, ⟨htarget, hmain⟩, rfl⟩
    exact ⟨htarget, hmain, rfl, rfl⟩
  · rintro ⟨htarget, hmain, hmodules, hname⟩
    refine ⟨s.target, ⟨htarget, hmain⟩, ?_⟩
    rw [← hmodules, ← hname]

theorem lt_of_mem_dynamicTargets (hg : l.Loaded entry g) (hk : k ∈ g.dynamicTargets) :
    k < g.modules.size := by
  obtain ⟨j, m, -, d, -, -, hmeans⟩ := hg.mem_dynamicTargets_iff.1 hk
  exact hmeans.lt

theorem lt_of_mem_mainModules (hg : l.Loaded entry g) (hk : k ∈ mainModules g) :
    k < g.modules.size :=
  DepthFirst.lt_of_mem_order hg.staticEdges_lt hg.size_pos hk

theorem lt_of_mem_laterScripts (hg : l.Loaded entry g) (hs : s ∈ laterScripts g)
    (hk : k ∈ s.modules) : k < g.modules.size := by
  obtain ⟨htarget, -, hmodules, -⟩ := mem_laterScripts_iff.1 hs
  rw [hmodules] at hk
  exact DepthFirst.lt_of_mem_order hg.staticEdges_lt (lt_of_mem_dynamicTargets hg htarget) hk

end Bundler

/-! ## The parts of a build -/

namespace Bundler

variable {b : Bundler} {request : BundleRequest} {g : ModuleGraph} {mapDir : Path}
  {out : BundleOutput}

/-- A module that is packaged for the scripts of a graph. -/
def IsPackaged (b : Bundler) (g : ModuleGraph) (mapDir : Path) (k : Nat) (p : PackagedModule) :
    Prop :=
  ∃ m, g.modules[k]? = some m ∧ b.packageModule g (laterScripts g) mapDir m = .ok p

/-- A script that packages modules of a graph, in an order. -/
def Packages (b : Bundler) (g : ModuleGraph) (mapDir : Path) (indexes : List Nat)
    (entry : Option String) (p : Package) : Prop :=
  ∃ ms, List.Forall₂ (b.IsPackaged g mapDir) indexes ms ∧
    Package.ofModules ms entry mapDir = .ok p

theorem packages_of_packageAll {ms : List PackagedModule} {indexes : List Nat}
    {entry : Option String} {p : Package}
    (hms : g.modules.toList.mapM (b.packageModule g (laterScripts g) mapDir) = .ok ms)
    (hindexes : ∀ k ∈ indexes, k < g.modules.size)
    (h : packageAll ms indexes entry mapDir = .ok p) : b.Packages g mapDir indexes entry p := by
  refine ⟨_, ?_, mapError_eq_ok h⟩
  clear h
  obtain ⟨hlength, hget⟩ := List.forall₂_iff_get.1 (forall₂_of_mapM hms)
  rw [Array.length_toList] at hlength
  induction indexes with
  | nil => exact .nil
  | cons k ks ih =>
    have hk : k < g.modules.size := hindexes k List.mem_cons_self
    rw [List.filterMap_cons_some (List.getElem?_eq_getElem (hlength ▸ hk))]
    refine .cons ⟨_, Array.getElem?_eq_getElem hk, ?_⟩
      (ih fun j hj => hindexes j (List.mem_cons_of_mem _ hj))
    simpa using hget k (by simpa using hk) (hlength ▸ hk)

/-- The text of a script. -/
theorem code_of_ofModules {ms : List PackagedModule} {entry : Option String} {p : Package}
    (h : Package.ofModules ms entry mapDir = .ok p) :
    p.code = Package.lines Package.loader ++ String.join (ms.map Package.wrapped) ++
      (entry.map Package.call).getD "" := by
  obtain ⟨map, -, h⟩ := exists_of_bind_eq_ok h
  cases h
  rfl

/-- The scripts of a build. -/
theorem ofGraph_eq_ok {l : ModuleLoader} {entry : Path} (hg : l.Loaded entry g)
    (h : b.ofGraph g mapDir = .ok out) :
    (∃ p, b.Packages g mapDir (mainModules g) (g.entry?.map (·.id)) p ∧
      out.code = p.code ∧ out.map = p.map) ∧
    List.Forall₂ (fun s f => ∃ p, b.Packages g mapDir s.modules none p ∧
      f = OutputFile.script s.name p.code (some p.map)) (laterScripts g) out.files ∧
    out.watchFiles = g.watchFiles := by
  obtain ⟨ms, hms, h⟩ := exists_of_bind_eq_ok h
  obtain ⟨main, hmain, h⟩ := exists_of_bind_eq_ok h
  obtain ⟨files, hfiles, h⟩ := exists_of_bind_eq_ok h
  cases h
  refine ⟨⟨main, packages_of_packageAll hms ?_ hmain, rfl, rfl⟩, ?_, rfl⟩
  · exact fun k => lt_of_mem_mainModules hg
  · refine ((List.forall₂_and_left _ _).2 ⟨fun s hs => hs, forall₂_of_mapM hfiles⟩).imp ?_
    rintro s f ⟨hs, hf⟩
    obtain ⟨p, hp, hf⟩ := exists_of_bind_eq_ok hf
    cases hf
    exact ⟨p, packages_of_packageAll hms (fun k => lt_of_mem_laterScripts hg hs) hp, rfl⟩

theorem bundle_eq_ok (h : b.bundle request = .ok out) : ∃ g,
    (b.loader request).load request.entry = .ok g ∧
      b.ofGraph g (b.loader request).mapDir = .ok out := exists_of_bind_eq_ok h

theorem bundle_of_load (h : (b.loader request).load request.entry = .ok g) :
    b.bundle request = b.ofGraph g (b.loader request).mapDir := by
  unfold bundle
  dsimp only
  rw [h]
  rfl

/-! ## Builds that are run -/

/-- The request for a worker of the root directory `/`, which is served where its file is. -/
def requestOf (path : String) : BundleRequest := ⟨⟨path⟩, ⟨"/"⟩, ⟨"/"⟩, path⟩

/-- The bundler of a file system that holds some scripts. -/
def ofScripts (scripts : List (String × String)) : Bundler :=
  { fs := scripts.foldl (fun fs script => fs.writeText ⟨script.1⟩ script.2) {} }

/-- The graph and the bundle of a request, if it is loaded within a number of steps. -/
def builtWithin (b : Bundler) (steps : Nat) (request : BundleRequest) :
    Option (ModuleGraph × BundleOutput) := do
  let g ← ((b.loader request).loadWithin steps request.entry).bind Except.toOption
  let out ← (b.ofGraph g (b.loader request).mapDir).toOption
  return (g, out)

theorem exists_built_of_any (b : Bundler) (request : BundleRequest) (steps : Nat)
    (holds : ModuleGraph → BundleOutput → Bool) (hsteps : steps ≤ ModuleLoader.maxModules)
    (h : (b.builtWithin steps request).any fun built => holds built.1 built.2) :
    ∃ g out, (b.loader request).load request.entry = .ok g ∧ b.bundle request = .ok out ∧
      holds g out := by
  obtain ⟨⟨g, out⟩, hbuilt, hholds⟩ := (Option.any_eq_true _ _).1 h
  obtain ⟨g', hg, hbuilt⟩ := Option.bind_eq_some_iff.1 hbuilt
  obtain ⟨out', hout, hbuilt⟩ := Option.bind_eq_some_iff.1 hbuilt
  cases hbuilt
  have hload : (b.loader request).load request.entry = .ok g := by
    obtain ⟨r, hr, hg⟩ := Option.bind_eq_some_iff.1 hg
    cases r with
    | error e => cases hg
    | ok g' =>
      cases hg
      exact ModuleLoader.load_of_loadWithin hr hsteps
  refine ⟨g, out, hload, ?_, hholds⟩
  rw [bundle_of_load hload]
  cases hresult : b.ofGraph g (b.loader request).mapDir with
  | error e =>
    rw [hresult] at hout
    cases hout
  | ok out' =>
    rw [hresult] at hout
    cases hout
    rfl

end Bundler

end ModuleWorkers
