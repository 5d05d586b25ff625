import ModuleWorkers.Proofs.Bundle.Scripts
import ModuleWorkers.Proofs.Path.Relative

/-!
# Bundles are closed

A worker that runs a bundle never asks for a module that is not there (`Bundler.bundle_isClosed`).
What a module needs before it runs is in the same script or in the first one, and a module that it
imports while it runs is in the script that is loaded for this import, if one is. The modules of a
script are those that a depth-first walk lists, so this is what the walk is known to be closed under
(`DepthFirst.mem_order_of_mem_edges`), read through what the imports of a loaded graph mean.
-/

namespace ModuleWorkers

open Script (Dependency Target)

namespace Bundler

variable {b : Bundler} {request : BundleRequest} {l : ModuleLoader} {entry : Path}
  {g : ModuleGraph} {mapDir : Path} {out : BundleOutput} {s : LaterScript} {m : BundledModule}
  {d : Dependency} {j k : Nat}

/-! ## What is in a script -/

section

variable (hg : l.Loaded entry g)

include hg

theorem nodup_mainModules : (mainModules g).Nodup :=
  DepthFirst.nodup_order hg.staticEdges_lt hg.size_pos

theorem mem_mainModules (hj : j ∈ mainModules g) (hm : g.modules[j]? = some m) (hd : d ∈ m.imports)
    (hkind : d.kind ≠ .dynamic) (hk : l.Means g m.path d k) : k ∈ mainModules g := by
  have hedge : k ∈ g.staticEdges j := (hg.mem_staticEdges_iff hm).2 ⟨d, hd, hkind, hk⟩
  exact (DepthFirst.mem_order_of_mem_edges hg.staticEdges_lt hg.size_pos hj hedge).resolve_left
    (by simp)

theorem nodup_later (hs : s ∈ laterScripts g) : s.modules.Nodup := by
  obtain ⟨htarget, -, hmodules, -⟩ := mem_laterScripts_iff.1 hs
  rw [hmodules]
  exact DepthFirst.nodup_order hg.staticEdges_lt (lt_of_mem_dynamicTargets hg htarget)

theorem target_mem_later (hs : s ∈ laterScripts g) : s.target ∈ s.modules := by
  obtain ⟨htarget, hmain, hmodules, -⟩ := mem_laterScripts_iff.1 hs
  rw [hmodules]
  exact DepthFirst.mem_order_root hg.staticEdges_lt (lt_of_mem_dynamicTargets hg htarget)
    (by simpa using hmain)

theorem mem_later_or_mem_mainModules (hs : s ∈ laterScripts g) (hj : j ∈ s.modules)
    (hm : g.modules[j]? = some m) (hd : d ∈ m.imports) (hkind : d.kind ≠ .dynamic)
    (hk : l.Means g m.path d k) : k ∈ s.modules ∨ k ∈ mainModules g := by
  obtain ⟨htarget, -, hmodules, -⟩ := mem_laterScripts_iff.1 hs
  rw [hmodules] at hj ⊢
  have hedge : k ∈ g.staticEdges j := (hg.mem_staticEdges_iff hm).2 ⟨d, hd, hkind, hk⟩
  rcases DepthFirst.mem_order_of_mem_edges hg.staticEdges_lt
    (lt_of_mem_dynamicTargets hg htarget) hj hedge with h | h
  · exact .inr (by simpa using h)
  · exact .inl h

end

theorem getLast?_mainModules (g : ModuleGraph) : (mainModules g).getLast? = some 0 :=
  DepthFirst.getLast?_order rfl

/-! ## What imports become -/

/-- The script to load first for an import that means the module with an index, if there is one. -/
def chunk? (g : ModuleGraph) (k : Nat) : Option String :=
  ((laterScripts g).find? (·.target == k)).map (·.name)

/-- What an import becomes that means the module with an index. -/
def targetOf (g : ModuleGraph) (d : Dependency) (k : Nat) : Target :=
  { id := (g.modules[k]?.map (·.id)).getD ""
    chunk := if d.kind = .dynamic then chunk? g k else none }

/-- An import becomes what the scripts need: the id of the module that it means and, while the
module runs, no script to load exactly if that module is in the first script, or else one that
defines it. -/
def IsTarget (l : ModuleLoader) (g : ModuleGraph) (m : BundledModule) (d : Dependency)
    (t : Target) : Prop :=
  ∃ k n, l.Means g m.path d k ∧ g.modules[k]? = some n ∧ t.id = n.id ∧
    (d.kind ≠ .dynamic → t.chunk = none) ∧
    (d.kind = .dynamic → (t.chunk = none ↔ k ∈ mainModules g)) ∧
    ∀ name, t.chunk = some name → ∃ s ∈ laterScripts g, s.name = name ∧ k ∈ s.modules

theorem isTarget_targetOf (hg : l.Loaded entry g) (hm : g.modules[j]? = some m) (hd : d ∈ m.imports)
    (hk : l.Means g m.path d k) : IsTarget l g m d (targetOf g d k) := by
  have hn := Array.getElem?_eq_getElem hk.lt
  refine ⟨k, _, hk, hn, ?_, fun hkind => if_neg hkind, fun hkind => ?_, fun name hname => ?_⟩
  · simp [targetOf, hn]
  · have hdynamic : k ∈ g.dynamicTargets := hg.mem_dynamicTargets_iff.2 ⟨j, m, hm, d, hd, hkind, hk⟩
    simp only [targetOf, chunk?, if_pos hkind, Option.map_eq_none_iff, List.find?_eq_none,
      beq_iff_eq]
    constructor
    · intro hnone
      by_contra hmain
      let modules := g.staticOrder k (mainModules g)
      exact hnone ⟨k, scriptName g k modules, modules⟩
        (mem_laterScripts_iff.2 ⟨hdynamic, hmain, rfl, rfl⟩) rfl
    · rintro hmain s hs rfl
      exact (mem_laterScripts_iff.1 hs).2.1 hmain
  · by_cases hkind : d.kind = .dynamic
    · simp only [targetOf, if_pos hkind] at hname
      obtain ⟨s, hfind, rfl⟩ := Option.map_eq_some_iff.1 hname
      have hs := List.mem_of_find?_eq_some hfind
      have htarget : s.target = k := by simpa using List.find?_some hfind
      exact ⟨s, hs, rfl, htarget ▸ target_mem_later hg hs⟩
    · simp [targetOf, hkind] at hname

/-- Imports of a module that are the same become the same. -/
theorem exists_importTargets_eq (hg : l.Loaded entry g) (hm : g.modules[j]? = some m) :
    ∃ f : Dependency → Target, importTargets g (laterScripts g) m = m.imports.map f ∧
      ∀ d ∈ m.imports, IsTarget l g m d (f d) := by
  classical
  have hmeans : ∀ d ∈ m.imports, ∃ k, l.Means g m.path d k := fun d hd =>
    let ⟨k, _, hk⟩ := hg.exists_mem_zip hm hd
    ⟨k, hk⟩
  choose! f hf using hmeans
  refine ⟨fun d => targetOf g d (f d), ?_, fun d hd => isTarget_targetOf hg hm hd (hf d hd)⟩
  have hzip : ∀ x ∈ m.imports.zip m.targets, targetOf g x.1 x.2 = targetOf g x.1 (f x.1) := by
    rintro ⟨d, k⟩ hx
    obtain ⟨hd, hk⟩ := (hg.mem_zip_iff hm).1 hx
    rw [hg.means_unique hk (hf d hd)]
  have hlength := (hg.targets j m hm).length_eq
  calc importTargets g (laterScripts g) m
    _ = (m.imports.zip m.targets).map fun x => targetOf g x.1 (f x.1) := List.map_congr_left hzip
    _ = ((m.imports.zip m.targets).map Prod.fst).map fun d => targetOf g d (f d) := by
      rw [List.map_map]
      rfl
    _ = m.imports.map fun d => targetOf g d (f d) := by rw [List.map_fst_zip hlength.le]

/-! ## The scripts of a bundle -/

/-- A script that defines modules of a graph, in an order and each with its id and its body, and
then calls an entry if there is one. -/
def Defines (b : Bundler) (g : ModuleGraph) (mapDir : Path) (indexes : List Nat)
    (entry : Option String) (code : String) : Prop :=
  ∃ ms : List PackagedModule,
    List.Forall₂ (fun k p => ∃ m map, g.modules[k]? = some m ∧ p.id = m.id ∧
      b.moduleBody g (laterScripts g) mapDir m = .ok (p.code, map)) indexes ms ∧
    code = Package.lines Package.loader ++ String.join (ms.map Package.wrapped) ++
      (entry.map Package.call).getD ""

theorem packageModule_eq_ok {later : List LaterScript} {p : PackagedModule}
    (h : b.packageModule g later mapDir m = .ok p) :
    p.id = m.id ∧ ∃ map, b.moduleBody g later mapDir m = .ok (p.code, map) := by
  obtain ⟨⟨code, map⟩, hbody, h⟩ := exists_of_bind_eq_ok h
  dsimp only at h
  split at h
  all_goals
    obtain ⟨map', -, h⟩ := exists_of_bind_eq_ok h
    cases h
    exact ⟨rfl, map, hbody⟩

theorem Packages.defines {indexes : List Nat} {entry : Option String} {p : Package}
    (h : b.Packages g mapDir indexes entry p) : b.Defines g mapDir indexes entry p.code := by
  obtain ⟨ms, hms, hp⟩ := h
  refine ⟨ms, hms.imp ?_, code_of_ofModules hp⟩
  rintro k q ⟨m, hm, hq⟩
  obtain ⟨hid, map, hbody⟩ := packageModule_eq_ok hq
  exact ⟨m, map, hm, hid, hbody⟩

/-- The scripts of a bundle of a graph define what the modules in them need. -/
structure IsClosed (b : Bundler) (request : BundleRequest) (g : ModuleGraph) (out : BundleOutput) :
    Prop where
  /-- Each import means one module. -/
  means : ∀ (j : Nat) (m : BundledModule), g.modules[j]? = some m → ∀ d ∈ m.imports,
    ∃! k, (b.loader request).Means g m.path d k
  /-- Scripts tell modules apart by their ids, as long as no path goes up. -/
  ids : request.root.IsPlain → (∀ m ∈ g.modules, m.path.IsPlain) →
    ∀ (j k : Nat) (m n : BundledModule), g.modules[j]? = some m → g.modules[k]? = some n →
      m.id = n.id → j = k
  /-- The first script defines its modules once, the entry last, and then runs it. -/
  main : ∃ e, g.modules[0]? = some e ∧ e.path = request.entry ∧
    b.Defines g (b.loader request).mapDir (mainModules g) (some e.id) out.code
  nodup_main : (mainModules g).Nodup
  getLast?_main : (mainModules g).getLast? = some 0
  main_static : ∀ j ∈ mainModules g, ∀ m, g.modules[j]? = some m → ∀ d ∈ m.imports,
    d.kind ≠ .dynamic → ∀ k, (b.loader request).Means g m.path d k → k ∈ mainModules g
  /-- The other scripts define theirs once, too. -/
  files : List.Forall₂ (fun s f => ∃ code map, f = OutputFile.script s.name code (some map) ∧
    b.Defines g (b.loader request).mapDir s.modules none code) (laterScripts g) out.files
  nodup_later : ∀ s ∈ laterScripts g, s.modules.Nodup
  later_static : ∀ s ∈ laterScripts g, ∀ j ∈ s.modules, ∀ m, g.modules[j]? = some m →
    ∀ d ∈ m.imports, d.kind ≠ .dynamic → ∀ k, (b.loader request).Means g m.path d k →
    k ∈ s.modules ∨ k ∈ mainModules g
  /-- What a module is converted with depends on its imports, and is what the scripts need. -/
  rendered : ∀ (j : Nat) (m : BundledModule), g.modules[j]? = some m →
    ∃ f : Dependency → Target, importTargets g (laterScripts g) m = m.imports.map f ∧
      ∀ d ∈ m.imports, IsTarget (b.loader request) g m d (f d)

/-- A bundle that could be built is closed, whatever scripts are read and converted with. -/
theorem bundle_isClosed (h : b.bundle request = .ok out) : ∃ g,
    (b.loader request).load request.entry = .ok g ∧ b.IsClosed request g out := by
  obtain ⟨g, hload, hout⟩ := bundle_eq_ok h
  have hg := ModuleLoader.loaded_of_load hload
  obtain ⟨⟨p, hmain, hcode, -⟩, hfiles, -⟩ := ofGraph_eq_ok hg hout
  obtain ⟨e, he, hpath⟩ := hg.entry
  refine ⟨g, hload, {
    means := fun j m hm d hd => ?_
    ids := fun hroot hplain j k m n hm hn hid => hg.distinct j k m n hm hn ?_
    main := ⟨e, he, hpath, ?_⟩
    nodup_main := nodup_mainModules hg
    getLast?_main := getLast?_mainModules g
    main_static := fun j hj m hm d hd hkind k => mem_mainModules hg hj hm hd hkind
    files := hfiles.imp ?_
    nodup_later := fun s => nodup_later hg
    later_static := fun s hs j hj m hm d hd hkind k =>
      mem_later_or_mem_mainModules hg hs hj hm hd hkind
    rendered := fun j m => exists_importTargets_eq hg }⟩
  · obtain ⟨k, -, hk⟩ := hg.exists_mem_zip hm hd
    exact ⟨k, hk, fun i hi => hg.means_unique hi hk⟩
  · rw [(hg.read j m hm).id_eq, (hg.read k n hn).id_eq] at hid
    exact BundledModule.idOf_injective hroot (hplain m (Array.mem_of_getElem? hm))
      (hplain n (Array.mem_of_getElem? hn)) hid
  · rw [ModuleGraph.entry?, he] at hmain
    exact hcode ▸ hmain.defines
  · rintro s f ⟨p, hp, rfl⟩
    exact ⟨p.code, p.map, rfl, hp.defines⟩

/-- A worker and a module that need each other, which the worker also imports while it runs, and
two more scripts, one of them loaded by the other. -/
def entangledScripts : List (String × String) := [
  ("/w.js", "import './a.js'; import('./a.js'); import('./l.js')"),
  ("/a.js", "import './w.js'"),
  ("/l.js", "import './a.js'; import('./d.js')"),
  ("/d.js", "")]

theorem bundle_isClosed_entangled :
    ∃ out, (ofScripts entangledScripts).bundle (requestOf "/w.js") = .ok out ∧
      out.files.map (·.name) = ["l-fa6af9ad.js", "d-56314170.js"] ∧
      ∃ g, ((ofScripts entangledScripts).loader (requestOf "/w.js")).load ⟨"/w.js"⟩ = .ok g ∧
        (ofScripts entangledScripts).IsClosed (requestOf "/w.js") g out := by
  obtain ⟨-, out, -, hout, hnames⟩ :=
    exists_built_of_any (ofScripts entangledScripts) (requestOf "/w.js") 5
      (fun _ out => out.files.map (·.name) == ["l-fa6af9ad.js", "d-56314170.js"])
      (by decide) (by decide +kernel)
  exact ⟨out, hout, by simpa using hnames, bundle_isClosed hout⟩

end Bundler

end ModuleWorkers
