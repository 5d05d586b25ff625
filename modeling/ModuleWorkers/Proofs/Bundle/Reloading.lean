import ModuleWorkers.Proofs.Bundle.Loading
import ModuleWorkers.Proofs.FileSystem

/-!
# Loads of other file systems

Two loaders that differ in the contents of files only find the same files for all imports whose
manifests have the same content (`Resolver.Alike.resolve_eq`). If besides modules read alike, the
two loads go in lock step (`ModuleLoader.exists_load_alike`): their graphs are the same up to the
source maps of modules, which do not have a say in what is loaded, and they are the same altogether
if the source maps are.
-/

namespace ModuleWorkers

open Script (Dependency)

/-! ## Finding files -/

namespace Resolver

variable {r r' : Resolver} {p : Path}

/-- Two resolvers that differ in the contents of files only. -/
structure Alike (r r' : Resolver) : Prop where
  files : r.fs.HaveSameFiles r'.fs
  options : r.options = r'.options
  root : r.root = r'.root

namespace Alike

variable (h : r.Alike r')

include h

theorem probe?_eq (p : Path) : r.probe? p = r'.probe? p := by
  rw [probe?, probe?, h.options, funext h.files.isFile_eq]

theorem manifest_eq (hp : r.fs.content? p = r'.fs.content? p) : r.manifest p = r'.manifest p := by
  rw [manifest, manifest, h.files.readText_eq hp]

theorem probeNamed?_eq (dir : Path) : r.probeNamed? dir = r'.probeNamed? dir := by
  funext entry
  rw [probeNamed?, probeNamed?]
  simp only [h.probe?_eq]

theorem resolveDirectory_eq {dir : Path}
    (hread : ∀ p ∈ (r.resolveDirectory dir).read, r.fs.content? p = r'.fs.content? p) :
    r.resolveDirectory dir = r'.resolveDirectory dir := by
  unfold resolveDirectory at hread ⊢
  simp only [h.files.isDir_eq, h.files.isFile_eq, h.probe?_eq, h.probeNamed?_eq, h.options]
    at hread ⊢
  split
  · rfl
  · rename_i hdir
    split
    · rename_i hfile
      rw [if_neg hdir, if_pos hfile] at hread
      rw [h.manifest_eq (hread _ (List.mem_singleton_self _))]
    · rfl

theorem resolvePath_eq
    (hread : ∀ q ∈ (r.resolvePath p).read, r.fs.content? q = r'.fs.content? q) :
    r.resolvePath p = r'.resolvePath p := by
  unfold resolvePath at hread ⊢
  rw [← h.probe?_eq]
  split
  · rfl
  · rename_i hnone
    rw [hnone] at hread
    exact h.resolveDirectory_eq hread

theorem resolvePackage_eq {name : String} {subpath : Option String} {dir : Path}
    (hread : ∀ q ∈ (r.resolvePackage name subpath dir).read,
      r.fs.content? q = r'.fs.content? q) :
    r.resolvePackage name subpath dir = r'.resolvePackage name subpath dir := by
  unfold resolvePackage at hread ⊢
  rw [← funext h.files.isDir_eq]
  split
  · rfl
  · rename_i packageDir hfind
    rw [hfind] at hread
    cases subpath with
    | none => exact h.resolveDirectory_eq hread
    | some subpath => exact h.resolvePath_eq hread

/-- Only manifests have a say in what an import means, besides the names of files. -/
theorem resolve_eq {specifier : String} {file : Path}
    (hread : ∀ q ∈ (r.resolve specifier file).read, r.fs.content? q = r'.fs.content? q) :
    r.resolve specifier file = r'.resolve specifier file := by
  unfold resolve at hread ⊢
  rw [← h.root]
  dsimp only at hread ⊢
  cases hspecifier : Specifier.ofText specifier with
  | relative path =>
    rw [hspecifier] at hread
    exact h.resolvePath_eq hread
  | absolute path =>
    rw [hspecifier] at hread
    exact h.resolvePath_eq hread
  | package name subpath =>
    rw [hspecifier] at hread
    exact h.resolvePackage_eq hread
  | url _ => rfl

end Alike

end Resolver

/-! ## Reading modules -/

namespace BundledModule

variable {m m' : BundledModule}

/-- A module without its source map. -/
def mapless (m : BundledModule) : BundledModule := { m with inputMap := none }

theorem mapless_eq_iff : m.mapless = m'.mapless ↔ m.id = m'.id ∧ m.path = m'.path ∧
    m.code = m'.code ∧ m.isJson = m'.isJson ∧ m.imports = m'.imports ∧ m.targets = m'.targets := by
  simp [mapless]

end BundledModule

namespace ModuleLoader

variable {l l' : ModuleLoader} {g g' r : ModuleGraph} {file entry : Path} {d : Dependency}
  {ds : List Dependency} {index k steps : Nat} {ks : List Nat} {m : BundledModule}
  {mapFile : Option Path} {code : String} {exact : Prop}

/-- Two loaders that differ in the contents of files only. -/
structure Alike (l l' : ModuleLoader) : Prop extends l.toResolver.Alike l'.toResolver where
  mapDir : l.mapDir = l'.mapDir
  analyze : l.analyze = l'.analyze

theorem inputMap?_eq_some_iff {map : SourceMap} : l.inputMap? file code = some (map, mapFile) ↔
    l.options.extractSourceMaps = true ∧ ∃ reference source,
      SourceMap.Reference.find? code = some reference ∧
      SourceMap.load l.fs l.mapDir file reference.url = .ok source ∧
      SourceMap.referencedFile? file reference.url = mapFile ∧
      source.relocate (((mapFile.getD file).parent?).getD ((file.parent?).getD l.root)) = map := by
  unfold inputMap?
  simp only [Option.bind_eq_bind, Option.bind_eq_some_iff, guard]
  constructor
  · rintro ⟨_, hguard, reference, hfind, source, hload, hresult⟩
    split at hguard
    · rename_i hextract
      obtain ⟨rfl, rfl⟩ := Prod.mk.inj (Option.some.inj hresult)
      exact ⟨hextract, reference, source, hfind, eq_ok_of_toOption hload, rfl, rfl⟩
    · cases hguard
  · rintro ⟨hextract, reference, source, hfind, hload, rfl, rfl⟩
    exact ⟨(), if_pos hextract, reference, hfind, source, by rw [hload]; rfl, rfl⟩

theorem load_eq {fs fs' : FileSystem} (hfs : fs.HaveSameFiles fs') {url : String} (root : Path)
    (h : ∀ p ∈ SourceMap.referencedFile? file url, fs.content? p = fs'.content? p) :
    SourceMap.load fs root file url = SourceMap.load fs' root file url := by
  unfold SourceMap.load
  split
  · rfl
  · rename_i p hp
    rw [hfs.readText_eq (h p hp)]

/-- A source map that could be read can be read again if its file, if it has one, has the same
content. -/
theorem Alike.inputMap?_eq (hl : l.Alike l') {map : SourceMap}
    (h : l.inputMap? file code = some (map, mapFile))
    (hfile : ∀ p ∈ mapFile, l.fs.content? p = l'.fs.content? p) :
    l'.inputMap? file code = some (map, mapFile) := by
  obtain ⟨hextract, reference, source, hfind, hload, hmapFile, hmap⟩ := inputMap?_eq_some_iff.1 h
  rw [load_eq hl.files _ (hmapFile ▸ hfile)] at hload
  exact inputMap?_eq_some_iff.2 ⟨hl.options ▸ hextract, reference, source, hfind,
    hl.mapDir ▸ hload, hmapFile, hl.root ▸ hmap⟩

/-- A script, as it is read. -/
def scriptOf (l : ModuleLoader) (file : Path) (code : String) (imports : List Dependency) :
    BundledModule :=
  { id := BundledModule.idOf l.root file, path := file, code, imports
    inputMap := (l.inputMap? file code).map (·.1) }

/-- A module that holds JSON, as it is read. -/
def jsonOf (l : ModuleLoader) (file : Path) (code : String) : BundledModule :=
  { id := BundledModule.idOf l.root file, path := file, code, isJson := true }

theorem readModule_eq_ok_iff : l.readModule file = .ok (m, mapFile) ↔
    ∃ code, l.fs.readText file = .ok code ∧
      (file.extension? = some "json" ∧ l.jsonOf file code = m ∧ none = mapFile ∨
        file.extension? ≠ some "json" ∧ ∃ imports, l.analyze code = .ok imports ∧
          l.scriptOf file code imports = m ∧ (l.inputMap? file code).bind (·.2) = mapFile) := by
  unfold readModule readScript
  cases l.fs.readText file with
  | error e => simp
  | ok code =>
    by_cases hjson : file.extension? = some "json"
    · simp [hjson, jsonOf]
    · cases himports : l.analyze code with
      | error e => simp [hjson, himports]
      | ok imports => simp [hjson, himports, scriptOf]

/-- What is read of a file with the same content, up to the source map. -/
def ReadAlike (exact : Prop) (l l' : ModuleLoader) (file : Path) : Prop :=
  ∀ m mapFile, l.readModule file = .ok (m, mapFile) → ∃ m' mapFile',
    l'.readModule file = .ok (m', mapFile') ∧ m.mapless = m'.mapless ∧
      (exact → m = m' ∧ mapFile = mapFile')

theorem Alike.readAlike (hl : l.Alike l') (hfile : l.fs.content? file = l'.fs.content? file)
    (hmap : exact → ∀ m mapFile, l.readModule file = .ok (m, mapFile) → m.isJson = false →
      l.inputMap? file m.code = l'.inputMap? file m.code) : ReadAlike exact l l' file := by
  intro m mapFile h
  obtain ⟨code, hcode, hread⟩ := readModule_eq_ok_iff.1 h
  rw [hl.files.readText_eq hfile] at hcode
  obtain ⟨hjson, rfl, rfl⟩ | ⟨hscript, imports, himports, rfl, rfl⟩ := hread
  · have hsame : l.jsonOf file code = l'.jsonOf file code := by rw [jsonOf, jsonOf, hl.root]
    exact ⟨l'.jsonOf file code, none,
      readModule_eq_ok_iff.2 ⟨code, hcode, .inl ⟨hjson, rfl, rfl⟩⟩, hsame ▸ rfl,
      fun _ => ⟨hsame, rfl⟩⟩
  · have hread : l'.readModule file =
        .ok (l'.scriptOf file code imports, (l'.inputMap? file code).bind (·.2)) :=
      readModule_eq_ok_iff.2 ⟨code, hcode, .inr ⟨hscript, imports, hl.analyze ▸ himports, rfl, rfl⟩⟩
    have hmapless : (l.scriptOf file code imports).mapless =
        (l'.scriptOf file code imports).mapless :=
      BundledModule.mapless_eq_iff.2
        ⟨congrArg (BundledModule.idOf · file) hl.root, rfl, rfl, rfl, rfl, rfl⟩
    refine ⟨_, _, hread, hmapless, fun hexact => ?_⟩
    have hsame : l.inputMap? file code = l'.inputMap? file code :=
      hmap hexact (l.scriptOf file code imports) _ h rfl
    exact ⟨by rw [scriptOf, scriptOf, hl.root, hsame], by rw [hsame]⟩

/-! ## Loads in lock step -/

/-- Two graphs with the same modules up to their source maps. -/
structure AlikeGraphs (exact : Prop) (g g' : ModuleGraph) : Prop where
  modules : g.modules.map BundledModule.mapless = g'.modules.map BundledModule.mapless
  eq : exact → g = g'

namespace AlikeGraphs

variable (hg : AlikeGraphs exact g g')

include hg

theorem size_eq : g.modules.size = g'.modules.size := by
  simpa using congrArg Array.size hg.modules

theorem indexOf?_eq (path : Path) : g.indexOf? path = g'.indexOf? path := by
  have hmap : ∀ g : ModuleGraph, g.indexOf? path =
      (g.modules.map BundledModule.mapless).findIdx? (·.path == path) := by
    intro g
    rw [Array.findIdx?_map]
    rfl
  rw [hmap, hmap, hg.modules]

theorem exists_mapless (hm : g.modules[k]? = some m) :
    ∃ m', g'.modules[k]? = some m' ∧ m.mapless = m'.mapless := by
  have hmap := congrArg (·[k]?) hg.modules
  simp only [Array.getElem?_map, hm, Option.map_some] at hmap
  obtain ⟨m', hm', hsame⟩ := Option.map_eq_some_iff.1 hmap.symm
  exact ⟨m', hm', hsame.symm⟩

theorem watch (files : List Path) : AlikeGraphs exact (g.watch files) (g'.watch files) :=
  ⟨hg.modules, fun h => by rw [hg.eq h]⟩

theorem setTargets (index : Nat) (targets : List Nat) :
    AlikeGraphs exact
      { g with modules := g.modules.modify index fun m => { m with targets } }
      { g' with modules := g'.modules.modify index fun m => { m with targets } } := by
  refine ⟨Array.ext_getElem? fun k => ?_, fun h => by rw [hg.eq h]⟩
  have hk := congrArg (·[k]?) hg.modules
  simp only [Array.getElem?_map, Array.getElem?_modify] at hk ⊢
  split
  · -- source maps go and targets come in either order
    have htargets := congrArg (Option.map fun m : BundledModule => { m with targets }) hk
    rw [Option.map_map, Option.map_map] at htargets ⊢
    exact htargets
  · exact hk

end AlikeGraphs

theorem exists_add_alike (hg : AlikeGraphs exact g g') (hread : ReadAlike exact l l' file)
    (hadd : l.add g file = .ok r) : ∃ r', l'.add g' file = .ok r' ∧ AlikeGraphs exact r r' := by
  obtain ⟨m, mapFile, hm, rfl⟩ := add_eq_ok hadd
  obtain ⟨m', mapFile', hm', hmapless, heq⟩ := hread m mapFile hm
  refine ⟨_, by rw [add, hm']; rfl, ?_, fun h => ?_⟩
  · simp [Array.map_push, hg.modules, hmapless]
  · obtain ⟨rfl, rfl⟩ := heq h
    rw [hg.eq h]

theorem exists_target_alike (hg : AlikeGraphs exact g g')
    (hresolve : l.resolve d.specifier file = l'.resolve d.specifier file)
    (hread : ∀ m ∈ r.modules, ReadAlike exact l l' m.path)
    (htarget : l.target file g d = .ok (k, r)) :
    ∃ r', l'.target file g' d = .ok (k, r') ∧ AlikeGraphs exact r r' := by
  obtain ⟨path, hfound, ⟨hk, rfl⟩ | ⟨hk, rfl, hadd⟩⟩ := target_eq_ok htarget
  · refine ⟨g'.watch (l.resolve d.specifier file).read, ?_, hg.watch _⟩
    rw [hg.indexOf?_eq] at hk
    simp only [target, ← hresolve, hfound]
    rw [show (g'.watch (l.resolve d.specifier file).read).indexOf? path = some k from hk]
    rfl
  · have hpath : ReadAlike exact l l' path := by
      obtain ⟨m, mapFile, hm, rfl⟩ := add_eq_ok hadd
      have hmem : m ∈ (g.modules.push m) := Array.mem_push_self
      exact (readModule_spec hm).1 ▸ hread m hmem
    obtain ⟨r', hadd', hr⟩ := exists_add_alike (hg.watch _) hpath hadd
    refine ⟨r', ?_, hr⟩
    rw [hg.indexOf?_eq] at hk
    simp only [target, ← hresolve, hfound]
    rw [show (g'.watch (l.resolve d.specifier file).read).indexOf? path = none from hk]
    dsimp only
    rw [hadd', hg.size_eq]
    rfl

theorem exists_targets_alike (hg : AlikeGraphs exact g g')
    (hresolve : ∀ d ∈ ds, l.resolve d.specifier file = l'.resolve d.specifier file)
    (hread : ∀ m ∈ r.modules, ReadAlike exact l l' m.path)
    (htargets : l.targets file g ds = .ok (ks, r)) :
    ∃ r', l'.targets file g' ds = .ok (ks, r') ∧ AlikeGraphs exact r r' := by
  induction ds generalizing g g' ks with
  | nil =>
    cases htargets
    exact ⟨g', rfl, hg⟩
  | cons d ds ih =>
    obtain ⟨k, g₁, js, hk, hks, rfl⟩ := targets_cons_eq_ok htargets
    obtain ⟨g₁', hk', hg₁⟩ := exists_target_alike hg (hresolve d List.mem_cons_self)
      (fun m hm => hread m ((appends_of_targets hks).mem hm)) hk
    obtain ⟨r', hks', hr⟩ := ih hg₁ (fun e he => hresolve e (List.mem_cons_of_mem d he)) hks
    exact ⟨r', by simp only [targets, hk', hks', bind, Except.bind, pure, Except.pure], hr⟩

theorem exists_expandWithin_alike (hg : AlikeGraphs exact g g')
    (hread : ∀ m ∈ r.modules, ReadAlike exact l l' m.path)
    (hresolve : ∀ m ∈ r.modules, ∀ d ∈ m.imports,
      l.resolve d.specifier m.path = l'.resolve d.specifier m.path)
    (h : l.expandWithin steps index g = some (.ok r)) :
    ∃ r', l'.expandWithin steps index g' = some (.ok r') ∧ AlikeGraphs exact r r' := by
  induction steps generalizing index g g' with
  | zero => cases h
  | succ steps ih =>
    obtain ⟨hnone, rfl⟩ | ⟨n, m, ks, g₁, hn, hm, hks, hrest⟩ := expandWithin_cases h
    · have hnone' : g'.modules[index]? = none := by
        rw [Array.getElem?_eq_none_iff] at hnone ⊢
        rwa [← hg.size_eq]
      exact ⟨g', by simp only [expandWithin, hnone'], hg⟩
    · cases hn
      obtain ⟨m', hm', hmapless⟩ := hg.exists_mapless hm
      obtain ⟨-, hpath, -, -, himports, -⟩ := BundledModule.mapless_eq_iff.1 hmapless
      have hgrows := (ModuleGraph.Grows.setTargets g₁ index ks).trans (grows_of_expandWithin hrest)
      obtain ⟨ts, hmem⟩ := ((appends_of_targets hks).grows.trans hgrows).exists_mem
        (Array.mem_of_getElem? hm)
      have hread' : ∀ n ∈ g₁.modules, ReadAlike exact l l' n.path := by
        intro n hn
        obtain ⟨ts, hn'⟩ := hgrows.exists_mem hn
        exact hread { n with targets := ts } hn'
      obtain ⟨g₁', hks', hg₁⟩ := exists_targets_alike hg (hresolve _ hmem) hread' hks
      rw [hpath, himports] at hks'
      obtain ⟨r', hrest', hr⟩ := ih (hg₁.setTargets index ks) hrest
      exact ⟨r', by simp only [expandWithin, hm', hks', hrest'], hr⟩

/-- A load of alike files finds the same modules. -/
theorem exists_load_alike (hread : ∀ m ∈ r.modules, ReadAlike exact l l' m.path)
    (hresolve : ∀ m ∈ r.modules, ∀ d ∈ m.imports,
      l.resolve d.specifier m.path = l'.resolve d.specifier m.path)
    (h : l.load entry = .ok r) : ∃ r', l'.load entry = .ok r' ∧ AlikeGraphs exact r r' := by
  obtain ⟨g, hadd, hexpand⟩ := exists_of_load h
  obtain ⟨m, hm, rfl⟩ := (loaded_of_load h).entry
  obtain ⟨g', hadd', hg⟩ :=
    exists_add_alike ⟨rfl, fun _ => rfl⟩ (hread m (Array.mem_of_getElem? hm)) hadd
  obtain ⟨r', hexpand', hr⟩ := exists_expandWithin_alike hg hread hresolve hexpand
  exact ⟨r', load_of_expandWithin hadd' hexpand' (Nat.le_refl _), hr⟩

end ModuleLoader

end ModuleWorkers
