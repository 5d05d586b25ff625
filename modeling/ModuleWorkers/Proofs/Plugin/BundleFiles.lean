import Mathlib.Data.List.Induction
import ModuleWorkers.Proofs.Bundle.Closed
import ModuleWorkers.Proofs.FileSystem
import ModuleWorkers.Proofs.Path.Url
import ModuleWorkers.Proofs.Plugin.Builds

/-!
# Files of bundles

Each script that a bundle loads while it runs is a file of the bundle
(`Bundler.Makes.exists_file`), and when the build ends it is served beside the worker
(`PluginState.get?_script_finishBuild`). Files of a bundle are stored one after the other, so a file
could be lost to a later one; but the names of scripts are single steps of a path that end in `.js`
(`Bundler.isStep_scriptName`), so they meet neither maps nor scripts of other names.
-/

namespace ModuleWorkers

/-! ## Names of scripts -/

theorem Path.slash_not_mem_of_mem_components {p : Path} {s : List Char}
    (h : Component.name s ∈ p.components) : '/' ∉ s := by
  have hsteps : Component.name s ∈ p.steps := by
    rw [components_eq] at h
    split at h
    · exact (List.mem_cons.1 h).resolve_left nofun
    · exact h
  obtain ⟨⟨t, k⟩, ht, hs⟩ := List.mem_filterMap.1 hsteps
  have hmem : t ∈ segments p.chars := (List.mem_zipIdx ht).2.2 ▸ List.getElem_mem _
  dsimp only at hs
  split at hs
  · unfold component at hs
    split at hs
    · cases hs
    · split at hs
      · cases hs
      · cases hs
        exact slash_not_mem_of_mem_segments hmem
  · cases hs

theorem Path.mem_of_mem_splitExtension {name : String} {c : Char}
    (h : c ∈ (splitExtension name).1.toList) : c ∈ name.toList := by
  unfold splitExtension at h
  split at h
  · rename_i ext point front front' rest heq
    rw [List.span_eq_takeWhile_dropWhile] at heq
    obtain ⟨-, hdrop⟩ := Prod.mk.inj heq
    rw [String.toList_ofList, List.mem_reverse] at h
    refine List.mem_reverse.1 ((List.dropWhile_suffix (· != '.')).subset ?_)
    rw [hdrop]
    exact List.mem_cons_of_mem _ h
  · exact h

theorem Path.slash_not_mem_stem? {p : Path} {stem : String} (h : p.stem? = some stem) :
    '/' ∉ stem.toList := by
  obtain ⟨name, hname, rfl⟩ := Option.map_eq_some_iff.1 h
  intro hslash
  have hmem := mem_of_mem_splitExtension hslash
  unfold fileName? at hname
  split at hname
  · rename_i cs hlast
    obtain rfl := Option.some.inj hname
    rw [String.toList_ofList] at hmem
    exact slash_not_mem_of_mem_components (List.mem_of_getLast? hlast) hmem
  · cases hname

theorem exists_of_mem_of_forall₂ {α β : Type} {R : α → β → Prop} {as : List α} {bs : List β}
    (h : List.Forall₂ R as bs) {a : α} (ha : a ∈ as) : ∃ b ∈ bs, R a b := by
  induction h with
  | nil => cases ha
  | cons hab _ ih =>
    rcases List.mem_cons.1 ha with rfl | ha
    · exact ⟨_, List.mem_cons_self, hab⟩
    · obtain ⟨b, hb, hR⟩ := ih ha
      exact ⟨b, List.mem_cons_of_mem _ hb, hR⟩

namespace Bundler

variable {b : Bundler} {request : BundleRequest} {g : ModuleGraph} {out : BundleOutput}

theorem slash_not_mem_digits (count : Nat) (bytes : ByteArray) : '/' ∉ Xxh3.digits count bytes := by
  have hdigit : ∀ n < 16, Nat.digitChar n ≠ '/' := by decide
  intro h
  obtain ⟨k, -, hk⟩ := List.mem_map.1 h
  exact hdigit _ (Nat.mod_lt _ (by decide)) hk

/-- The name of a script ends in `.js` and has no slash. -/
theorem exists_scriptName_eq (g : ModuleGraph) (target : Nat) (modules : List Nat) :
    ∃ front, '/' ∉ front ∧ (scriptName g target modules).toList = front ++ ".js".toList := by
  refine ⟨_, ?_, String.toList_append⟩
  have hstem : '/' ∉ ((g.modules[target]?.bind (·.path.stem?)).getD "chunk").toList := by
    cases hstem : g.modules[target]?.bind (·.path.stem?) with
    | none => decide
    | some stem =>
      obtain ⟨m, -, hm⟩ := Option.bind_eq_some_iff.1 hstem
      exact Path.slash_not_mem_stem? hm
  simp only [String.toList_append, String.toList_ofList, List.mem_append, not_or]
  exact ⟨⟨hstem, by decide⟩, slash_not_mem_digits _ _⟩

theorem isStep_scriptName (g : ModuleGraph) (target : Nat) (modules : List Nat) :
    IsStep (scriptName g target modules).toList := by
  obtain ⟨front, hfront, heq⟩ := exists_scriptName_eq g target modules
  rw [heq]
  refine ⟨UrlPath.isName_of_length ?_, ?_⟩
  · rw [List.length_append]
    exact Nat.lt_of_lt_of_le (by decide) (Nat.le_add_left 3 _)
  · rw [List.mem_append, not_or]
    exact ⟨hfront, by decide⟩

/-! ## Scripts that are loaded -/

/-- Whether a bundle could be made of a graph that was loaded. -/
structure Makes (b : Bundler) (request : BundleRequest) (g : ModuleGraph) (out : BundleOutput) :
    Prop where
  load : (b.loader request).load request.entry = .ok g
  ofGraph : b.ofGraph g (b.loader request).mapDir = .ok out

theorem exists_makes (h : b.bundle request = .ok out) : ∃ g, b.Makes request g out :=
  let ⟨g, hload, hout⟩ := bundle_eq_ok h
  ⟨g, hload, hout⟩

namespace Makes

variable (h : b.Makes request g out)

include h

theorem files : List.Forall₂ (fun s f => ∃ p : Package, f = OutputFile.script s.name p.code
    (some p.map)) (laterScripts g) out.files :=
  (ofGraph_eq_ok (ModuleLoader.loaded_of_load h.load) h.ofGraph).2.1.imp
    fun _ _ ⟨p, _, hp⟩ => ⟨p, hp⟩

/-- Each script that a module loads for an import is a file of the bundle. -/
theorem exists_file {j : Nat} {m : BundledModule} (hm : g.modules[j]? = some m)
    {t : Script.Target} (ht : t ∈ importTargets g (laterScripts g) m) {name : String}
    (hname : t.chunk = some name) : ∃ f ∈ out.files, f.name = name := by
  obtain ⟨f, htargets, hf⟩ :=
    exists_importTargets_eq (ModuleLoader.loaded_of_load h.load) hm
  rw [htargets] at ht
  obtain ⟨d, hd, rfl⟩ := List.mem_map.1 ht
  obtain ⟨k, n, -, -, -, -, -, hchunk⟩ := hf d hd
  obtain ⟨s, hs, rfl, -⟩ := hchunk name hname
  obtain ⟨file, hfile, p, rfl⟩ := exists_of_mem_of_forall₂ h.files hs
  exact ⟨_, hfile, rfl⟩

/-- The files of a bundle are scripts with maps, under names of scripts. -/
theorem exists_script {f : OutputFile} (hf : f ∈ out.files) : ∃ target modules code map,
    f = .script (scriptName g target modules) code (some map) := by
  obtain ⟨s, hs, p, rfl⟩ := exists_of_mem_of_forall₂ h.files.flip hf
  exact ⟨s.target, s.modules, p.code, p.map, by rw [(mem_laterScripts_iff.1 hs).2.2.2]⟩

end Makes

end Bundler

/-! ## Names in directories -/

namespace UrlPath

/-- Whether a text is a directory in normal form. -/
def IsDirectory (directory : String) : Prop :=
  ∃ ds, (∀ s ∈ ds, IsStep s) ∧ directory.toList = '/' :: joined ds

theorem isDirectory_dirname (path : String) : IsDirectory (dirname (normalize path)) :=
  let ⟨ds, _, hds, _, _, hdirname, _⟩ := exists_normalize_eq path
  ⟨ds, hds, hdirname⟩

variable {directory name name' : String}

/-- A directory has different paths for different names. -/
theorem IsDirectory.eq_of_normalize_append_eq (h : IsDirectory directory)
    (hname : IsStep name.toList) (hname' : IsStep name'.toList)
    (heq : normalize (directory ++ "/" ++ name) = normalize (directory ++ "/" ++ name')) :
    name = name' := by
  obtain ⟨ds, hds, hdirectory⟩ := h
  have hmade : IsMadeOf directory ds := ⟨hds, hdirectory⟩
  rw [normalize_eq_iff_names_eq, hmade.names_beside hname, hmade.names_beside hname'] at heq
  exact String.toList_injective (List.cons.inj (List.append_cancel_left heq)).1

/-- The path of a script is not that of a map. -/
theorem IsDirectory.normalize_append_ne (h : IsDirectory directory) (hname : IsStep name.toList)
    {front : List Char} (hfront : name.toList = front ++ ".js".toList) (path : String) :
    normalize (directory ++ "/" ++ name) ≠ path ++ ".map" := by
  obtain ⟨ds, hds, hdirectory⟩ := h
  intro heq
  have hlast := congrArg (fun text : String => text.toList.getLast?) heq
  have hjs : ".js".toList.getLast? = some 's' := by decide
  have hmap : ".map".toList.getLast? = some 'p' := by decide
  simp only [toList_normalize_append hds hdirectory hname, hfront, joined_concat_append,
    ← List.cons_append, String.toList_append, List.getLast?_append, hjs, hmap] at hlast
  cases hlast

end UrlPath

/-! ## Files that are stored -/

/-- The path that a file of a bundle is served at. -/
def OutputFile.path (directory : String) (f : OutputFile) : String :=
  UrlPath.normalize (directory ++ "/" ++ f.name)

/-- What is served of a file of a bundle. -/
def OutputFile.content (options : PluginOptions) (directory : String) (f : OutputFile) :
    FileContent :=
  match f with
  | .asset _ bytes => .binary bytes
  | .script _ code none => .text code
  | .script _ code (some _) =>
    .text (PluginState.withComment options code (UrlPath.basename (f.path directory)))

theorem OutputFile.eq_of_mem_paths {directory q : String} {f : OutputFile}
    (h : q ∈ f.paths directory) : q = f.path directory ∨ q = f.path directory ++ ".map" := by
  cases f with
  | asset name bytes => exact .inl (List.mem_singleton.1 h)
  | script name code map =>
    cases map with
    | none => exact .inl (List.mem_singleton.1 h)
    | some m =>
      rcases List.mem_cons.1 h with h | h
      · exact .inr h
      · exact .inl (List.mem_singleton.1 h)

namespace PluginState

theorem get?_insertOutput_self (options : PluginOptions) (directory : String) (vs : VirtualFiles)
    (f : OutputFile) : (insertOutput options directory vs f).get? (f.path directory) =
      some ⟨f.path directory, f.content options directory, true⟩ := by
  cases f with
  | asset name bytes => exact (VirtualFiles.get?_insert _ _ _ _ _).trans (if_pos rfl)
  | script name code map =>
    cases map with
    | none => exact (VirtualFiles.get?_insert _ _ _ _ _).trans (if_pos rfl)
    | some m => exact (VirtualFiles.get?_insert _ _ _ _ _).trans (if_pos rfl)

/-- A file that comes to no map stays, or one at its path comes later. -/
theorem get?_insertOutputs_of_mem (options : PluginOptions) {directory : String}
    {files : List OutputFile} {f : OutputFile} (hf : f ∈ files)
    (hmaps : ∀ g ∈ files, f.path directory ≠ g.path directory ++ ".map") (vs : VirtualFiles) :
    ∃ g ∈ files, g.path directory = f.path directory ∧
      (files.foldl (insertOutput options directory) vs).get? (f.path directory) =
        some ⟨f.path directory, g.content options directory, true⟩ := by
  induction files using List.reverseRecOn with
  | nil => cases hf
  | append_singleton files last ih =>
    rw [List.foldl_append, List.foldl_cons, List.foldl_nil]
    by_cases hpath : last.path directory = f.path directory
    · refine ⟨last, by simp, hpath, ?_⟩
      rw [← hpath]
      exact get?_insertOutput_self options directory _ last
    · have hmem : f ∈ files := by
        refine (List.mem_append.1 hf).resolve_right fun hlast => hpath ?_
        rw [List.mem_singleton.1 hlast]
      obtain ⟨g, hg, hgpath, hget⟩ := ih hmem fun g hg => hmaps g (List.mem_append_left _ hg)
      refine ⟨g, List.mem_append_left _ hg, hgpath, ?_⟩
      rw [get?_insertOutput options, hget]
      intro hin
      rcases OutputFile.eq_of_mem_paths hin with heq | heq
      · exact hpath heq.symm
      · exact hmaps last (by simp) heq

variable {ε : Type} {b : Bundler} {request : BundleRequest} {g : ModuleGraph} {out : BundleOutput}

/-- When a build ends, each script of the bundle is served beside the worker. If the bundle has
several scripts of one name, it is one of them. -/
theorem get?_script_finishBuild (h : b.Makes request g out) (options : PluginOptions)
    {s : PluginState} {path : String} (he : (s.registry.get? path).isSome)
    (hpath : UrlPath.normalize path = path) {f : OutputFile} (hf : f ∈ out.files) :
    ∃ code map, .script f.name code (some map) ∈ out.files ∧
      (s.finishBuild (ε := ε) options path (.ok out)).2.virtualFiles.get?
          (f.path (UrlPath.dirname path)) =
        some ⟨f.path (UrlPath.dirname path), .text (withComment options code
          (UrlPath.basename (f.path (UrlPath.dirname path)))), true⟩ := by
  have hdirectory : UrlPath.IsDirectory (UrlPath.dirname path) :=
    hpath ▸ UrlPath.isDirectory_dirname path
  have hmaps : ∀ g ∈ out.files, f.path (UrlPath.dirname path) ≠
      g.path (UrlPath.dirname path) ++ ".map" := by
    obtain ⟨target, modules, code, map, rfl⟩ := h.exists_script hf
    obtain ⟨front, -, hfront⟩ := Bundler.exists_scriptName_eq g target modules
    exact fun g _ => hdirectory.normalize_append_ne
      (Bundler.isStep_scriptName _ target modules) hfront _
  obtain ⟨e, he⟩ := Option.isSome_iff_exists.1 he
  obtain ⟨f', hf', hf'path, hget⟩ := get?_insertOutputs_of_mem options hf hmaps
    (s.virtualFiles.insert (path ++ ".map") (.text (servedBundle options e out).map) true)
  obtain ⟨target', modules', code', map', rfl⟩ := h.exists_script hf'
  have hname : Bundler.scriptName g target' modules' = f.name := by
    obtain ⟨target, modules, code, map, rfl⟩ := h.exists_script hf
    exact hdirectory.eq_of_normalize_append_eq (Bundler.isStep_scriptName g target' modules')
      (Bundler.isStep_scriptName g target modules) hf'path
  refine ⟨code', map', hname ▸ hf', ?_⟩
  have hp : e.requestedPath = path := WorkerRegistry.requestedPath_of_get? he
  have hfinish : (s.finishBuild (ε := ε) options path (.ok out)).2 =
      (s.install options e out).2 := by
    unfold finishBuild
    simp only [he]
  rw [hfinish]
  unfold install
  simp only [hp]
  unfold servedBundle at hget
  rw [hp] at hget
  rw [hget]
  unfold OutputFile.content
  rw [hf'path]

end PluginState

end ModuleWorkers
