import ModuleWorkers.Proofs.Bundle.Watched
import ModuleWorkers.Proofs.Path.Relative
import ModuleWorkers.Proofs.Text.Search

/-!
# Where the source maps of modules come from

A module takes the source map that it refers to, whichever file that is
(`ModuleLoader.takesMapFrom_iff`). Nothing asks whether the file is in the root directory, as
`ServedScript.loadMap?` does for scripts that are served. So maps outside the root are left out
exactly if no module of the graph refers to one (`ModuleLoader.takesMaps_of_load`); references
that stay below the root on the way do not (`Path.isBelow_referencedFile?`).
-/

namespace ModuleWorkers

open SourceMap (Reference referencedFile?)

/-! ## Files that are referred to -/

/-- Whether a reference in a file of a directory is a relative path that does not climb above the
root directory on its way. -/
structure Path.StaysBelow (root dir : Path) (url : String) : Prop where
  isAbsolute : dir.isAbsolute
  isPath : ':' ∉ url.toList
  isRelative : (⟨url⟩ : Path).isAbsolute = false
  exists_climb : ∃ ds, dir.names = root.names ++ ds ∧ overshoot (ds ++ segments url.toList) = 0

/-- A path in a reference is seen from the directory of its file. -/
theorem referencedFile?_of_not_mem {file : Path} {url : String} (h : ':' ∉ url.toList) :
    referencedFile? file url = some (((file.parent?).getD ⟨""⟩).join ⟨url⟩).normal := by
  unfold referencedFile?
  rw [Text.cut?_eq_none h]
  rfl

theorem Path.isBelow_referencedFile? {root file f : Path} {url : String} (hroot : root.IsPlain)
    (h : root.StaysBelow ((file.parent?).getD ⟨""⟩) url)
    (hf : referencedFile? file url = some f) : f.isBelow root := by
  rw [referencedFile?_of_not_mem h.isPath] at hf
  obtain ⟨ds, hds, hclimb⟩ := h.exists_climb
  obtain ⟨habsolute, hnames⟩ := ((file.parent?).getD ⟨""⟩).join_of_relative h.isRelative
  have hsteps : ∀ s ∈ root.names, IsName s := fun s hs => (isStep_of_mem_names hs).1
  have hway : (((file.parent?).getD ⟨""⟩).join ⟨url⟩).names =
      root.names ++ collapse (ds ++ segments url.toList) := by
    have hdir : collapse (segments ((file.parent?).getD ⟨""⟩).chars) = root.names ++ ds := hds
    rw [hnames, collapse_append, hdir, List.append_assoc]
    exact (collapse_append_eq_iff hsteps _).2 (.inr hclimb)
  cases Option.some.inj hf
  rw [normal_eq, habsolute, h.isAbsolute, hway]
  refine isBelow_rooted_append hroot.1 hroot.2 fun s hs => isStep_of_mem_collapse ?_ hs
  intro t ht
  rcases List.mem_append.1 ht with ht | ht
  · exact (isStep_of_mem_names (hds ▸ List.mem_append_right _ ht)).2
  · exact slash_not_mem_of_mem_segments ht

namespace BundledModule

/-- Whether a module refers to a file as its source map. -/
def RefersTo (m : BundledModule) (f : Path) : Prop :=
  ∃ r, Reference.find? m.code = some r ∧ referencedFile? m.path r.url = some f

end BundledModule

namespace ModuleLoader

variable {l : ModuleLoader} {g : ModuleGraph} {m : BundledModule} {f entry : Path}

/-- Whether a script refers to a file that can be read as a source map. -/
structure RefersToMap (l : ModuleLoader) (m : BundledModule) (f : Path) : Prop where
  extracts : l.options.extractSourceMaps
  isScript : m.isJson = false
  refersTo : m.RefersTo f
  exists_map : ∃ text map, l.fs.readText f = .ok text ∧ SourceMap.ofJson l.mapDir text = .ok map

/-- Whether the source map of a module is the one in a file, with its sources seen from there. -/
def TakesMapFrom (l : ModuleLoader) (m : BundledModule) (f : Path) : Prop :=
  m.RefersTo f ∧ ∃ text map, l.fs.readText f = .ok text ∧
    SourceMap.ofJson l.mapDir text = .ok map ∧
    m.inputMap = some (map.relocate ((f.parent?).getD ((m.path.parent?).getD l.root)))

/-- The source map of a module, if one outside the root directory counts as missing. -/
def containedMap? (l : ModuleLoader) (m : BundledModule) : Option SourceMap :=
  if m.isJson then none
  else ((l.inputMap? m.path m.code).filter fun found => found.2.all (·.isBelow l.root)).map (·.1)

theorem containedMap?_eq_none {map : SourceMap}
    (hmap : l.inputMap? m.path m.code = some (map, some f)) (h : f.isBelow l.root = false) :
    l.containedMap? m = none := by
  unfold containedMap?
  split
  · rfl
  · rw [hmap]
    simp [Option.filter, h]

theorem refersToMap_iff : l.RefersToMap m f ↔
    m.isJson = false ∧ ∃ map, l.inputMap? m.path m.code = some (map, some f) := by
  constructor
  · rintro ⟨hextracts, hjson, ⟨r, hfind, hfile⟩, text, map, htext, hmap⟩
    have hload : SourceMap.load l.fs l.mapDir m.path r.url = .ok map := by
      rw [SourceMap.load, hfile]
      dsimp only
      rw [htext]
      exact hmap
    exact ⟨hjson, _, inputMap?_eq_some_iff.2 ⟨hextracts, r, map, hfind, hload, hfile, rfl⟩⟩
  · rintro ⟨hjson, map, hmap⟩
    obtain ⟨hextracts, r, source, hfind, hload, hfile, -⟩ := inputMap?_eq_some_iff.1 hmap
    rw [SourceMap.load, hfile] at hload
    dsimp only at hload
    cases htext : l.fs.readText f with
    | error e =>
      rw [htext] at hload
      cases hload
    | ok text =>
      rw [htext] at hload
      exact ⟨hextracts, hjson, ⟨r, hfind, hfile⟩, text, source, htext, hload⟩

theorem IsRead.inputMap_eq (h : l.IsRead g m) :
    m.inputMap = if m.isJson then none else (l.inputMap? m.path m.code).map (·.1) := by
  obtain ⟨mapFile, hread, -⟩ := h
  obtain ⟨code, -, ⟨-, hm, -⟩ | ⟨-, imports, -, hm, -⟩⟩ := readModule_eq_ok_iff.1 hread
  · have hjson : m.isJson = true := (congrArg (·.isJson) hm).symm
    have hmap : m.inputMap = none := (congrArg (·.inputMap) hm).symm
    rw [hjson, if_pos rfl, hmap]
  · have hjson : m.isJson = false := (congrArg (·.isJson) hm).symm
    have hcode : m.code = code := (congrArg (·.code) hm).symm
    have hmap : m.inputMap = (l.inputMap? m.path code).map (·.1) :=
      (congrArg (·.inputMap) hm).symm
    rw [hjson, if_neg Bool.false_ne_true, hmap, hcode]

/-- A module takes the map that it refers to, wherever that is. -/
theorem takesMapFrom_iff (hm : l.IsRead g m) : l.TakesMapFrom m f ↔ l.RefersToMap m f := by
  constructor
  · rintro ⟨hrefers, text, map, htext, hmap, hinput⟩
    rw [hm.inputMap_eq] at hinput
    split at hinput
    · cases hinput
    · rename_i hjson
      obtain ⟨⟨found, file⟩, hfound, -⟩ := Option.map_eq_some_iff.1 hinput
      exact ⟨(inputMap?_eq_some_iff.1 hfound).1, Bool.eq_false_iff.2 hjson, hrefers, text, map,
        htext, hmap⟩
  · intro h
    obtain ⟨hjson, found, hfound⟩ := refersToMap_iff.1 h
    obtain ⟨text, map, htext, hmap⟩ := h.exists_map
    refine ⟨h.refersTo, text, map, htext, hmap, ?_⟩
    obtain ⟨-, r, source, hfind, hload, hfile, hsource⟩ := inputMap?_eq_some_iff.1 hfound
    rw [SourceMap.load, hfile] at hload
    dsimp only at hload
    rw [htext] at hload
    cases hload.symm.trans hmap
    rw [hm.inputMap_eq, hjson, hfound, ← hsource]
    rfl

/-- The map of a module is left out where it should be exactly if it refers to no map outside the
root directory. -/
theorem inputMap_eq_containedMap?_iff (hm : l.IsRead g m) :
    m.inputMap = l.containedMap? m ↔ ∀ f, l.RefersToMap m f → f.isBelow l.root := by
  rw [hm.inputMap_eq]
  constructor
  · intro h f hf
    obtain ⟨hjson, map, hmap⟩ := refersToMap_iff.1 hf
    rw [hjson, hmap] at h
    by_contra hbelow
    cases h.trans (containedMap?_eq_none hmap (Bool.eq_false_iff.2 hbelow))
  · intro h
    unfold containedMap?
    split
    · rfl
    · rename_i hjson
      cases hmap : l.inputMap? m.path m.code with
      | none => rfl
      | some found =>
        obtain ⟨map, file⟩ := found
        have hall : file.all (·.isBelow l.root) = true := by
          cases file with
          | none => rfl
          | some f => exact h f (refersToMap_iff.2 ⟨Bool.eq_false_iff.2 hjson, map, hmap⟩)
        simp [Option.filter, hall]

/-- What can be relied on of the source maps of a graph. -/
structure TakesMaps (l : ModuleLoader) (g : ModuleGraph) : Prop where
  /-- The maps that come from files are those that modules refer to, wherever they are. -/
  takesMapFrom_iff : ∀ m ∈ g.modules, ∀ f, l.TakesMapFrom m f ↔ l.RefersToMap m f
  /-- The files that maps come from are watched. -/
  watched : ∀ m ∈ g.modules, ∀ f, l.TakesMapFrom m f → g.watchFiles.contains f = true
  /-- Maps outside the root directory are left out exactly if none is referred to. -/
  contained_iff : (∀ m ∈ g.modules, m.inputMap = l.containedMap? m) ↔
    ∀ m ∈ g.modules, ∀ f, l.RefersToMap m f → f.isBelow l.root
  /-- Relative references that do not climb above the root on their way mean files below it. -/
  isBelow : l.root.IsPlain → ∀ m ∈ g.modules, ∀ r f, Reference.find? m.code = some r →
    referencedFile? m.path r.url = some f →
    l.root.StaysBelow ((m.path.parent?).getD ⟨""⟩) r.url → f.isBelow l.root

/-- A graph takes the maps that its modules refer to, so none is from outside the root directory
exactly if none outside of it is referred to. -/
theorem takesMaps_of_load (h : l.load entry = .ok g) : l.TakesMaps g := by
  have hread : ∀ m ∈ g.modules, l.IsRead g m := by
    intro m hm
    obtain ⟨k, hk⟩ := Array.mem_iff_getElem?.1 hm
    exact (loaded_of_load h).read k m hk
  refine ⟨fun m hm f => ModuleLoader.takesMapFrom_iff (hread m hm), fun m hm f hf => ?_, ?_,
    fun hroot m _ r f _ hfile hstays => Path.isBelow_referencedFile? hroot hstays hfile⟩
  · obtain ⟨hjson, map, hmap⟩ :=
      refersToMap_iff.1 ((ModuleLoader.takesMapFrom_iff (hread m hm)).1 hf)
    exact (hread m hm).watched_of_inputMap? hjson hmap f rfl
  · exact forall₂_congr fun m hm => inputMap_eq_containedMap?_iff (hread m hm)

end ModuleLoader

namespace Bundler

open ModuleLoader

/-- A worker of the directory `/app` that refers to a source map, and the map in another file. -/
def mappedFrom (reference file : String) : Bundler :=
  ofScripts [("/app/src/w.js", "1;\n//# sourceMappingURL=" ++ reference),
    (file, "\x7b\"version\":3,\"sources\":[\"w.ts\"],\"mappings\":\"AAAA\"\x7d")]

/-- The request for the worker. -/
def workerRequest : BundleRequest := ⟨⟨"/app/src/w.js"⟩, ⟨"/app/src"⟩, ⟨"/app"⟩, "/src/w.js"⟩

/-- A map beside the directory of its worker, to which a reference leads that stays below the root. -/
theorem takesMaps_of_load_beside : ∃ g,
    ((mappedFrom "../maps/w.js.map" "/app/maps/w.js.map").loader workerRequest).load
      workerRequest.entry = .ok g ∧
    (∃ m ∈ g.modules, m.inputMap.isSome) ∧
    Path.StaysBelow ⟨"/app"⟩ ⟨"/app/src"⟩ "../maps/w.js.map" ∧
    ∀ m ∈ g.modules, m.inputMap =
      ((mappedFrom "../maps/w.js.map" "/app/maps/w.js.map").loader workerRequest).containedMap?
        m := by
  let l := (mappedFrom "../maps/w.js.map" "/app/maps/w.js.map").loader workerRequest
  obtain ⟨g, out, hload, -, h⟩ := exists_built_of_any
    (mappedFrom "../maps/w.js.map" "/app/maps/w.js.map") workerRequest 2
    (fun g _ => (g.modules.toList.any fun m => m.inputMap.isSome) &&
      g.modules.toList.all fun m =>
        (l.inputMap? m.path m.code).all fun found => found.2.all (·.isBelow l.root))
    (by decide) (by decide +kernel)
  obtain ⟨hsome, hall⟩ := Bool.and_eq_true_iff.1 h
  obtain ⟨m, hm, hmap⟩ := List.any_eq_true.1 hsome
  have hstays : Path.StaysBelow ⟨"/app"⟩ ⟨"/app/src"⟩ "../maps/w.js.map" :=
    ⟨by decide, by decide, by decide, ["src".toList], by decide +kernel, by decide +kernel⟩
  refine ⟨g, hload, ⟨m, Array.mem_toList_iff.1 hm, hmap⟩, hstays,
    (takesMaps_of_load hload).contained_iff.2 fun m hm f hf => ?_⟩
  obtain ⟨-, map, hmap⟩ := refersToMap_iff.1 hf
  have hfile := List.all_eq_true.1 hall m (Array.mem_toList_iff.2 hm)
  rw [hmap] at hfile
  exact hfile

/-- A map outside the root directory is taken all the same. -/
theorem not_inputMap_eq_containedMap?_above : ∃ g,
    ((mappedFrom "../../w.js.map" "/w.js.map").loader workerRequest).load workerRequest.entry =
      .ok g ∧
    ∃ m ∈ g.modules, ∃ f,
      ((mappedFrom "../../w.js.map" "/w.js.map").loader workerRequest).TakesMapFrom m f ∧
      f.isBelow workerRequest.root = false ∧
      m.inputMap ≠
        ((mappedFrom "../../w.js.map" "/w.js.map").loader workerRequest).containedMap? m := by
  let l := (mappedFrom "../../w.js.map" "/w.js.map").loader workerRequest
  obtain ⟨g, out, hload, -, h⟩ := exists_built_of_any
    (mappedFrom "../../w.js.map" "/w.js.map") workerRequest 2
    (fun g _ => g.modules.toList.any fun m => !m.isJson &&
      (l.inputMap? m.path m.code).any fun found => found.2.any (!·.isBelow l.root))
    (by decide) (by decide +kernel)
  obtain ⟨m, hm, hmodule⟩ := List.any_eq_true.1 h
  have hm : m ∈ g.modules := Array.mem_toList_iff.1 hm
  obtain ⟨hjson, hfound⟩ := Bool.and_eq_true_iff.1 hmodule
  obtain ⟨⟨map, file⟩, hmap, hfile⟩ := (Option.any_eq_true _ _).1 hfound
  obtain ⟨f, rfl, hbelow⟩ := (Option.any_eq_true _ _).1 hfile
  have hjson : m.isJson = false := by simpa using hjson
  have hbelow : f.isBelow l.root = false := by simpa using hbelow
  have htakes := ((takesMaps_of_load hload).takesMapFrom_iff m hm f).2
    (refersToMap_iff.2 ⟨hjson, map, hmap⟩)
  refine ⟨g, hload, m, hm, f, htakes, hbelow, fun hsame => ?_⟩
  obtain ⟨-, text, source, -, -, hinput⟩ := htakes
  cases (hinput.symm.trans hsame).trans (containedMap?_eq_none hmap hbelow)

end Bundler

end ModuleWorkers
