import ModuleWorkers.Proofs.Bundle.Reloading
import ModuleWorkers.Proofs.Bundle.Scripts

/-!
# What the watched files decide

A bundle is what the files that it watches say, but for source maps: a file that a module refers to
as its map is read and, if no map comes out, left out of the watched files. So a bundle stays as it
is as long as the watched files do exactly if besides no such file becomes a map
(`Bundler.bundle_eq_iff`).
-/

namespace ModuleWorkers

namespace ModuleLoader

variable {l l' : ModuleLoader} {g : ModuleGraph} {file entry : Path} {m : BundledModule}
  {mapFile : Option Path} {k : Nat}

/-- The watched files of a graph have the same contents for two loaders. -/
def SameWatched (l l' : ModuleLoader) (g : ModuleGraph) : Prop :=
  ∀ p, g.watchFiles.contains p = true → l.fs.content? p = l'.fs.content? p

/-- A source map that could not be read still cannot. -/
def StillUnread (l l' : ModuleLoader) (m : BundledModule) : Prop :=
  m.isJson = false → l.inputMap? m.path m.code = none → l'.inputMap? m.path m.code = none

theorem mapFile_eq (h : l.readModule file = .ok (m, mapFile)) (hjson : m.isJson = false) :
    (l.inputMap? file m.code).bind (·.2) = mapFile := by
  obtain ⟨code, -, ⟨-, rfl, -⟩ | ⟨-, imports, -, rfl, rfl⟩⟩ := readModule_eq_ok_iff.1 h
  · cases hjson
  · rfl

/-- The map of a module and the watched file that it is in, if it is in one. -/
theorem IsRead.watched_of_inputMap? (hm : l.IsRead g m) (hjson : m.isJson = false)
    {map : SourceMap} (hmap : l.inputMap? m.path m.code = some (map, mapFile)) :
    ∀ p ∈ mapFile, g.watchFiles.contains p = true := by
  obtain ⟨mapFile', hread, hwatch⟩ := hm
  have hmapFile := mapFile_eq hread hjson
  change (l.inputMap? m.path m.code).bind (·.2) = mapFile' at hmapFile
  rw [hmap, Option.bind_some] at hmapFile
  intro p hp
  exact hwatch p (List.mem_cons_of_mem _ (Option.mem_toList.2 (hmapFile ▸ hp)))

theorem IsRead.readAlike {exact : Prop} (hl : l.Alike l') (hsame : SameWatched l l' g)
    (hm : l.IsRead g m) (hunread : exact → StillUnread l l' m) : ReadAlike exact l l' m.path := by
  obtain ⟨mapFile, hread, hwatch⟩ := hm
  refine hl.readAlike (hsame _ (hwatch m.path List.mem_cons_self))
    fun hexact n mapFile' hn hjson => ?_
  rw [hread] at hn
  cases hn
  change l.inputMap? m.path m.code = l'.inputMap? m.path m.code
  cases hmap : l.inputMap? m.path m.code with
  | none => exact (hunread hexact hjson hmap).symm
  | some found =>
    refine (hl.inputMap?_eq hmap fun p hp => hsame p ?_).symm
    exact IsRead.watched_of_inputMap? ⟨mapFile, hread, hwatch⟩ hjson hmap p hp

/-- A load of watched files that stayed the same finds the same modules. -/
theorem Loaded.exists_load_alike {exact : Prop} (hl : l.Alike l') (hload : l.load entry = .ok g)
    (hsame : SameWatched l l' g) (hunread : exact → ∀ m ∈ g.modules, StillUnread l l' m) :
    ∃ g', l'.load entry = .ok g' ∧ AlikeGraphs exact g g' := by
  have hg := loaded_of_load hload
  refine ModuleLoader.exists_load_alike (fun m hm => ?_) (fun m hm d hd => ?_) hload
  all_goals obtain ⟨k, hk⟩ := Array.mem_iff_getElem?.1 hm
  · exact IsRead.readAlike hl hsame (hg.read k m hk) fun hexact => hunread hexact m hm
  · exact hl.resolve_eq fun p hp => hsame p (hg.resolved k m hk d hd p hp)

end ModuleLoader

namespace Bundler

open ModuleLoader

variable {b : Bundler} {fs' : FileSystem} {request : BundleRequest} {g : ModuleGraph}
  {out : BundleOutput}

theorem watchFiles_eq (hload : (b.loader request).load request.entry = .ok g)
    (hout : b.bundle request = .ok out) : out.watchFiles = g.watchFiles := by
  rw [bundle_of_load hload] at hout
  exact (ofGraph_eq_ok (loaded_of_load hload) hout).2.2

theorem alike_loader (hfiles : b.fs.HaveSameFiles fs') (request : BundleRequest) :
    (b.loader request).Alike (({ b with fs := fs' } : Bundler).loader request) :=
  ⟨⟨hfiles, rfl, rfl⟩, rfl, rfl⟩

/-- As long as the watched files stay the same, so does the bundle, exactly if no source map can be
read that could not be read before. -/
theorem bundle_eq_iff (hfiles : b.fs.HaveSameFiles fs')
    (hload : (b.loader request).load request.entry = .ok g) (hout : b.bundle request = .ok out)
    (hwatched : ∀ p ∈ out.watchFiles, b.fs.content? p = fs'.content? p) :
    ({ b with fs := fs' } : Bundler).bundle request = .ok out ↔
      ∀ m ∈ g.modules,
        StillUnread (b.loader request) (({ b with fs := fs' } : Bundler).loader request) m := by
  have hl := alike_loader hfiles request
  have hcontent : ∀ p, out.watchFiles.contains p = true → b.fs.content? p = fs'.content? p := by
    intro p hp
    obtain ⟨q, hq, hpq⟩ := List.contains_iff_exists_mem_beq.1 hp
    rw [b.fs.content?_eq_of_beq hpq, fs'.content?_eq_of_beq hpq, hwatched q hq]
  have hsame : SameWatched (b.loader request) (({ b with fs := fs' } : Bundler).loader request) g :=
    fun p hp => hcontent p (watchFiles_eq hload hout ▸ hp)
  constructor
  · intro hout' m hm hjson hnone
    obtain ⟨g', hload', hg⟩ := Loaded.exists_load_alike hl hload hsame False.elim
    obtain ⟨k, hk⟩ := Array.mem_iff_getElem?.1 hm
    obtain ⟨m', hm', hmapless⟩ := hg.exists_mapless hk
    obtain ⟨-, hpath, hcode, hjson', -⟩ := BundledModule.mapless_eq_iff.1 hmapless
    rw [hpath, hcode] at hnone ⊢
    rw [hjson'] at hjson
    by_contra hsome
    obtain ⟨⟨map, mapFile⟩, hmap⟩ := Option.ne_none_iff_exists'.1 hsome
    have hread := (loaded_of_load hload').read k m' hm'
    -- the map that can be read now is in a watched file, so it could be read before
    have hbefore : (b.loader request).inputMap? m'.path m'.code = some (map, mapFile) := by
      have hback := alike_loader (b := { b with fs := fs' }) (fun p => (hfiles p).symm) request
      refine hback.inputMap?_eq hmap fun p hp => ?_
      refine (hcontent p ?_).symm
      rw [watchFiles_eq hload' hout']
      exact hread.watched_of_inputMap? hjson hmap p hp
    rw [hnone] at hbefore
    cases hbefore
  · intro hunread
    obtain ⟨g', hload', hg⟩ := Loaded.exists_load_alike hl hload hsame fun _ : True => hunread
    cases hg.eq trivial
    rw [bundle_of_load hload']
    rw [bundle_of_load hload] at hout
    exact hout

/-! ## A worker with a source map -/

/-- A worker and what it refers to as its source map. -/
def mapped (map : String) : Bundler :=
  ofScripts [("/w.js", "1;\n//# sourceMappingURL=w.js.map"), ("/w.js.map", map)]

theorem haveSameFiles_mapped (map map' : String) :
    (mapped map).fs.HaveSameFiles (mapped map').fs := fun place => by
  have hplaces : ∀ map, (mapped map).fs.files.map Prod.fst =
      [Path.place ⟨"/w.js.map"⟩, Path.place ⟨"/w.js"⟩] := by
    intro map
    have hne : (Path.place ⟨"/w.js"⟩ != Path.place ⟨"/w.js.map"⟩) = true := by decide +kernel
    simp [mapped, ofScripts, FileSystem.writeText, FileSystem.write, hne]
  rw [hplaces, hplaces]

theorem content?_mapped {map map' : String} {ps : List Path} (hps : ps.map (·.text) = ["/w.js"]) :
    ∀ p ∈ ps, (mapped map).fs.content? p = (mapped map').fs.content? p := by
  intro p hp
  have hpath : p = ⟨"/w.js"⟩ :=
    congrArg Path.mk (List.mem_singleton.1 (hps ▸ List.mem_map_of_mem hp))
  have hne : (Path.place ⟨"/w.js"⟩ != Path.place ⟨"/w.js.map"⟩) = true := by decide +kernel
  have hne' : (Path.place ⟨"/w.js"⟩ == Path.place ⟨"/w.js.map"⟩) = false := by decide +kernel
  simp [hpath, mapped, ofScripts, FileSystem.writeText, FileSystem.write, FileSystem.content?,
    List.lookup_cons, hne, hne']

/-- A file that is no map, and another one in its place. -/
theorem bundle_eq_iff_unread : ∃ out, (mapped "\x7b").bundle (requestOf "/w.js") = .ok out ∧
    (mapped "[").bundle (requestOf "/w.js") = .ok out := by
  obtain ⟨g, out, hload, hout, h⟩ := exists_built_of_any (mapped "\x7b") (requestOf "/w.js") 2
    (fun g out => g.modules.toList.map (fun m => (m.path.text, m.code)) =
        [("/w.js", "1;\n//# sourceMappingURL=w.js.map")] ∧
      out.watchFiles.map (·.text) = ["/w.js"])
    (by decide) (by decide +kernel)
  obtain ⟨hmodules, hwatched⟩ := of_decide_eq_true h
  refine ⟨out, hout, (bundle_eq_iff (haveSameFiles_mapped _ "[") hload hout
    (content?_mapped hwatched)).2 fun m hm _ _ => ?_⟩
  have hmem := List.mem_map_of_mem (f := fun m : BundledModule => (m.path.text, m.code))
    (Array.mem_toList_iff.2 hm)
  rw [hmodules] at hmem
  obtain ⟨hpath, hcode⟩ := Prod.mk.inj (List.mem_singleton.1 hmem)
  have hnone : ((mapped "[").loader (requestOf "/w.js")).inputMap? ⟨"/w.js"⟩
      "1;\n//# sourceMappingURL=w.js.map" = none :=
    Option.isNone_iff_eq_none.1 (by decide +kernel)
  rw [hcode, show m.path = ⟨"/w.js"⟩ from congrArg Path.mk hpath]
  exact hnone

/-- A source map without sources. -/
def emptyMap : String := "\x7b\"version\":3,\"sources\":[],\"mappings\":\"\"\x7d"

/-- A file that is no map becomes one, and with it the bundle changes, which did not watch it. -/
theorem exists_bundle_ne : ∃ out out', (mapped "\x7b").fs.HaveSameFiles (mapped emptyMap).fs ∧
    (mapped "\x7b").bundle (requestOf "/w.js") = .ok out ∧
    (∀ p ∈ out.watchFiles, (mapped "\x7b").fs.content? p = (mapped emptyMap).fs.content? p) ∧
    (mapped emptyMap).bundle (requestOf "/w.js") = .ok out' ∧ out'.watchFiles ≠ out.watchFiles := by
  obtain ⟨-, out, -, hout, h⟩ := exists_built_of_any (mapped "\x7b") (requestOf "/w.js") 2
    (fun _ out => out.watchFiles.map (·.text) = ["/w.js"]) (by decide) (by decide +kernel)
  obtain ⟨-, out', -, hout', h'⟩ := exists_built_of_any (mapped emptyMap) (requestOf "/w.js") 2
    (fun _ out => out.watchFiles.map (·.text) = ["/w.js", "/w.js.map"]) (by decide) (by decide +kernel)
  have hwatched := of_decide_eq_true h
  have hwatched' := of_decide_eq_true h'
  refine ⟨out, out', haveSameFiles_mapped _ _, hout, content?_mapped hwatched, hout',
    fun hsame => ?_⟩
  rw [hsame, hwatched] at hwatched'
  cases hwatched'

end Bundler

end ModuleWorkers
