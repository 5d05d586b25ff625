import ModuleWorkers.Proofs.Bundle.InputMaps
import ModuleWorkers.Proofs.SourceMap.Sources

/-!
# What the sources of input maps mean

The map of a module lists sources as they are seen from the directory of the map, and the bundle
keeps them as they are seen from the directory of its own map. Sources pass two changes on the way:
when the map is read, absolute ones become ways from the directory of the bundle's map, and then all
that are relative are taken for paths from the directory of the module's map. For sources that were
relative this is right. A way to an absolute source is followed from the wrong directory, which does
no harm only if it climbs out of what the two directories do not share
(`ModuleLoader.exists_inputMap?_seenFrom_iff`).
-/

namespace ModuleWorkers

open SourceMap (Reference Fields referencedFile? referencedFields? sourcesDir)

namespace ModuleLoader

variable {l : ModuleLoader} {file : Path} {code : String} {r : Reference}

/-- A source of the map of a module means in the bundle what the way to it means, seen from the
directory of the map. This is what the source means itself exactly if it is relative, or the
directories of both maps agree as far up as the way climbs. -/
theorem exists_inputMap?_seenFrom_iff {source : SourceMap}
    (hmapDir : l.mapDir.isAbsolute → l.mapDir.IsPlain)
    (hextract : l.options.extractSourceMaps = true) (hfind : Reference.find? code = some r)
    (hload : SourceMap.load l.fs l.mapDir file r.url = .ok source)
    (hdir : (sourcesDir l.root file r.url).isAbsolute) :
    let dir := sourcesDir l.root file r.url
    ∃ f m, referencedFields? l.fs file r.url = some f ∧
      l.inputMap? file code = some (m, referencedFile? file r.url) ∧
      List.Forall₂
        (fun s k => Text.contains s "://" = false → ∃ stored, m.path? k = some stored ∧
          Source.seenFrom l.mapDir stored =
            Source.seenFrom dir (Source.relativePath l.mapDir s) ∧
          (Source.seenFrom l.mapDir stored = Source.seenFrom dir s ↔
            Source.LeadsFrom l.mapDir dir s))
        (f.sourceList.map (·.1)) (f.reindexing l.mapDir).sources := by
  intro dir
  obtain ⟨f, hfields, hmap⟩ := SourceMap.load_eq_ok_iff.1 hload
  obtain ⟨hroot, hsources⟩ := SourceMap.forall₂_path?_of_ofFields hmap
  refine ⟨f, source.relocate dir, hfields,
    inputMap?_eq_some_iff.2 ⟨hextract, r, source, hfind, hload, rfl, rfl⟩, ?_⟩
  refine hsources.imp fun s k hk hs => ?_
  have hway := Source.contains_relativePath hmapDir hs
  have hmeant := Source.seenFrom_relocated hmapDir hdir hway
  refine ⟨Source.relocated l.mapDir dir (Source.relativePath l.mapDir s), ?_, hmeant, ?_⟩
  · rw [SourceMap.path?_relocate, hk, hroot, Option.map_some]
  · rw [hmeant]
    exact Source.seenFrom_relativePath_eq_iff hmapDir hs dir

/-- A script of the directory `/app/src` whose map is in the directory `/app/maps`. -/
def mappedCode : String := "1;\n//# sourceMappingURL=../maps/w.js.map"

/-- Loads the script for a bundle with a map in the directory `/app/src`. The map of the script lists
some sources. -/
def loaderOfSources (sources : List String) : ModuleLoader :=
  (Bundler.ofScripts [("/app/src/w.js", mappedCode),
    ("/app/maps/w.js.map", "\x7b\"version\":3,\"sources\":" ++ SourceMap.quotedList sources ++
      ",\"mappings\":\"AAAA\"\x7d")]).loader Bundler.workerRequest

/-- A relative source, and an absolute one outside of both directories. -/
theorem exists_inputMap?_seenFrom_beside :
    let l := loaderOfSources ["w.ts", "/app/lib/b.ts"]
    ∃ m, l.inputMap? ⟨"/app/src/w.js"⟩ mappedCode = some (m, some ⟨"/app/maps/w.js.map"⟩) ∧
      l.mapDir = ⟨"/app/src"⟩ ∧
      (∃ stored, m.path? 0 = some stored ∧
        Source.seenFrom l.mapDir stored = ⟨"/app/maps/w.ts"⟩) ∧
      ∃ stored, m.path? 1 = some stored ∧
        Source.seenFrom l.mapDir stored = ⟨"/app/lib/b.ts"⟩ := by
  intro l
  have hfind : Reference.find? mappedCode = some ⟨"../maps/w.js.map", 3, 40⟩ := by decide +kernel
  have hloaded :
      (SourceMap.load l.fs l.mapDir ⟨"/app/src/w.js"⟩ "../maps/w.js.map").toOption.isSome := by
    decide +kernel
  obtain ⟨source, hload⟩ := Option.isSome_iff_exists.1 hloaded
  have hmapDir : l.mapDir = ⟨"/app/src"⟩ := congrArg Path.mk (by decide +kernel)
  have hmapFile : referencedFile? ⟨"/app/src/w.js"⟩ "../maps/w.js.map" =
      some ⟨"/app/maps/w.js.map"⟩ :=
    congrArg (some ∘ Path.mk) (by decide +kernel :
      (Path.join ⟨"/app/src"⟩ ⟨"../maps/w.js.map"⟩).normal.text = "/app/maps/w.js.map")
  have hplain : l.mapDir.IsPlain := ⟨by decide +kernel, by decide +kernel⟩
  have hlisted : (referencedFields? l.fs ⟨"/app/src/w.js"⟩ "../maps/w.js.map").map (fun f =>
      (f.sourceList.map (·.1), (f.reindexing l.mapDir).sources)) =
        some (["w.ts", "/app/lib/b.ts"], [0, 1]) := by
    decide +kernel
  obtain ⟨f, m, hfields, hmap, hsources⟩ := exists_inputMap?_seenFrom_iff (fun _ => hplain) rfl
    hfind (eq_ok_of_toOption hload) (by decide +kernel)
  rw [hfields] at hlisted
  obtain ⟨hpaths, hindexes⟩ := Prod.mk.inj (Option.some.inj hlisted)
  rw [hpaths, hindexes] at hsources
  obtain ⟨hrelative, hothers⟩ := List.forall₂_cons.1 hsources
  obtain ⟨habsolute, -⟩ := List.forall₂_cons.1 hothers
  obtain ⟨stored, hstored, -, hkept⟩ := hrelative (by decide +kernel)
  obtain ⟨stored', hstored', -, hkept'⟩ := habsolute (by decide +kernel)
  refine ⟨m, hmapFile ▸ hmap, hmapDir, ⟨stored, hstored, (hkept.2 (by decide +kernel)).trans ?_⟩,
    stored', hstored', (hkept'.2 (by decide +kernel)).trans ?_⟩
  · exact congrArg Path.mk (by decide +kernel)
  · exact congrArg Path.mk (by decide +kernel)

/-- An absolute source in the directory of the bundle's map is taken for one beside the module's
map. -/
theorem not_inputMap?_seenFrom_twice :
    let l := loaderOfSources ["/app/src/w.ts"]
    ∃ m, l.inputMap? ⟨"/app/src/w.js"⟩ mappedCode = some (m, some ⟨"/app/maps/w.js.map"⟩) ∧
      m.path? 0 = some "../maps/w.ts" ∧
      Source.seenFrom l.mapDir "../maps/w.ts" ≠ Source.seenFrom ⟨"/app/maps"⟩ "/app/src/w.ts" := by
  intro l
  have hstored : (l.inputMap? ⟨"/app/src/w.js"⟩ mappedCode).any fun found =>
      found.1.path? 0 == some "../maps/w.ts" && found.2.any (·.text == "/app/maps/w.js.map") := by
    decide +kernel
  obtain ⟨⟨m, mapFile⟩, hmap, hfound⟩ := (Option.any_eq_true _ _).1 hstored
  obtain ⟨hpath, hfile⟩ := Bool.and_eq_true_iff.1 hfound
  obtain ⟨f, rfl, hf⟩ := (Option.any_eq_true _ _).1 hfile
  obtain rfl : f = ⟨"/app/maps/w.js.map"⟩ := congrArg Path.mk (beq_iff_eq.1 hf)
  refine ⟨m, hmap, beq_iff_eq.1 hpath, fun hsame => ?_⟩
  have hdiffers : (Source.seenFrom l.mapDir "../maps/w.ts").text ≠
      (Source.seenFrom ⟨"/app/maps"⟩ "/app/src/w.ts").text := by
    decide +kernel
  exact hdiffers (congrArg Path.text hsame)

end ModuleLoader

end ModuleWorkers
