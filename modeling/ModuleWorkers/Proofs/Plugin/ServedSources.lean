import ModuleWorkers.Proofs.Bundle.InputMaps
import ModuleWorkers.Proofs.Plugin.ServedMap
import ModuleWorkers.Proofs.SourceMap.Sources

/-!
# What the sources of original maps mean

The map that a served script had lists sources as they are seen from the directory of that map. They
go into the new map as they are seen from the root directory, and are read from the directory that
the new map is served in, but nothing moves them there. So a source that was absolute is right only
as far as this directory agrees with the root, and one that was relative only as far as it agrees
with the directory of the original map (`ServedScript.exists_attachMap_seenFrom_iff`). The latter
two are the same if the address of the original map holds it, or is a path that stays below the root
(`ServedScript.mapDir_eq_sourcesDir`).
-/

namespace ModuleWorkers

open SourceMap (Reference Fields referencedFile? referencedFields? sourcesDir)

namespace ServedScript

variable {s : ServedScript} {fs : FileSystem} {b : EditBuffer} {p : MapPlacement} {r : Reference}
  {original : SourceMap} {root : Path} {path url : String}

/-! ## Where the new map is -/

/-- The new map of a script with an original one is where the reference is kept, or beside the
script. -/
theorem placeMap_eq (hfind : Reference.find? b.base = some r)
    (hinner : s.loadMap? fs r.url = some original) (hplace : s.placeMap fs b = .ok p) :
    p.inner = some original ∧ p.path = (s.keptPath? r.url).getD s.ownPath := by
  unfold placeMap at hplace
  rw [hfind] at hplace
  dsimp only at hplace
  rw [hinner] at hplace
  cases hkept : s.keptPath? r.url with
  | some path =>
    rw [hkept] at hplace
    cases hplace
    exact ⟨rfl, rfl⟩
  | none =>
    rw [hkept] at hplace
    obtain ⟨buffer, -, hp⟩ := exists_of_bind_eq_ok hplace
    cases hp
    exact ⟨rfl, rfl⟩

theorem mapDir_ownPath (hpath : UrlPath.normalize path ≠ "/") :
    (ofPath root path).file.parent? =
      some ((ofPath root path).mapDir (ofPath root path).ownPath) := by
  rw [mapDir, ownPath, UrlPath.dirname_append _ (by decide)]
  exact Path.parent?_ofUrl root hpath

theorem startsWith_of_referencedFile?_eq_none {file : Path}
    (h : referencedFile? file url = none) : url.startsWith "data:" := by
  unfold referencedFile? at h
  cases hcut : Text.cut? [':'] url.toList with
  | none =>
    rw [hcut] at h
    dsimp only at h
    rw [if_neg (by decide)] at h
    cases h
  | some r =>
    obtain ⟨scheme, after⟩ := r
    rw [hcut] at h
    dsimp only at h
    split at h
    · rename_i hscheme
      rw [String.startsWith_string_iff, Text.eq_of_cut? hcut, hscheme]
      exact ⟨after, by simp⟩
    · cases h

theorem keptPath?_of_not_mem (hpath : ':' ∉ url.toList)
    (habsolute : (⟨url⟩ : Path).isAbsolute = false) :
    s.keptPath? url = some (UrlPath.normalize (UrlPath.dirname s.path ++ "/" ++ url)) := by
  have hdata : url.startsWith "data:" = false := by
    rw [Bool.eq_false_iff]
    intro h
    exact hpath ((String.startsWith_string_iff.1 h).subset (by decide))
  have hslash : url.startsWith "/" = false := by
    rw [Bool.eq_false_iff]
    intro h
    obtain ⟨cs, hcs⟩ := String.startsWith_string_iff.1 h
    rw [Path.isAbsolute, Path.chars, ← hcs] at habsolute
    cases habsolute
  have hhost : Text.contains url "://" = false :=
    Text.contains_eq_false (c := ':') (by decide) hpath
  rw [keptPath?, mapPath?, hdata, hhost, hslash]
  rfl

/-- A reference that stays below the root means the file of the address that is requested for it. -/
theorem referencedFile?_eq_ofUrl (hpath : UrlPath.normalize path ≠ "/")
    (hstays : root.StaysBelow (((ofPath root path).file.parent?).getD ⟨""⟩) url) :
    referencedFile? (ofPath root path).file url = some (root.ofUrl (UrlPath.normalize
      (UrlPath.dirname (ofPath root path).path ++ "/" ++ url))) := by
  obtain ⟨ds, last, hds, -, -, hdirname, -, -⟩ := UrlPath.exists_normalize_eq path
  have hparent : (ofPath root path).file.parent? =
      some (root.ofUrl (UrlPath.dirname (UrlPath.normalize path))) := Path.parent?_ofUrl root hpath
  obtain ⟨ds', hds', hclimb⟩ := hstays.exists_climb
  have hdir : root.ofUrl (UrlPath.dirname (UrlPath.normalize path)) =
      .ofNames root.isAbsolute (root.names ++ ds) := by
    rw [Path.ofUrl_eq, hdirname, collapse_segments_slash_joined hds]
  have hsteps : ∀ s ∈ root.names ++ ds, IsStep s := fun s =>
    Path.isStep_of_mem_names_append hds
  rw [hparent, Option.getD_some, hdir, Path.names_ofNames _ hsteps] at hds'
  obtain rfl := List.append_cancel_left hds'
  -- the pieces of the address that is requested
  have hkey : collapse (segments (UrlPath.dirname (UrlPath.normalize path) ++ "/" ++ url).toList) =
      collapse (ds ++ segments url.toList) := by
    have hdirectory : UrlPath.IsMadeOf (UrlPath.dirname (UrlPath.normalize path)) ds :=
      ⟨hds, hdirname⟩
    rw [← UrlPath.names, UrlPath.names_join, hdirectory.names_eq]
  have hnames : (Path.join (.ofNames root.isAbsolute (root.names ++ ds)) ⟨url⟩).names =
      root.names ++ collapse (ds ++ segments url.toList) := by
    rw [(Path.join_of_relative _ hstays.isRelative).2, collapse_append]
    change collapse ((Path.ofNames root.isAbsolute (root.names ++ ds)).names ++ _) = _
    rw [Path.names_ofNames _ hsteps, List.append_assoc]
    exact (collapse_append_eq_iff (fun s hs => (Path.isStep_of_mem_names hs).1) _).2 (.inr hclimb)
  rw [referencedFile?_of_not_mem hstays.isPath, hparent, Option.getD_some, hdir, Path.normal_eq,
    (Path.join_of_relative _ hstays.isRelative).1, Path.isAbsolute_ofNames _ hsteps, hnames,
    Path.ofUrl, UrlPath.normalize_normalize]
  exact congrArg some ((congrArg (Path.ofNames _ <| root.names ++ ·) hkey.symm).trans
    (Path.ofUrl_eq root _).symm)

/-- The new map is in the directory that the sources of the original one are seen from, if the
address of that one holds it, or is a path that stays below the root. -/
theorem mapDir_eq_sourcesDir (hpath : UrlPath.normalize path ≠ "/")
    (hfind : Reference.find? b.base = some r)
    (hinner : (ofPath root path).loadMap? fs r.url = some original)
    (hplace : (ofPath root path).placeMap fs b = .ok p)
    (hurl : referencedFile? (ofPath root path).file r.url = none ∨
      root.StaysBelow (((ofPath root path).file.parent?).getD ⟨""⟩) r.url ∧ p.path ≠ "/") :
    (ofPath root path).mapDir p.path = sourcesDir root (ofPath root path).file r.url := by
  obtain ⟨-, hkey⟩ := placeMap_eq hfind hinner hplace
  rcases hurl with hnone | ⟨hstays, hne⟩
  · have hdata := startsWith_of_referencedFile?_eq_none hnone
    rw [keptPath?, hdata, if_pos rfl, Option.getD_none] at hkey
    rw [sourcesDir, hnone, Option.getD_none, mapDir_ownPath hpath, hkey, Option.getD_some]
  · rw [keptPath?_of_not_mem hstays.isPath hstays.isRelative, Option.getD_some] at hkey
    rw [hkey] at hne
    rw [sourcesDir, referencedFile?_eq_ofUrl hpath hstays, Option.getD_some,
      Path.parent?_ofUrl root hne, Option.getD_some, hkey]
    rfl

/-! ## Sources -/

theorem isAbsolute_mapDir (s : ServedScript) (key : String) :
    (s.mapDir key).isAbsolute = s.root.isAbsolute := by
  rw [mapDir, Path.ofUrl_eq, Path.isAbsolute_ofNames _ fun _ => Path.isStep_of_mem_ofUrl]

theorem exists_servedMap_of_inner (hindexed : original.IsIndexed)
    (hinner : p.inner = some original) :
    ∃ m, s.servedMap p = .ok m ∧
      m.sources = ((s.editMap p).mergeTables original).2.sources := by
  have hindexed' : (s.editMap p).IsIndexed := EditBuffer.isIndexed_sourceMap _ _ _ _
  refine ⟨{ ((s.editMap p).mergeTables original).2.mapLocations (SourceMap.traceLocation original
    ((s.editMap p).mergeTables original).1) with file := some s.basename }, ?_, rfl⟩
  unfold servedMap
  rw [hinner]
  change ((s.editMap p).compose original >>= fun m => _) = _
  rw [SourceMap.compose_eq hindexed' hindexed]
  rfl

/-- A source goes into the new map as it is seen from the root directory. -/
theorem exists_path?_mergeTables (hroot : s.root.isAbsolute → s.root.IsPlain) {source : String}
    (hsource : Text.contains source "://" = false) {j : Nat}
    (hj : original.path? j = some (Source.relativePath s.root source)) :
    ∃ k, ((s.editMap p).mergeTables original).1.sources[j]? = some k ∧
      ((s.editMap p).mergeTables original).2.path? k =
        some (Source.relativePath s.root source) := by
  rw [SourceMap.path?_eq_getElem?] at hj
  obtain ⟨k, hk, hpath⟩ :=
    SourceMap.exists_getElem?_right (SourceMap.leads_mergeTables (s.editMap p) original).sources hj
  have hmergedRoot : ((s.editMap p).mergeTables original).2.root = s.mapDir p.path :=
    (SourceMap.extends_mergeTables _ _).root.trans (EditBuffer.root_sourceMap _ _ _ _)
  have habsolute := isAbsolute_mapDir s p.path
  rw [hmergedRoot, Source.relativePath_relativePath_of_eq hroot habsolute hsource] at hpath
  exact ⟨k, hk, hpath⟩

/-- A source of the original map is written as it is seen from the root directory. Seen from where
the new map is served, it means the same exactly if, in case it was absolute, the way to it leads
there from this directory too, and in case it was relative, this directory agrees with that of the
original map as far up as it climbs. The ways to sources below the root lead there from the root
only. -/
theorem exists_attachMap_seenFrom_iff (hroot : root.isAbsolute → root.IsPlain)
    (hfind : Reference.find? b.base = some r)
    (hinner : (ofPath root path).loadMap? fs r.url = some original)
    (hplace : (ofPath root path).placeMap fs b = .ok p) :
    let s := ofPath root path
    let dir := sourcesDir root s.file r.url
    let mapDir := s.mapDir p.path
    (∃ f m, referencedFields? fs s.file r.url = some f ∧
      s.attachMap fs b = (p.buffer, some (p.path, m)) ∧
      List.Forall₂
        (fun source j => Text.contains source "://" = false → ∃ k written,
          ((s.editMap p).mergeTables original).1.sources[j]? = some k ∧
          m.path? k = some written ∧ written = Source.relativePath root source ∧
          (Source.seenFrom mapDir written = Source.seenFrom dir source ↔
            Source.LeadsFrom root mapDir source ∧
              ((Path.mk source).isAbsolute = false → mapDir.AgreeUp dir (Source.climb source))))
        (f.sourceList.map (·.1)) (f.reindexing root).sources) ∧
    (UrlPath.normalize path ≠ "/" →
      referencedFile? s.file r.url = none ∨
        root.StaysBelow ((s.file.parent?).getD ⟨""⟩) r.url ∧ p.path ≠ "/" →
      mapDir = dir) ∧
    ∀ source, Text.contains source "://" = false → root.isAbsolute → (Path.mk source).IsPlain →
      (Path.mk source).isBelow root →
      (Source.LeadsFrom root mapDir source ↔ mapDir.normal = root.normal) := by
  intro s dir mapDir
  refine ⟨?_, fun hpath hurl => mapDir_eq_sourcesDir hpath hfind hinner hplace hurl,
    fun source hsource habsolute hplain hbelow =>
      Source.leadsFrom_iff_of_isBelow (hroot habsolute) hplain hbelow hsource mapDir⟩
  obtain ⟨hp, -⟩ := placeMap_eq hfind hinner hplace
  obtain ⟨f, hfields, hmap⟩ := SourceMap.load_eq_ok_iff.1 (load_of_loadMap? hinner)
  obtain ⟨m, hm, hsources⟩ := exists_servedMap_of_inner (s := s)
    (SourceMap.isIndexed_of_ofFields hmap) hp
  have hattach : s.attachMap fs b = (p.buffer, some (p.path, m)) := by
    rw [attachMap, hplace]
    dsimp only
    rw [hm]
  refine ⟨f, m, hfields, hattach, (SourceMap.forall₂_path?_of_ofFields hmap).2.imp ?_⟩
  intro source j hj hsource
  obtain ⟨k, hk, hpath⟩ := exists_path?_mergeTables (p := p) hroot hsource hj
  refine ⟨k, _, hk, by rw [SourceMap.path?, hsources]; exact hpath, rfl, ?_⟩
  have hway := Source.seenFrom_relativePath_eq_iff hroot hsource mapDir
  cases hs : (Path.mk source).isAbsolute with
  | true =>
    rw [Source.seenFrom_of_isAbsolute hs] at hway ⊢
    simpa using hway
  | false =>
    have hleads : Source.LeadsFrom root mapDir source := fun habsolute => by simp [hs] at habsolute
    have hfrom := Source.seenFrom_eq_iff hs mapDir dir
    rw [hway.2 hleads, hfrom]
    simp [hleads]

/-- A compiled script beside its map. -/
def besideScript : ServedScript := ofPath ⟨"/app"⟩ "/src/a.js"

/-- The text of the compiled script, which refers to its map by a relative path. -/
def besideText : String := "1\n//# sourceMappingURL=a.js.map"

/-- The new map is stored where the original one was, and its source is still beside it. -/
theorem exists_attachMap_seenFrom_beside : ∃ p m k written,
    besideScript.placeMap PluginState.compiledFiles { base := besideText } = .ok p ∧
    besideScript.attachMap PluginState.compiledFiles { base := besideText } =
      (p.buffer, some (p.path, m)) ∧
    m.path? k = some written ∧
    besideScript.mapDir p.path = sourcesDir ⟨"/app"⟩ besideScript.file "a.js.map" ∧
    Source.seenFrom (besideScript.mapDir p.path) written = ⟨"/app/src/a.ts"⟩ := by
  let fs := PluginState.compiledFiles
  have hfind : Reference.find? besideText = some ⟨"a.js.map", 2, 31⟩ := by decide +kernel
  have hloaded : (besideScript.loadMap? fs "a.js.map").isSome := by decide +kernel
  obtain ⟨original, hinner⟩ := Option.isSome_iff_exists.1 hloaded
  have hplaced :
      (besideScript.placeMap fs { base := besideText }).toOption.any (·.path != "/") := by
    decide +kernel
  obtain ⟨p, hplace, hne⟩ := (Option.any_eq_true _ _).1 hplaced
  have hstays : Path.StaysBelow ⟨"/app"⟩ ((besideScript.file.parent?).getD ⟨""⟩) "a.js.map" :=
    ⟨by decide +kernel, by decide +kernel, by decide +kernel, ["src".toList], by decide +kernel,
      by decide +kernel⟩
  have hlisted : (referencedFields? fs besideScript.file "a.js.map").map (fun f =>
      (f.sourceList.map (·.1), (f.reindexing ⟨"/app"⟩).sources)) = some (["a.ts"], [0]) := by
    decide +kernel
  obtain ⟨⟨f, m, hfields, hattach, hsources⟩, hdir, -⟩ :=
    exists_attachMap_seenFrom_iff (b := { base := besideText })
      (fun _ => ⟨by decide +kernel, by decide +kernel⟩) hfind hinner (eq_ok_of_toOption hplace)
  have hmapDir := hdir (by decide +kernel) (.inr ⟨hstays, bne_iff_ne.1 hne⟩)
  have hlisted' := hfields ▸ hlisted
  obtain ⟨hpaths, hindexes⟩ := Prod.mk.inj (Option.some.inj hlisted')
  rw [hpaths, hindexes] at hsources
  obtain ⟨hsource, -⟩ := List.forall₂_cons.1 hsources
  obtain ⟨k, written, -, hwritten, -, hkept⟩ := hsource (by decide +kernel)
  refine ⟨p, m, k, written, eq_ok_of_toOption hplace, hattach, hwritten, hmapDir,
    (hkept.2 ⟨fun habsolute => absurd habsolute (by decide), fun _ => ?_⟩).trans ?_⟩
  · rw [hmapDir]
    exact .refl _ _
  · exact congrArg Path.mk (by decide +kernel)

/-- A script that constructs a worker, and refers to a map in another directory by the address of
its file. -/
def elsewhereText : String :=
  "new Worker('./w.js', \x7btype: 'module'\x7d)\n//# sourceMappingURL=file:///app/maps/a.js.map"

/-- The map in the other directory, with a source beside it and one beside the script. -/
def elsewhereFiles : FileSystem :=
  FileSystem.writeText {} ⟨"/app/maps/a.js.map"⟩
    "\x7b\"version\":3,\"sources\":[\"a.ts\",\"/app/src/b.ts\"],\"mappings\":\"AAAA\"\x7d"

/-- The new map is stored beside the script. There one source is taken for a file beside the script,
and the other one for a file in a directory below it. -/
theorem not_attachMap_seenFrom_elsewhere : ∃ script buffer m,
    CanonicalScript.ofText elsewhereText "/src/a.js" {} = .ok (some script) ∧
    (ofPath ⟨"/app"⟩ "/src/a.js").attachMap elsewhereFiles script.buffer =
      (buffer, some ("/src/a.js.map", m)) ∧
    m.sources.map (·.path) = ["a.js", "a.ts", "src/b.ts"] ∧
    (ofPath ⟨"/app"⟩ "/src/a.js").mapDir "/src/a.js.map" = ⟨"/app/src"⟩ ∧
    Source.seenFrom ⟨"/app/src"⟩ "a.ts" ≠ Source.seenFrom ⟨"/app/maps"⟩ "a.ts" ∧
    Source.seenFrom ⟨"/app/src"⟩ "src/b.ts" ≠ Source.seenFrom ⟨"/app/maps"⟩ "/app/src/b.ts" := by
  have hscripts : ((CanonicalScript.ofText elsewhereText "/src/a.js" {}).toOption.bind id).map
      (fun script =>
        ((ofPath ⟨"/app"⟩ "/src/a.js").attachMap elsewhereFiles script.buffer).2.map fun stored =>
          (stored.1, stored.2.sources.map (·.path))) =
      some (some ("/src/a.js.map", ["a.js", "a.ts", "src/b.ts"])) := by
    decide +kernel
  have hbeside : (Source.seenFrom ⟨"/app/src"⟩ "a.ts").text ≠
      (Source.seenFrom ⟨"/app/maps"⟩ "a.ts").text := by
    decide +kernel
  have hbelow : (Source.seenFrom ⟨"/app/src"⟩ "src/b.ts").text ≠
      (Source.seenFrom ⟨"/app/maps"⟩ "/app/src/b.ts").text := by
    decide +kernel
  obtain ⟨script, hscript, hstored⟩ := Option.map_eq_some_iff.1 hscripts
  obtain ⟨_, hscript, rfl⟩ := Option.bind_eq_some_iff.1 hscript
  obtain ⟨⟨key, m⟩, hstored, hm⟩ := Option.map_eq_some_iff.1 hstored
  obtain ⟨rfl, hpaths⟩ := Prod.mk.inj hm
  exact ⟨script, _, m, eq_ok_of_toOption hscript, Prod.ext rfl hstored, hpaths,
    congrArg Path.mk (by decide +kernel), fun h => hbeside (congrArg Path.text h),
    fun h => hbelow (congrArg Path.text h)⟩

end ServedScript

end ModuleWorkers
