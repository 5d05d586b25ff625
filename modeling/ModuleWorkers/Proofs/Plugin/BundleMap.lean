import ModuleWorkers.Proofs.Plugin.ServedMap
import ModuleWorkers.Proofs.Plugin.SingleFlight

/-!
# Maps of bundles

A bundle is kept with its map, and the map is served beside the worker, at its path with `.map`, to
clients that get bundles. A script that is served with canonical constructions has its map beside
it too, or where it refers to (`ServedScript.MapsTo`). If it is the file of a worker, or refers to
the map of one, then both maps go to one place, and whichever is stored last is served there. So the
map of a bundle is served until such a script is served to a client that needs no bundle
(`Session.servesMap_iff`), although the bundle stays.
-/

namespace ModuleWorkers

open SourceMap

variable {ε : Type}

namespace ServedScript

/-- Where the map of a script is served, if it is: beside the script, or where it refers to. -/
def MapsTo (s : ServedScript) (fs : FileSystem) (text key : String) : Prop :=
  s.ownPath = key ∨
    ∃ r, Reference.find? text = some r ∧ s.Keeps fs r ∧ s.mapPath? r.url = some key

theorem mapsTo_of_attachMap {s : ServedScript} {fs : FileSystem} {b b' : EditBuffer} {key : String}
    {m : SourceMap} (h : s.attachMap fs b = (b', some (key, m))) : s.MapsTo fs b.base key := by
  obtain ⟨p, hp, -, -, rfl⟩ := exists_placeMap h
  cases (puts_placeMap hp).1 with
  | line _ _ path => exact .inl path.symm
  | kept find keeps _ path => exact .inr ⟨_, find, keeps, path⟩
  | replaced _ _ path => exact .inl path.symm

end ServedScript

namespace PluginState

/-- The map of a bundle that is stored, if none of the files of the bundle comes in its place. -/
theorem get?_map_finishBuild (options : PluginOptions) {s : PluginState} {path : String}
    {e : WorkerEntry} (he : s.registry.get? path = some e) {output : BundleOutput}
    (h : path ++ ".map" ∉ output.files.flatMap (·.paths (UrlPath.dirname path))) :
    (s.finishBuild (ε := ε) options path (.ok output)).2.virtualFiles.get? (path ++ ".map") =
      some ⟨path ++ ".map", .text (servedBundle options e output).map, true⟩ := by
  have hp : e.requestedPath = path := WorkerRegistry.requestedPath_of_get? he
  subst hp
  unfold finishBuild
  dsimp only
  rw [he]
  unfold install
  dsimp only
  rw [get?_insertOutputs options fun f hf hkey => h (List.mem_flatMap.2 ⟨f, hf, hkey⟩),
    VirtualFiles.get?_insert, if_pos rfl]
  rfl

end PluginState

/-- The files that a bundle brings with it when its build ends. -/
def SessionEvent.files : SessionEvent ε → List OutputFile
  | .finishBuild _ (.ok output) => output.files
  | _ => []

namespace Session

/-- The map of a bundle is served beside its worker, to the clients that get the bundle. -/
def ServesMap (s : Session ε) (path : String) (b : WorkerBundle) : Prop :=
  s.plugin.virtualFiles.get? (path ++ ".map") = some ⟨path ++ ".map", .text b.map, true⟩

/-- The paths of the files that a bundle brings with it, and of their maps. -/
def brought (s : Session ε) : SessionEvent ε → List String
  | .finishBuild k (.ok output) =>
    (s.requests[k]?).toList.flatMap fun r =>
      output.files.flatMap (·.paths (UrlPath.dirname r.path))
  | _ => []

/-- The map of a script that an event stores. -/
def storedMap? (s : Session ε) : SessionEvent ε → Option (String × SourceMap)
  | .storeMap k => s.maps[k]?
  | _ => none

/-- No event of a run stores the map of a script at a path. -/
def NeverStoresMap (options : PluginOptions) (s : Session ε) (evs : List (SessionEvent ε))
    (key : String) : Prop :=
  s.AtEach options evs fun t ev => ∀ m, t.storedMap? ev ≠ some (key, m)

/-- A map is that of a script that was served, at the path that the map goes to. -/
def IsScriptMap (options : PluginOptions) (evs : List (SessionEvent ε)) (key : String)
    (m : SourceMap) : Prop :=
  ∃ before fs path text isScript after t,
    evs = before ++ .serve fs path text isScript :: after ∧
    run options {} before = some t ∧
    servedMap? t.plugin.root fs path (t.plugin.canonicalize path text isScript).1 = some (key, m) ∧
    (ServedScript.ofPath t.plugin.root path).MapsTo fs text key

/-- The bundle of a path was made by the build that led to a state, from which some events led
here, and none of them began or ended a build of the path. -/
structure IsBuilt (options : PluginOptions) (s : Session ε) (evs : List (SessionEvent ε))
    (path : String) (b : WorkerBundle) (t : Session ε) (after : List (SessionEvent ε)) : Prop where
  exists_finishBuild : ∃ before k output e,
    evs = before ++ .finishBuild k (.ok output) :: after ∧
    run options {} (before ++ [.finishBuild k (.ok output)]) = some t ∧
    t.requests[k]?.map (·.path) = some path ∧
    t.plugin.registry.get? path = some e ∧ e.bundle = some b ∧
    b = PluginState.servedBundle options e output
  run : t.run options after = some s
  elsewhere : ∀ ev ∈ after, s.IsElsewhere path ev

variable {options : PluginOptions} {s s' t : Session ε} {evs after : List (SessionEvent ε)}
  {path key : String} {b : WorkerBundle} {m : SourceMap}

/-! ## Files of bundles -/

theorem brought_eq_nil {ev : SessionEvent ε} (h : ev.files = []) (s : Session ε) :
    s.brought ev = [] := by
  cases ev with
  | finishBuild k outcome =>
    cases outcome with
    | error cause => rfl
    | ok output =>
      change (s.requests[k]?).toList.flatMap (fun r => output.files.flatMap _) = []
      rw [show output.files = [] from h]
      simp
  | _ => rfl

/-! ## Maps of scripts -/

theorem IsScriptMap.concat (h : IsScriptMap options evs key m) (ev : SessionEvent ε) :
    IsScriptMap options (evs ++ [ev]) key m := by
  obtain ⟨before, fs, path, text, isScript, after, t, rfl, ht, hm, hkey⟩ := h
  exact ⟨before, fs, path, text, isScript, after ++ [ev], t, by simp, ht, hm, hkey⟩

theorem mapsTo_of_servedMap? {s : PluginState} {fs : FileSystem} {path text : String}
    {isScript : Bool}
    (h : servedMap? s.root fs path (s.canonicalize path text isScript).1 = some (key, m)) :
    (ServedScript.ofPath s.root path).MapsTo fs text key := by
  rcases s.canonicalize_cases path text isScript with hnone | ⟨script, hscript, hsome⟩
  · rw [hnone] at h
    cases h
  · rw [hsome] at h
    obtain ⟨_, -, hr⟩ := CanonicalScript.rewrites_ofText hscript
    rw [← hr.base_eq]
    exact ServedScript.mapsTo_of_attachMap (Prod.ext rfl h)

/-- A map that waits to be stored waited before, or is that of the script that is served. -/
theorem mem_maps_step {ev : SessionEvent ε} (h : s.step options ev = some s')
    (hm : (key, m) ∈ s'.maps) : (key, m) ∈ s.maps ∨
      ∃ fs path text isScript, ev = .serve fs path text isScript ∧
        servedMap? s.plugin.root fs path (s.plugin.canonicalize path text isScript).1 =
          some (key, m) := by
  have he := effect_step h
  generalize s'.plugin = plugin, s'.maps = maps at he hm
  cases he with
  | @serve fs path text isScript =>
    rcases List.mem_append.1 hm with hm | hm
    · exact .inl hm
    · refine .inr ⟨fs, path, text, isScript, rfl, ?_⟩
      rw [← (s.plugin.later_canonicalize path text isScript).root]
      exact Option.mem_toList.1 hm
  | storeMap => exact .inl (List.mem_of_mem_eraseIdx hm)
  | same | start | change | emit | beginBuild | beginBuild_unknown | finishBuild => exact .inl hm

theorem isScriptMap_of_mem_maps (h : run options {} evs = some s) (hm : (key, m) ∈ s.maps) :
    IsScriptMap options evs key m := by
  induction evs using List.reverseRecOn generalizing s with
  | nil =>
    cases h
    cases hm
  | append_singleton evs ev ih =>
    obtain ⟨t, ht, hstep⟩ := run_concat_eq_some h
    rcases mem_maps_step hstep hm with hm | ⟨fs, path, text, isScript, rfl, hserved⟩
    · exact (ih ht hm).concat ev
    · exact ⟨evs, fs, path, text, isScript, [], t, rfl, ht, hserved, mapsTo_of_servedMap? hserved⟩

theorem isScriptMap_of_storedMap? {ev : SessionEvent ε} (h : run options {} evs = some s)
    (hm : s.storedMap? ev = some (key, m)) : IsScriptMap options evs key m := by
  cases ev with
  | storeMap k => exact isScriptMap_of_mem_maps h (List.mem_of_getElem? hm)
  | _ => cases hm

/-- A map is served to all clients when it is stored. -/
theorem get?_of_storedMap? {ev : SessionEvent ε} (h : s.step options ev = some s')
    (hm : s.storedMap? ev = some (key, m)) :
    s'.plugin.virtualFiles.get? key = some ⟨key, .text m.toJson, false⟩ := by
  cases ev with
  | storeMap k =>
    obtain ⟨path, m', hk, rfl⟩ := step_storeMap h
    cases hk.symm.trans hm
    change (s.plugin.virtualFiles.insert key (.text m.toJson) false).get? key = _
    rw [VirtualFiles.get?_insert, if_pos rfl]
  | _ => cases hm

/-! ## While a bundle stays -/

/-- Of the events that build no bundle for a path, only those that store maps of scripts put a file
beside it, if no bundle brings one. -/
theorem not_mem_stored {ev : SessionEvent ε} (hstep : s.step options ev = some s')
    (helse : s'.IsElsewhere path ev) (hfiles : path ++ ".map" ∉ s.brought ev)
    (hmap : ∀ m, s.storedMap? ev ≠ some (path ++ ".map", m)) : path ++ ".map" ∉ s.stored ev := by
  intro hmem
  cases ev with
  | storeMap k =>
    obtain ⟨⟨q, m⟩, hm, hq⟩ := List.mem_map.1 hmem
    cases hq
    exact hmap m (Option.mem_toList.1 hm)
  | finishBuild k outcome =>
    cases outcome with
    | error cause => cases hmem
    | ok output =>
      obtain ⟨r, hr, hpaths⟩ := List.mem_flatMap.1 hmem
      rcases List.mem_cons.1 hpaths with hself | hpaths
      · -- a worker whose map is there is the one of the path
        obtain ⟨other, hother, hne⟩ := helse k rfl
        have hk : s.requests[k]?.map (·.path) = some r.path := by
          rw [Option.mem_toList.1 hr]
          rfl
        rw [path_step hstep hk] at hother
        cases hother
        exact hne ((String.append_left_inj _).1 hself).symm
      · exact hfiles (List.mem_flatMap.2 ⟨r, hr, hpaths⟩)
  | _ => cases hmem

theorem IsBuilt.concat {ev : SessionEvent ε} (h : s.IsBuilt options evs path b t after)
    (hstep : s.step options ev = some s') (hev : s'.IsElsewhere path ev) :
    s'.IsBuilt options (evs ++ [ev]) path b t (after ++ [ev]) where
  exists_finishBuild := by
    obtain ⟨before, k, output, e, rfl, hrest⟩ := h.exists_finishBuild
    exact ⟨before, k, output, e, by simp, hrest⟩
  run := run_trans h.run (run_singleton hstep)
  elsewhere other hother := by
    rcases List.mem_append.1 hother with hother | hother
    · exact (h.elsewhere other hother).step hstep
    · rw [List.mem_singleton.1 hother]
      exact hev

/-- The end of a build that leaves a bundle leaves its map too. -/
theorem isBuilt_of_stores {ev : SessionEvent ε} (h : run options {} evs = some s)
    (hstep : s.step options ev = some s') (hfiles : path ++ ".map" ∉ s.brought ev)
    (hnot : s.bundle? path ≠ some b) (hb : s'.bundle? path = some b) :
    s'.IsBuilt options (evs ++ [ev]) path b s' [] ∧ s'.ServesMap path b := by
  have hflights := flights_run h
  obtain ⟨k, output, request, rfl, hk, -⟩ := stores_bundle hflights hstep hnot hb
  obtain ⟨d, hd, -⟩ := hflights.unbuilt k _ hk rfl
  have hplugin : s'.plugin =
      (s.plugin.finishBuild (ε := ε) options path (.ok output)).2 := by
    obtain ⟨q, other, hq, rfl⟩ := step_finishBuild hstep
    cases hk.symm.trans hq
    rfl
  have he : s'.plugin.registry.get? path = some (s.plugin.installed options d output) := by
    rw [hplugin]
    exact PluginState.get?_finishBuild_self options hd (.ok output)
  have hbundle : (s.plugin.installed options d output).bundle = some b := by
    unfold bundle? at hb
    rwa [he] at hb
  have hserved := PluginState.eq_servedBundle_of_installed hbundle
  refine ⟨⟨⟨evs, k, output, _, rfl, run_trans h (run_singleton hstep), ?_, he, hbundle, ?_⟩,
    rfl, by simp⟩, ?_⟩
  · exact path_step hstep (by rw [hk]; rfl)
  · rw [hserved]
    exact PluginState.servedBundle_congr rfl options output
  · have hfree : path ++ ".map" ∉ output.files.flatMap (·.paths (UrlPath.dirname path)) := by
      intro hmem
      refine hfiles (List.mem_flatMap.2 ⟨⟨path, .building request⟩, ?_, hmem⟩)
      rw [hk]
      exact List.mem_singleton_self _
    unfold ServesMap
    rw [hplugin, PluginState.get?_map_finishBuild options hd hfree, hserved]

/-- What is served beside a worker with a bundle: the map of the bundle, if no map of a script was
stored there since the build, or else such a map. -/
theorem exists_isBuilt (h : run options {} evs = some s)
    (hfiles : AtEach options {} evs fun t ev => path ++ ".map" ∉ t.brought ev)
    (hb : s.bundle? path = some b) : ∃ t after, s.IsBuilt options evs path b t after ∧
      ((s.ServesMap path b ∧ t.NeverStoresMap options after (path ++ ".map")) ∨
        ¬ t.NeverStoresMap options after (path ++ ".map") ∧
          ∃ m, IsScriptMap options evs (path ++ ".map") m ∧
            s.plugin.virtualFiles.get? (path ++ ".map") =
              some ⟨path ++ ".map", .text m.toJson, false⟩) := by
  induction evs using List.reverseRecOn generalizing s with
  | nil =>
    cases h
    cases hb
  | append_singleton evs ev ih =>
    obtain ⟨u, hu, hstep⟩ := run_concat_eq_some h
    have hev : path ++ ".map" ∉ u.brought ev := (hfiles.right hu).head
    by_cases hprev : u.bundle? path = some b
    · obtain ⟨t, after, hbuilt, hcases⟩ := ih hu hfiles.left hprev
      have helse : s.IsElsewhere path ev := isElsewhere_of_bundle? (flights_run hu) hprev hstep
      refine ⟨t, after ++ [ev], hbuilt.concat hstep helse, ?_⟩
      by_cases hmap : ∃ m, u.storedMap? ev = some (path ++ ".map", m)
      · obtain ⟨m, hm⟩ := hmap
        exact .inr ⟨fun hn => (hn.right hbuilt.run).head m hm, m,
          (isScriptMap_of_storedMap? hu hm).concat ev, get?_of_storedMap? hstep hm⟩
      · rw [not_exists] at hmap
        have hsame := get?_virtualFiles_step hstep (not_mem_stored hstep helse hev hmap)
        rcases hcases with ⟨hserves, hn⟩ | ⟨hn, m, hm, hget⟩
        · exact .inl ⟨hsame.trans hserves, hn.concat hbuilt.run hmap⟩
        · exact .inr ⟨fun hn' => hn hn'.left, m, hm.concat ev, hsame.trans hget⟩
    · obtain ⟨hbuilt, hserves⟩ := isBuilt_of_stores hu hstep hev hprev hb
      exact ⟨s, [], hbuilt, .inl ⟨hserves, AtEach.nil⟩⟩

/-- In any state of a plugin in use, the map of a bundle is served beside its worker just if no map
of a script was stored there since the build that made the bundle. If one was, it is served there to
all clients; its script is the worker itself, or refers to the place. -/
theorem servesMap_iff {e : WorkerEntry} (h : run options {} evs = some s)
    (hfiles : AtEach options {} evs fun t ev => path ++ ".map" ∉ t.brought ev)
    (he : s.plugin.registry.get? path = some e) (hb : e.bundle = some b) :
    ∃ t after, s.IsBuilt options evs path b t after ∧
      (s.ServesMap path b ↔ t.NeverStoresMap options after (path ++ ".map")) ∧
      (s.ServesMap path b ∨ ∃ m, IsScriptMap options evs (path ++ ".map") m ∧
        s.plugin.virtualFiles.get? (path ++ ".map") =
          some ⟨path ++ ".map", .text m.toJson, false⟩) := by
  obtain ⟨t, after, hbuilt, hcases⟩ :=
    exists_isBuilt h hfiles (Option.bind_eq_some_iff.2 ⟨e, he, hb⟩)
  refine ⟨t, after, hbuilt, ?_, hcases.imp And.left And.right⟩
  rcases hcases with ⟨hserves, hn⟩ | ⟨hn, m, -, hget⟩
  · exact ⟨fun _ => hn, fun _ => hserves⟩
  · refine ⟨fun hserves => ?_, fun hn' => absurd hn' hn⟩
    unfold ServesMap at hserves
    cases (VirtualFile.mk.inj (Option.some.inj (hget.symm.trans hserves))).2.2

/-- The map of a script that constructs workers is stored after they were built. -/
theorem servesMap_iff_sharedFile : ∃ (s : Session Unit) (e : WorkerEntry) (b : WorkerBundle),
    run {} {} (.start ⟨"/app"⟩ :: (sharedFileEvents ++ [.storeMap 0])) = some s ∧
    s.plugin.registry.get? "/v.js" = some e ∧ e.bundle = some b ∧ s.ServesMap "/v.js" b ∧
    ∃ t after, s.IsBuilt {} (.start ⟨"/app"⟩ :: (sharedFileEvents ++ [.storeMap 0])) "/v.js" b t
      after ∧ t.NeverStoresMap {} after "/v.js.map" := by
  have hrun : (run {} {} (.start ⟨"/app"⟩ :: (sharedFileEvents ++ [.storeMap 0]))).map
      (fun s : Session Unit => ((s.plugin.registry.get? "/v.js").map (·.bundle.isSome),
        (s.plugin.virtualFiles.get? "/v.js.map").map (·.legacyOnly))) =
        some (some true, some true) := by
    decide +kernel
  obtain ⟨s, hs, hboth⟩ := Option.map_eq_some_iff.1 hrun
  obtain ⟨hentry, hlegacy⟩ := Prod.mk.inj hboth
  obtain ⟨e, he, hbundle⟩ := Option.map_eq_some_iff.1 hentry
  obtain ⟨b, hb⟩ := Option.isSome_iff_exists.1 hbundle
  have hfiles : AtEach {} ({} : Session Unit)
      (.start ⟨"/app"⟩ :: (sharedFileEvents ++ [.storeMap 0]))
      fun t ev => "/v.js" ++ ".map" ∉ t.brought ev := by
    intro before ev after t hevs _
    have hnone : (.start ⟨"/app"⟩ :: (sharedFileEvents ++ [.storeMap 0]) :
        List (SessionEvent Unit)).flatMap (·.files) = [] := rfl
    rw [hevs] at hnone
    have hev : ev ∈ before ++ ev :: after := List.mem_append_right _ List.mem_cons_self
    rw [brought_eq_nil (List.flatMap_eq_nil_iff.1 hnone ev hev)]
    exact List.not_mem_nil
  obtain ⟨t, after, hbuilt, hiff, hserves⟩ := servesMap_iff hs hfiles he hb
  have hserves : s.ServesMap "/v.js" b := by
    refine hserves.resolve_right ?_
    rintro ⟨m, -, hget⟩
    rw [show "/v.js" ++ ".map" = "/v.js.map" from rfl] at hget
    rw [hget] at hlegacy
    cases hlegacy
  exact ⟨s, e, b, hs, he, hb, hserves, t, after, hbuilt, hiff.1 hserves⟩

/-- A worker that constructs itself. Its script is served, the worker is built, and the script is
served again, each time with its map. -/
def selfEvents : List (SessionEvent ε) :=
  let serve : SessionEvent ε :=
    .serve {} "/w.js" "new Worker(import.meta.url, \x7btype: 'module'\x7d)" true
  let output : BundleOutput :=
    { code := "0;", map := .empty ⟨"/app"⟩, watchFiles := [⟨"/app/w.js"⟩] }
  .start ⟨"/app"⟩ :: serve :: .storeMap 0 ::
    (buildEvents 0 "/w.js" output ++ [serve, .storeMap 0])

/-- The bundle of a worker that constructs itself stays, but the map of its script is served in the
place of that of the bundle. -/
theorem not_servesMap_self : ∃ (s : Session Unit) (e : WorkerEntry) (b : WorkerBundle),
    run {} {} selfEvents = some s ∧
    (selfEvents : List (SessionEvent Unit)).flatMap (·.files) = [] ∧
    s.plugin.registry.get? "/w.js" = some e ∧ e.bundle = some b ∧ ¬ s.ServesMap "/w.js" b := by
  have hrun : (run {} {} selfEvents).map
      (fun s : Session Unit => ((s.plugin.registry.get? "/w.js").map (·.bundle.isSome),
        (s.plugin.virtualFiles.get? "/w.js.map").map (·.legacyOnly))) =
        some (some true, some false) := by
    decide +kernel
  obtain ⟨s, hs, hboth⟩ := Option.map_eq_some_iff.1 hrun
  obtain ⟨hentry, hlegacy⟩ := Prod.mk.inj hboth
  obtain ⟨e, he, hbundle⟩ := Option.map_eq_some_iff.1 hentry
  obtain ⟨b, hb⟩ := Option.isSome_iff_exists.1 hbundle
  refine ⟨s, e, b, hs, rfl, he, hb, fun hserves => ?_⟩
  unfold ServesMap at hserves
  rw [show "/w.js" ++ ".map" = "/w.js.map" from rfl] at hserves
  rw [hserves] at hlegacy
  cases hlegacy

end Session

end ModuleWorkers
