import ModuleWorkers.Proofs.Plugin.KeptMaps

/-!
# Partitions of caches

Answers for clients that get bundles are kept apart from those for other clients just where a path
is owned: it is that of a worker, or a file is served there to the former alone. Whatever is not
owned is answered alike for all clients (`Plugin.request_eq_of_not_isOwned`), so requests whose
answers may be kept in one place have one answer (`Plugin.request_eq_of_partition?_eq`). Files that
are served to all clients are maps of scripts (`Session.exists_isScriptMap`): bundles and what comes
with them never are.
-/

namespace ModuleWorkers

variable {σ ε : Type}

/-! ## Two requests -/

namespace Plugin

variable (p : Plugin σ ε) (fs : FileSystem) {path : String} {s : PluginState × σ}

/-- A path that is not owned has no worker, and a file there is served to all clients. -/
theorem request_eq_of_not_isOwned (h : s.1.isOwned path = false) (headers : Headers) :
    p.request fs path headers s =
      (.ok ((s.1.virtualFiles.get? path).map (·.content)), s) := by
  obtain ⟨hworker, hfile⟩ := Bool.or_eq_false_iff.1 h
  unfold request
  cases hget : s.1.virtualFiles.get? path with
  | some file =>
    rw [hget, Option.any_some] at hfile
    simp [hfile]
  | none =>
    have hnone : s.1.registry.get? path = none := by
      simpa [WorkerRegistry.contains] using hworker
    have hlookup : s.1.lookup path = .unknown := by
      rw [PluginState.lookup, hget, hnone]
    dsimp only
    split
    · rw [resolve, hlookup]
      rfl
    · rfl

theorem request_congr {headers headers' : Headers}
    (h : p.options.legacy.wantsBundles headers = p.options.legacy.wantsBundles headers') :
    p.request fs path headers s = p.request fs path headers' s := by
  unfold request
  rw [h]

/-- Requests whose answers are kept in one partition are answered alike, and leave the same state. -/
theorem request_eq_of_partition?_eq {headers headers' : Headers}
    (h : s.1.partition? p.options path headers = s.1.partition? p.options path headers') :
    p.request fs path headers s = p.request fs path headers' s := by
  cases howned : s.1.isOwned path with
  | false => rw [p.request_eq_of_not_isOwned fs howned, p.request_eq_of_not_isOwned fs howned]
  | true =>
    refine p.request_congr fs ?_
    unfold PluginState.partition? at h
    rw [howned, Bool.and_true, Bool.and_true] at h
    cases hleft : p.options.legacy.wantsBundles headers <;>
      cases hright : p.options.legacy.wantsBundles headers' <;> simp_all

/-- A client that gets no bundles is answered with a file that is for all clients, or not at all. -/
theorem request_of_not_wantsBundles {headers : Headers}
    (h : p.options.legacy.wantsBundles headers = false) :
    p.request fs path headers s =
      (.ok (((s.1.virtualFiles.get? path).filter (!·.legacyOnly)).map (·.content)), s) := by
  unfold request
  rw [h]
  cases s.1.virtualFiles.get? path with
  | none => rfl
  | some file => cases hfile : file.legacyOnly <;> simp [Option.filter, hfile]

end Plugin

/-! ## Files for all clients -/

theorem VirtualFiles.get?_of_get?_insert {vs : VirtualFiles} {path q : String}
    {content : FileContent} {f : VirtualFile} (h : (vs.insert path content true).get? q = some f)
    (hf : f.legacyOnly = false) : vs.get? q = some f := by
  rw [get?_insert] at h
  split at h
  · cases h
    cases hf
  · exact h

namespace PluginState

/-- Files of bundles are for clients that get bundles. -/
theorem get?_of_get?_insertOutput {options : PluginOptions} {directory q : String}
    {vs : VirtualFiles} {file : OutputFile} {f : VirtualFile}
    (h : (insertOutput options directory vs file).get? q = some f) (hf : f.legacyOnly = false) :
    vs.get? q = some f := by
  cases file with
  | asset name bytes => exact VirtualFiles.get?_of_get?_insert h hf
  | script name code map =>
    cases map with
    | none => exact VirtualFiles.get?_of_get?_insert h hf
    | some m =>
      exact VirtualFiles.get?_of_get?_insert (VirtualFiles.get?_of_get?_insert h hf) hf

theorem get?_of_get?_finishBuild {options : PluginOptions} {s : PluginState} {path q : String}
    {outcome : Except ε BundleOutput} {f : VirtualFile}
    (h : (s.finishBuild options path outcome).2.virtualFiles.get? q = some f)
    (hf : f.legacyOnly = false) : s.virtualFiles.get? q = some f := by
  cases outcome with
  | error cause => exact h
  | ok output =>
    unfold finishBuild at h
    dsimp only at h
    split at h
    · exact h
    · rename_i e _
      have hfiles : ∀ (files : List OutputFile) (vs : VirtualFiles),
          (files.foldl (insertOutput options (UrlPath.dirname e.requestedPath)) vs).get? q =
            some f → vs.get? q = some f := by
        intro files
        induction files with
        | nil => exact fun _ => id
        | cons file files ih => exact fun vs hget => get?_of_get?_insertOutput (ih _ hget) hf
      exact VirtualFiles.get?_of_get?_insert (hfiles _ _ h) hf

end PluginState

namespace Session

variable {options : PluginOptions} {s s' : Session ε} {evs : List (SessionEvent ε)} {path : String}
  {f : VirtualFile}

/-- A file for all clients was there before, or is the map of a script that is stored. -/
theorem get?_of_step {ev : SessionEvent ε} (h : s.step options ev = some s')
    (hget : s'.plugin.virtualFiles.get? path = some f) (hf : f.legacyOnly = false) :
    s.plugin.virtualFiles.get? path = some f ∨ ∃ m, s.storedMap? ev = some (path, m) ∧
      f = ⟨path, .text m.toJson, false⟩ := by
  by_cases hstored : path ∈ s.stored ev
  · cases ev with
    | storeMap k =>
      obtain ⟨⟨q, m⟩, hm, rfl⟩ := List.mem_map.1 hstored
      have hm : s.storedMap? (.storeMap k) = some (q, m) := Option.mem_toList.1 hm
      rw [get?_of_storedMap? h hm] at hget
      cases hget
      exact .inr ⟨m, hm, rfl⟩
    | finishBuild k outcome =>
      obtain ⟨q, request, -, rfl⟩ := step_finishBuild h
      exact .inl (PluginState.get?_of_get?_finishBuild hget hf)
    | _ => cases hstored
  · rw [get?_virtualFiles_step h hstored] at hget
    exact .inl hget

/-- The files that are served to all clients are maps of scripts that were served. -/
theorem exists_isScriptMap (h : run options {} evs = some s)
    (hget : s.plugin.virtualFiles.get? path = some f) (hf : f.legacyOnly = false) :
    ∃ m, IsScriptMap options evs path m ∧ f = ⟨path, .text m.toJson, false⟩ := by
  induction evs using List.reverseRecOn generalizing s with
  | nil =>
    cases h
    cases hget
  | append_singleton evs ev ih =>
    obtain ⟨t, ht, hstep⟩ := run_concat_eq_some h
    rcases get?_of_step hstep hget hf with hget | ⟨m, hm, hcontent⟩
    · obtain ⟨m, hm, hcontent⟩ := ih ht hget
      exact ⟨m, hm.concat ev, hcontent⟩
    · exact ⟨m, (isScriptMap_of_storedMap? ht hm).concat ev, hcontent⟩

/-- In any state of a plugin in use, requests whose answers are kept in one partition are answered
alike, and a client that gets no bundles is answered with the map of a script that was served, or
not at all, and causes no build. -/
theorem partitions_separate {p : Plugin σ ε} (h : run p.options {} evs = some s) (fs : FileSystem)
    (path : String) (x : σ) :
    (∀ headers headers' : Headers, s.plugin.partition? p.options path headers =
        s.plugin.partition? p.options path headers' →
      p.request fs path headers (s.plugin, x) = p.request fs path headers' (s.plugin, x)) ∧
    ∀ headers : Headers, p.options.legacy.wantsBundles headers = false →
      p.request fs path headers (s.plugin, x) = (.ok none, s.plugin, x) ∨
      ∃ m, IsScriptMap p.options evs path m ∧
        s.plugin.virtualFiles.get? path = some ⟨path, .text m.toJson, false⟩ ∧
        p.request fs path headers (s.plugin, x) = (.ok (some (.text m.toJson)), s.plugin, x) := by
  refine ⟨fun _ _ hsame => p.request_eq_of_partition?_eq fs hsame, fun headers hwants => ?_⟩
  rw [p.request_of_not_wantsBundles fs hwants]
  cases hget : s.plugin.virtualFiles.get? path with
  | none => exact .inl rfl
  | some f =>
    cases hf : f.legacyOnly with
    | true => exact .inl (by simp [Option.filter, hf])
    | false =>
      obtain ⟨m, hm, rfl⟩ := exists_isScriptMap h hget hf
      exact .inr ⟨m, hm, rfl, by simp [Option.filter]⟩

/-- What a browser says of itself that starts module workers. -/
def chromeHeaders : Headers := [("User-Agent", "Chrome/120.0")]

/-- A worker was built. Its bundle is not for a browser that starts the module, and all the same to
browsers that get it. -/
theorem partitions_separate_sharedFile : ∃ s : Session Unit,
    run {} {} (.start ⟨"/app"⟩ :: (sharedFileEvents ++ [.storeMap 0])) = some s ∧
    (s.bundle? "/v.js").isSome ∧
    LegacyMode.auto.wantsBundles chromeHeaders = false ∧
    PluginState.idlePlugin.request {} "/v.js" chromeHeaders (s.plugin, ()) = (.ok none, s.plugin, ()) ∧
    PluginState.idlePlugin.request {} "/v.js" [("User-Agent", "Firefox/115.0")] (s.plugin, ()) =
      PluginState.idlePlugin.request {} "/v.js" [] (s.plugin, ()) := by
  have hrun : (run {} {} (.start ⟨"/app"⟩ :: (sharedFileEvents ++ [.storeMap 0]))).map
      (fun s : Session Unit => ((s.bundle? "/v.js").isSome,
        (s.plugin.virtualFiles.get? "/v.js").isSome)) = some (true, false) := by
    decide +kernel
  obtain ⟨s, hs, hboth⟩ := Option.map_eq_some_iff.1 hrun
  obtain ⟨hbundle, hfile⟩ := Prod.mk.inj hboth
  have hchrome : LegacyMode.auto.wantsBundles chromeHeaders = false := by decide +kernel
  have hfirefox : LegacyMode.auto.wantsBundles [("User-Agent", "Firefox/115.0")] = true := by
    decide +kernel
  obtain ⟨hsame, hother⟩ := partitions_separate (p := PluginState.idlePlugin) hs {} "/v.js" ()
  refine ⟨s, hs, hbundle, hchrome, ?_, hsame _ _ ?_⟩
  · refine (hother chromeHeaders hchrome).resolve_right ?_
    rintro ⟨m, -, hget, -⟩
    rw [hget] at hfile
    cases hfile
  · unfold PluginState.partition?
    have hnone : LegacyMode.auto.wantsBundles [] = true := rfl
    exact congrArg (fun b => if b && s.plugin.isOwned "/v.js" then _ else none)
      (hfirefox.trans hnone.symm)

end Session

end ModuleWorkers
