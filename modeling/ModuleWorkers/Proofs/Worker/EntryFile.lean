import ModuleWorkers.Proofs.Path.Address
import ModuleWorkers.Proofs.Worker.Canonical

/-!
# First files of workers

A worker is requested at an address, and starts with a file that its entry gives relative to the
script. Both are names with pieces behind them (`WorkerEntry.IsPlaced`), and this holds of all
entries that scripts register (`WorkerRegistry.isPlaced_ofScripts`). The file is the one of the
address exactly if the specifier does not climb above the root directory, which is what
`WorkerEntry.climb` counts (`WorkerRegistry.entryFile_isRequested`).
-/

namespace ModuleWorkers

/-! ## Entries -/

namespace WorkerEntry

/-- Whether an entry has a directory of names, and is requested at the path of its first file. -/
def IsPlaced (e : WorkerEntry) : Prop :=
  ∃ ds, (∀ s ∈ ds, IsStep s) ∧ e.baseDir.toList = joined ds ∧
    e.requestedPath.toList = '/' :: joined (collapse (ds ++ segments e.sourceFile.toList))

/-- How many directories above the root directory the way to the first file climbs. -/
def climb (e : WorkerEntry) : Nat :=
  overshoot (segments e.baseDir.toList ++ segments e.sourceFile.toList)

end WorkerEntry

theorem KnownWorker.isPlaced_entry {path : String} {c : Construction} {w : KnownWorker}
    (h : ofConstruction? (UrlPath.normalize path) c = some w) : w.entry.IsPlaced := by
  unfold ofConstruction? at h
  simp only [Option.bind_eq_bind, Option.bind_eq_some_iff, Option.pure_def, Option.some.injEq] at h
  obtain ⟨options, -, ⟨sourceFile, requestedPath⟩, hlocate, rfl⟩ := h
  obtain ⟨ds, last, hds, hlast, -, hdirname, hbasename, hcollapse⟩ :=
    UrlPath.exists_normalize_eq path
  refine ⟨ds, hds, ?_, ?_⟩
  · simp only
    rw [hdirname, String.toList_ofList, List.dropWhile_cons_of_pos rfl, dropWhile_joined hds]
  · cases htarget : c.target with
    | self =>
      rw [htarget] at hlocate
      obtain ⟨rfl, rfl⟩ := Prod.mk.inj (Option.some.inj hlocate)
      simp only
      have hsegments : segments ("./" ++ UrlPath.basename (UrlPath.normalize path)).toList =
          [['.'], last] := by
        rw [String.toList_append, hbasename]
        exact (segments_append_slash ['.'] last).trans (by rw [segments_of_slash_not_mem hlast]; rfl)
      rw [UrlPath.toList_normalize, hcollapse, hsegments, collapse_append_cons ds [last] (.inr rfl)]
    | specifier text =>
      rw [htarget] at hlocate
      obtain ⟨path', hpath', hpair⟩ := Option.map_eq_some_iff.1 hlocate
      obtain ⟨rfl, rfl⟩ := Prod.mk.inj hpair
      unfold UrlPath.resolve? at hpath'
      split at hpath'
      · obtain rfl := Option.some.inj hpath'
        simp only
        have hdirectory : UrlPath.IsMadeOf (UrlPath.dirname (UrlPath.normalize path)) ds :=
          ⟨hds, hdirname⟩
        rw [UrlPath.toList_normalize, ← UrlPath.names, UrlPath.names_join, hdirectory.names_eq]
      · cases hpath'

/-! ## Registered entries -/

namespace WorkerRegistry

/-- Registers the workers of a script, given by its text and the path that it is served at. -/
def addScript (r : WorkerRegistry) (script : String × String) : WorkerRegistry :=
  match CanonicalScript.ofText script.1 script.2 r with
  | .ok (some s) => s.registry
  | _ => r

/-- The workers of scripts. -/
def ofScripts (scripts : List (String × String)) : WorkerRegistry := scripts.foldl addScript {}

theorem isPlaced_register {r : WorkerRegistry} {w : WorkerEntry}
    (h : ∀ e ∈ r.entries, e.IsPlaced) (hw : w.IsPlaced) :
    ∀ e ∈ (r.register w).2.entries, e.IsPlaced := by
  intro e he
  unfold register at he
  split at he
  · rcases List.mem_append.1 he with he | he
    · exact h e he
    · cases List.mem_singleton.1 he
      exact hw
  · obtain ⟨d, hd, rfl⟩ := List.mem_map.1 he
    split
    · rename_i hpath
      obtain ⟨ds, hds, hbase, hrequested⟩ := hw
      exact ⟨ds, hds, hbase, beq_iff_eq.1 hpath ▸ hrequested⟩
    · exact h d hd

end WorkerRegistry

theorem CanonicalScript.isPlaced_foldl_add {ws : List KnownWorker}
    (hws : ∀ w ∈ ws, w.entry.IsPlaced) {s : CanonicalScript}
    (h : ∀ e ∈ s.registry.entries, e.IsPlaced) :
    ∀ e ∈ (ws.foldl add s).registry.entries, e.IsPlaced := by
  induction ws generalizing s with
  | nil => exact h
  | cons w ws ih =>
    refine ih (fun v hv => hws v (List.mem_cons_of_mem w hv)) ?_
    unfold add
    split
    · exact h
    · exact WorkerRegistry.isPlaced_register h (hws w List.mem_cons_self)

namespace WorkerRegistry

theorem isPlaced_addScript {r : WorkerRegistry} (h : ∀ e ∈ r.entries, e.IsPlaced)
    (script : String × String) : ∀ e ∈ (r.addScript script).entries, e.IsPlaced := by
  unfold addScript
  split
  · rename_i s hs
    obtain ⟨found, -, rfl⟩ := CanonicalScript.ofText_eq_some hs
    refine CanonicalScript.isPlaced_foldl_add (fun w hw => ?_) h
    obtain ⟨c, -, hc⟩ := List.mem_filterMap.1 hw
    exact KnownWorker.isPlaced_entry hc
  · exact h

theorem isPlaced_foldl_addScript (scripts : List (String × String)) {r : WorkerRegistry}
    (h : ∀ e ∈ r.entries, e.IsPlaced) :
    ∀ e ∈ (scripts.foldl addScript r).entries, e.IsPlaced := by
  induction scripts generalizing r with
  | nil => exact h
  | cons script scripts ih => exact ih (isPlaced_addScript h script)

theorem isPlaced_ofScripts (scripts : List (String × String)) :
    ∀ e ∈ (ofScripts scripts).entries, e.IsPlaced :=
  isPlaced_foldl_addScript scripts (by simp)

end WorkerRegistry

/-! ## Files -/

namespace WorkerEntry

theorem isStep_of_mem_way {e : WorkerEntry} {ds : List (List Char)} (h : ∀ s ∈ ds, IsStep s) :
    ∀ s ∈ collapse (ds ++ segments e.sourceFile.toList), IsStep s := by
  intro s hs
  refine isStep_of_mem_collapse (fun t ht => ?_) hs
  rcases List.mem_append.1 ht with ht | ht
  · exact (h t ht).2
  · exact slash_not_mem_of_mem_segments ht

/-- Workers are requested at paths in normal form. -/
theorem IsPlaced.normalize_requestedPath {e : WorkerEntry} (h : e.IsPlaced) :
    UrlPath.normalize e.requestedPath = e.requestedPath := by
  obtain ⟨ds, hds, -, hrequested⟩ := h
  rw [← String.toList_inj, UrlPath.toList_normalize, hrequested,
    collapse_segments_slash_joined (isStep_of_mem_way hds)]

theorem overshoot_segments_joined {ds : List (List Char)} (h : ∀ s ∈ ds, IsStep s)
    (ss : List (List Char)) : overshoot (segments (joined ds) ++ ss) = overshoot (ds ++ ss) := by
  by_cases hds : ds = []
  · subst hds
    rfl
  · rw [segments_joined hds fun s hs => (h s hs).2]

variable {e : WorkerEntry} {ds : List (List Char)} {root : Path}

theorem basePath_eq (hds : ∀ s ∈ ds, IsStep s) (hbase : e.baseDir.toList = joined ds)
    (hroot : root.isAbsolute) : e.basePath root = .rooted (root.names ++ ds) := by
  have hjoined := collapse_append_segments_joined root.names fun s hs => (hds s hs).2
  rw [basePath, Path.joinNormal_of_isAbsolute hroot, hbase, hjoined,
    collapse_of_isName fun s hs => (Path.isStep_of_mem_names_append hds hs).1]

/-- The first file is what comes of its directory and the way to it behind the root. -/
theorem entryFile_eq (hds : ∀ s ∈ ds, IsStep s) (hbase : e.baseDir.toList = joined ds)
    (hroot : root.isAbsolute) :
    e.entryFile root =
      .rooted (collapse (root.names ++ (ds ++ segments e.sourceFile.toList))) := by
  have hsteps : ∀ s ∈ root.names ++ ds, IsStep s := fun s => Path.isStep_of_mem_names_append hds
  rw [entryFile, basePath_eq hds hbase hroot,
    Path.joinNormal_of_isAbsolute (Path.isAbsolute_rooted _), Path.names_rooted hsteps,
    List.append_assoc]

/-- The file of the address is what comes of the same way, put behind the root afterwards. -/
theorem ofUrl_requestedPath (hds : ∀ s ∈ ds, IsStep s)
    (hrequested :
      e.requestedPath.toList = '/' :: joined (collapse (ds ++ segments e.sourceFile.toList)))
    (hroot : root.isAbsolute) :
    Path.ofUrl root e.requestedPath =
      .rooted (root.names ++ collapse (ds ++ segments e.sourceFile.toList)) := by
  have hsteps := isStep_of_mem_way (e := e) hds
  rw [Path.ofUrl_eq, hrequested, collapse_segments_slash_joined hsteps, hroot]
  rfl

theorem entryFile_eq_iff (hds : ∀ s ∈ ds, IsStep s) (hbase : e.baseDir.toList = joined ds) :
    collapse (root.names ++ (ds ++ segments e.sourceFile.toList)) =
        root.names ++ collapse (ds ++ segments e.sourceFile.toList) ↔
      root.names = [] ∨ e.climb = 0 := by
  have hnames : ∀ s ∈ root.names, IsName s := fun s hs => (Path.isStep_of_mem_names hs).1
  rw [collapse_append_eq_iff hnames, climb, hbase, overshoot_segments_joined hds]

/-- The file of the address is the first file exactly if nothing climbs out of the root. -/
theorem entryFile_beq_iff (h : e.IsPlaced) (hroot : root.isAbsolute) :
    (e.entryFile root == Path.ofUrl root e.requestedPath) = true ↔
      root.names = [] ∨ e.climb = 0 := by
  obtain ⟨ds, hds, hbase, hrequested⟩ := h
  have hsteps := isStep_of_mem_way (e := e) hds
  have hway : ∀ s ∈ collapse (root.names ++ (ds ++ segments e.sourceFile.toList)), IsStep s := by
    intro s hs
    rw [← List.append_assoc] at hs
    exact isStep_of_mem_way (e := e) (fun t => Path.isStep_of_mem_names_append hds) s hs
  rw [entryFile_eq hds hbase hroot, ofUrl_requestedPath hds hrequested hroot,
    Path.rooted_beq_rooted_iff hway fun s => Path.isStep_of_mem_names_append hsteps,
    entryFile_eq_iff hds hbase]

theorem isBelow_entryFile (h : e.IsPlaced) (hroot : root.isAbsolute) (hclimb : e.climb = 0)
    (hup : .up ∉ root.components) : (e.entryFile root).isBelow root := by
  obtain ⟨ds, hds, hbase, -⟩ := h
  rw [entryFile_eq hds hbase hroot, (entryFile_eq_iff hds hbase).2 (.inr hclimb)]
  exact Path.isBelow_rooted_append hroot hup (isStep_of_mem_way hds)

end WorkerEntry

namespace WorkerRegistry

/-- The first file of a worker is the file of the address that it is requested at exactly if its
specifier does not climb above the root directory, unless the root is that of all files. Then the
file is below the root, and all such entries of one address have the same file. -/
theorem entryFile_isRequested (scripts : List (String × String)) {e : WorkerEntry}
    (he : e ∈ (ofScripts scripts).entries) {root : Path} (hroot : root.isAbsolute) :
    ((e.entryFile root == Path.ofUrl root e.requestedPath) = true ↔
        root.names = [] ∨ e.climb = 0) ∧
      (e.climb = 0 → .up ∉ root.components → (e.entryFile root).isBelow root) ∧
      ∀ others e', e' ∈ (ofScripts others).entries → e'.requestedPath = e.requestedPath →
        e.climb = 0 → e'.climb = 0 → (e'.entryFile root == e.entryFile root) = true := by
  have hplaced := isPlaced_ofScripts scripts e he
  refine ⟨WorkerEntry.entryFile_beq_iff hplaced hroot, ?_, ?_⟩
  · exact WorkerEntry.isBelow_entryFile hplaced hroot
  · intro others e' he' hpath hclimb hclimb'
    have hfile := (WorkerEntry.entryFile_beq_iff hplaced hroot).2 (.inr hclimb)
    have hfile' :=
      (WorkerEntry.entryFile_beq_iff (isPlaced_ofScripts others e' he') hroot).2 (.inr hclimb')
    rw [hpath] at hfile'
    exact BEq.trans hfile' (BEq.symm hfile)

/-- A worker beside a script, which a script in a directory next to it constructs, too. -/
theorem entryFile_isRequested_beside :
    ∃ e ∈ (ofScripts [("new Worker('./w.js', \x7btype: 'module'\x7d)", "/src/main.js")]).entries,
      ∃ e' ∈ (ofScripts [("new Worker('../w.js', \x7btype: 'module'\x7d)", "/src/lib/a.js")]).entries,
        (e.entryFile ⟨"/app"⟩ == Path.ofUrl ⟨"/app"⟩ e.requestedPath) = true ∧
          (e.entryFile ⟨"/app"⟩).isBelow ⟨"/app"⟩ ∧
          (e'.entryFile ⟨"/app"⟩ == e.entryFile ⟨"/app"⟩) = true := by
  have hmain : ∃ e ∈ (ofScripts
      [("new Worker('./w.js', \x7btype: 'module'\x7d)", "/src/main.js")]).entries,
      e.requestedPath = "/src/w.js" ∧ e.climb = 0 := by decide +kernel
  have hlib : ∃ e ∈ (ofScripts
      [("new Worker('../w.js', \x7btype: 'module'\x7d)", "/src/lib/a.js")]).entries,
      e.requestedPath = "/src/w.js" ∧ e.climb = 0 := by decide +kernel
  obtain ⟨e, he, hpath, hclimb⟩ := hmain
  obtain ⟨e', he', hpath', hclimb'⟩ := hlib
  have hroot : (⟨"/app"⟩ : Path).isAbsolute := by decide +kernel
  obtain ⟨hfile, hbelow, hsame⟩ := entryFile_isRequested _ he hroot
  exact ⟨e, he, e', he', hfile.2 (.inr hclimb), hbelow hclimb (by decide +kernel),
    hsame _ e' he' (hpath'.trans hpath.symm) hclimb hclimb'⟩

/-- A specifier that climbs above the root starts its worker with a file outside the root, which is
not the one of the address that it is requested at. -/
theorem entryFile_not_isRequested_above :
    ∃ e ∈ (ofScripts [("new Worker('../../w.js', \x7btype: 'module'\x7d)", "/src/main.js")]).entries,
      (e.entryFile ⟨"/app"⟩ == Path.ofUrl ⟨"/app"⟩ e.requestedPath) = false ∧
        (e.entryFile ⟨"/app"⟩).isBelow ⟨"/app"⟩ = false := by
  decide +kernel

end WorkerRegistry

end ModuleWorkers
