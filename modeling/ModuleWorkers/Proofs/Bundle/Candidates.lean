import ModuleWorkers.Bundle.Loading
import ModuleWorkers.Proofs.Bundle.Specifier
import ModuleWorkers.Proofs.Outcome

/-!
# Where imports are looked for

What an import means is the first file among its candidates (`Resolver.resolve_eq_candidates`).
These are paths in an order that is told without a search: a path and the path with each extension,
and behind them, if the path is a directory, those that the fields of its manifest name and those of
its index. A manifest counts as a whole or not at all (`PackageManifest.read?_eq`).
-/

namespace ModuleWorkers

/-! ## What a manifest says -/

namespace PackageManifest

open Json

/-- The fields of a manifest, in the order in which an array lists them. -/
def fieldNames : List String := ["browser", "module", "main"]

/-- The values of a field: those of its key in an object, or the one at its place in an array. -/
def fields (v : Value) (name : String) : List Value :=
  match v with
  | .obj members => Value.valuesOf members name
  | .arr items => (items[fieldNames.idxOf name]?).toList
  | _ => []

/-- Whether a value can be a manifest: an object whose keys are texts, or an array of no more than
the fields, in which each field is there at most once, `browser` is anything that is sound, and
`module` and `main` are texts or `null`. -/
def isReadable (v : Value) : Bool :=
  hasForm && fieldNames.all (fun name => (fields v name).length ≤ 1) &&
    (fields v "browser").all (·.isSound depthLimit) &&
    (fields v "module" ++ fields v "main").all fun f => f.isNull || f.text?.isSome
where
  hasForm : Bool :=
    match v with
    | .obj members => members.all fun (k, _) => k.isSome
    | .arr items => items.length ≤ fieldNames.length
    | _ => false

/-- The fields that are texts, as far as they count, in their order. -/
def textFields (options : BundlerOptions) (v : Value) : List String :=
  ((if options.browserField then fields v "browser" else []) ++ fields v "module" ++
    fields v "main").filterMap Value.text?

theorem mapM_valuesOf (members : List (Option String × Value)) (names : List String) :
    (names.mapM fun name =>
      match Value.valuesOf members name with
      | [] => some none
      | [v] => some (some v)
      | _ => none) =
    if ∀ name ∈ names, (Value.valuesOf members name).length ≤ 1 then
      some (names.map fun name => (Value.valuesOf members name).head?)
    else none := by
  induction names with
  | nil => rfl
  | cons name names ih =>
    rw [List.mapM_cons, ih]
    simp only [List.forall_mem_cons, List.map_cons]
    match Value.valuesOf members name with
    | [] =>
      by_cases h : ∀ name ∈ names, (Value.valuesOf members name).length ≤ 1
      · rw [if_pos h, if_pos ⟨Nat.zero_le 1, h⟩]
        rfl
      · rw [if_neg h, if_neg fun hboth => h hboth.2]
        rfl
    | [v] =>
      by_cases h : ∀ name ∈ names, (Value.valuesOf members name).length ≤ 1
      · rw [if_pos h, if_pos ⟨Nat.le_refl 1, h⟩]
        rfl
      · rw [if_neg h, if_neg fun hboth => h hboth.2]
        rfl
    | _ :: _ :: _ => simp

/-- The fields of a record are there at most once each. -/
theorem record?_eq (v : Value) : v.record? fieldNames =
    if isReadable.hasForm v ∧ ∀ name ∈ fieldNames, (fields v name).length ≤ 1 then
      some (fieldNames.map fun name => (fields v name).head?)
    else none := by
  cases v with
  | obj members =>
    have hmembers : isReadable.hasForm (.obj members) = members.all fun (k, _) => k.isSome := rfl
    rw [hmembers, Value.record?]
    by_cases h : (members.all fun (k, _) => k.isSome) = true
    · rw [if_pos h]
      simp only [h, true_and]
      exact mapM_valuesOf members fieldNames
    · rw [if_neg h, if_neg fun hboth => h hboth.1]
  | arr items =>
    match items with
    | [] => rfl
    | [_] => rfl
    | [_, _] => rfl
    | [_, _, _] => rfl
    | a :: b :: c :: d :: items =>
      have hlong : ¬ (a :: b :: c :: d :: items).length ≤ fieldNames.length := by
        simp only [fieldNames, List.length_cons, List.length_nil]
        omega
      rw [Value.record?, if_neg hlong, if_neg]
      exact fun h => hlong (of_decide_eq_true h.1)
  | null | bool _ | num _ | str _ => rfl

theorem browser?_head? (vs : List Value) : Value.orAbsent? browser? none vs.head? =
    if vs.head?.all (·.isSound depthLimit) then some (vs.head?.bind Value.text?) else none := by
  cases vs.head? with
  | none => rfl
  | some v => rfl

theorem text?_head? (vs : List Value) :
    Value.orAbsent? (Value.orNull? Value.text?) none vs.head? =
      if vs.head?.all fun f => f.isNull || f.text?.isSome then some (vs.head?.bind Value.text?)
      else none := by
  cases vs.head? with
  | none => rfl
  | some v =>
    cases v with
    | str s => cases s <;> rfl
    | null | bool _ | num _ | arr _ | obj _ => rfl

theorem all_head? {α : Type} {vs : List α} (h : vs.length ≤ 1) (p : α → Bool) :
    vs.head?.all p = vs.all p := by
  match vs with
  | [] => rfl
  | [v] => simp
  | _ :: _ :: _ => simp at h

theorem toList_head? {α : Type} {vs : List α} (h : vs.length ≤ 1) : vs.head?.toList = vs := by
  match vs with
  | [] => rfl
  | [v] => rfl
  | _ :: _ :: _ => simp at h

/-- A text is read as a manifest if it stands for a value that can be one. -/
theorem read?_eq (text : String) : read? text = ((Json.parse? text).filter isReadable).map fun v =>
    { browser := (fields v "browser").head?.bind Value.text?
      module := (fields v "module").head?.bind Value.text?
      main := (fields v "main").head?.bind Value.text? } := by
  unfold read?
  cases hparse : Json.parse? text with
  | none => simp
  | some v =>
    have hrecord := record?_eq v
    unfold fieldNames at hrecord
    rw [Option.bind_eq_bind, Option.bind_some, hrecord]
    by_cases h : isReadable.hasForm v ∧
        ∀ name ∈ ["browser", "module", "main"], (fields v name).length ≤ 1
    · have honce : ∀ name ∈ ["browser", "module", "main"], (fields v name).length ≤ 1 := h.2
      have hall : fieldNames.all (fun name => (fields v name).length ≤ 1) = true := by
        simpa [fieldNames] using honce
      have hreadable : isReadable v = ((fields v "browser").head?.all (·.isSound depthLimit) &&
          ((fields v "module").head?.all (fun f => f.isNull || f.text?.isSome) &&
            (fields v "main").head?.all fun f => f.isNull || f.text?.isSome)) := by
        rw [all_head? (honce "browser" (by simp)), all_head? (honce "module" (by simp)),
          all_head? (honce "main" (by simp)), isReadable, h.1, hall, List.all_append]
        rfl
      rw [if_pos h, Option.filter_some, hreadable]
      simp only [List.map_cons, List.map_nil, browser?_head?, text?_head?, Option.bind_eq_bind,
        Option.bind_some]
      cases (fields v "browser").head?.all (·.isSound depthLimit) <;>
        cases (fields v "module").head?.all (fun f => f.isNull || f.text?.isSome) <;>
        cases (fields v "main").head?.all (fun f => f.isNull || f.text?.isSome) <;> rfl
    · have hreadable : isReadable v = false := by
        rw [← Bool.not_eq_true]
        intro hv
        simp only [isReadable, Bool.and_eq_true] at hv
        exact h ⟨hv.1.1.1, by simpa [fieldNames] using hv.1.1.2⟩
      rw [if_neg h, Option.filter_some, hreadable]
      rfl

/-- A manifest is entered where its fields that are texts say. -/
theorem entries_read? (options : BundlerOptions) (text : String) :
    ((read? text).getD {}).entries options =
      (((Json.parse? text).filter isReadable).map (textFields options)).getD [] := by
  rw [read?_eq]
  cases hfilter : (Json.parse? text).filter isReadable with
  | none => simp [entries]
  | some v =>
    have hv := (Option.filter_eq_some_iff.1 hfilter).2
    have honce : ∀ name ∈ fieldNames, (fields v name).length ≤ 1 := by
      simp only [isReadable, Bool.and_eq_true] at hv
      simpa using hv.1.1.2
    have htexts : ∀ name ∈ fieldNames, ((fields v name).head?.bind Value.text?).toList =
        (fields v name).filterMap Value.text? := by
      intro name hname
      rw [← toList_head? (honce name hname)]
      cases (fields v name).head? with
      | none => rfl
      | some f => cases hf : f.text? <;> simp [hf]
    simp only [entries, textFields, Option.map_some, Option.getD_some, List.filterMap_append,
      htexts "browser" (by simp [fieldNames]), htexts "module" (by simp [fieldNames]),
      htexts "main" (by simp [fieldNames])]
    split <;> rfl

end PackageManifest

/-! ## Candidates -/

namespace Resolver

section

variable (r : Resolver)

/-- A path as it is, and with each extension. -/
def spellings (p : Path) : List Path := p :: r.options.extensions.map fun e => ⟨p.text ++ e⟩

/-- Where the manifest of a directory says that it is entered. One that cannot be read says
nothing. -/
def namedEntries (dir : Path) : List String :=
  ((((r.fs.readText (dir / "package.json")).toOption.bind Json.parse?).filter
    PackageManifest.isReadable).map (PackageManifest.textFields r.options)).getD []

/-- The candidates for an entry of a directory. An entry that is the directory itself does not stand
for its index, which comes last. -/
def entryCandidates (dir : Path) (entry : String) : List Path :=
  let target := dir.joinNormal entry
  r.spellings target ++ if target == dir then [] else r.spellings (target / "index")

/-- The candidates for a directory. -/
def directoryCandidates (dir : Path) : List Path :=
  (r.namedEntries dir).flatMap (r.entryCandidates dir) ++ r.spellings (dir / "index")

/-- Where an import is looked for: at some paths, and behind them in a directory. -/
structure Search where
  paths : List Path := []
  dir : Option Path := none

/-- A path is looked for as it is spelled, and then in the directory that it is. -/
def pathSearch (p : Path) : Search := ⟨r.spellings p, if r.fs.isDir p then some p else none⟩

/-- The directory of a package in the nearest `node_modules` that has one. -/
def packageDir? (name : String) (dir : Path) : Option Path :=
  (dir.ancestors.map (· / "node_modules" / name)).find? r.fs.isDir

/-- Where an import of a file is looked for. -/
def search (specifier : String) (file : Path) : Search :=
  let dir := file.parent?.getD r.root
  match Specifier.byPieces specifier with
  | .relative path => r.pathSearch (dir.joinNormal path)
  | .absolute path => r.pathSearch (r.root.joinNormal path)
  | .package name none => { dir := r.packageDir? name dir }
  | .package name (some subpath) =>
    match r.packageDir? name dir with
    | none => {}
    | some packageDir => r.pathSearch (packageDir.joinNormal subpath)
  | .url _ => {}

/-- The candidates for an import, in their order. -/
def candidates (specifier : String) (file : Path) : List Path :=
  let s := r.search specifier file
  s.paths ++ (s.dir.map r.directoryCandidates).getD []

/-- The manifests that are read in a search. -/
def manifests (s : Search) : List Path :=
  if s.paths.any r.fs.isFile then []
  else (s.dir.map (· / "package.json")).toList.filter r.fs.isFile

/-- What a search comes to. -/
def outcome (s : Search) : Resolution :=
  ⟨(s.paths ++ (s.dir.map r.directoryCandidates).getD []).find? r.fs.isFile, r.manifests s⟩

end

variable {r : Resolver} {p dir file : Path} {specifier : String}

theorem probe?_eq_find? (r : Resolver) (p : Path) :
    r.probe? p = (r.spellings p).find? r.fs.isFile := rfl

theorem probeNamed?_eq_find? (r : Resolver) (dir : Path) (entry : String) :
    r.probeNamed? dir entry = (r.entryCandidates dir entry).find? r.fs.isFile := by
  unfold probeNamed? entryCandidates
  dsimp only
  rw [List.find?_append]
  split
  · rfl
  · rfl

theorem entries_manifest (r : Resolver) (dir : Path) :
    (r.manifest (dir / "package.json")).entries r.options = r.namedEntries dir := by
  unfold manifest namedEntries
  cases r.fs.readText (dir / "package.json") with
  | error e => simp [PackageManifest.entries, Except.toOption]
  | ok text => exact PackageManifest.entries_read? r.options text

theorem namedEntries_of_not_isFile (h : r.fs.isFile (dir / "package.json") = false) :
    r.namedEntries dir = [] := by
  have hcontent : r.fs.content? (dir / "package.json") = none := by
    rwa [FileSystem.isFile, Option.isSome_eq_false_iff, Option.isNone_iff_eq_none] at h
  unfold namedEntries FileSystem.readText FileSystem.read
  rw [hcontent]
  rfl

/-- A directory is entered at the first of its candidates. -/
theorem resolveDirectory_eq_outcome (h : r.fs.isDir dir = true) :
    r.resolveDirectory dir = r.outcome { dir := some dir } := by
  have hnamed : (r.namedEntries dir).findSome? (r.probeNamed? dir) =
      ((r.namedEntries dir).flatMap (r.entryCandidates dir)).find? r.fs.isFile := by
    rw [List.find?_flatMap]
    exact congrArg (List.findSome? · _) (funext (r.probeNamed?_eq_find? dir))
  have hfound : (r.directoryCandidates dir).find? r.fs.isFile =
      ((r.namedEntries dir).findSome? (r.probeNamed? dir)).or (r.probe? (dir / "index")) := by
    rw [directoryCandidates, List.find?_append, hnamed, probe?_eq_find?]
  have houtcome : r.outcome { dir := some dir } =
      ⟨(r.directoryCandidates dir).find? r.fs.isFile,
        [dir / "package.json"].filter r.fs.isFile⟩ := rfl
  rw [houtcome, hfound]
  unfold resolveDirectory
  rw [h, if_neg (by decide)]
  dsimp only
  rw [entries_manifest]
  by_cases hfile : r.fs.isFile (dir / "package.json") = true
  · rw [if_pos hfile, List.filter_cons_of_pos hfile]
    rfl
  · rw [if_neg hfile, List.filter_cons_of_neg hfile,
      namedEntries_of_not_isFile (Bool.eq_false_iff.2 hfile)]
    rfl

theorem outcome_empty (r : Resolver) : r.outcome {} = ⟨none, []⟩ := rfl

/-- A path is the first of its candidates that is a file. -/
theorem resolvePath_eq_outcome (r : Resolver) (p : Path) :
    r.resolvePath p = r.outcome (r.pathSearch p) := by
  unfold resolvePath
  cases hprobe : r.probe? p with
  | some found =>
    rw [probe?_eq_find?] at hprobe
    have hany : (r.spellings p).any r.fs.isFile = true :=
      List.any_eq_true.2 ⟨found, List.mem_of_find?_eq_some hprobe, List.find?_some hprobe⟩
    unfold outcome manifests pathSearch
    dsimp only
    rw [List.find?_append, hprobe, if_pos hany]
    rfl
  | none =>
    rw [probe?_eq_find?] at hprobe
    have hnone : (r.spellings p).any r.fs.isFile = false := by
      simpa using hprobe
    have houtcome : r.outcome (r.pathSearch p) =
        r.outcome { dir := if r.fs.isDir p then some p else none } := by
      unfold outcome manifests pathSearch
      dsimp only
      rw [List.find?_append, hprobe, hnone, Option.none_or]
      rfl
    rw [houtcome]
    by_cases hdir : r.fs.isDir p = true
    · rw [if_pos hdir]
      exact resolveDirectory_eq_outcome hdir
    · unfold resolveDirectory
      rw [if_neg hdir, outcome_empty, if_pos (by simpa using hdir)]

theorem resolvePackage_eq (r : Resolver) (name : String) (subpath : Option String) (dir : Path) :
    r.resolvePackage name subpath dir = ((r.packageDir? name dir).map fun packageDir =>
      (subpath.map fun subpath => r.resolvePath (packageDir.joinNormal subpath)).getD
        (r.resolveDirectory packageDir)).getD ⟨none, []⟩ := by
  unfold resolvePackage packageDir?
  cases (dir.ancestors.map (· / "node_modules" / name)).find? r.fs.isDir with
  | none => rfl
  | some packageDir =>
    cases subpath with
    | none => rfl
    | some subpath => rfl

theorem resolve_eq_outcome (r : Resolver) (specifier : String) (file : Path) :
    r.resolve specifier file = r.outcome (r.search specifier file) := by
  unfold resolve search
  rw [Specifier.ofText_eq_byPieces]
  dsimp only
  cases Specifier.byPieces specifier with
  | relative path => exact r.resolvePath_eq_outcome _
  | absolute path => exact r.resolvePath_eq_outcome _
  | url address => rfl
  | package name subpath =>
    cases subpath with
    | none =>
      dsimp only
      rw [resolvePackage_eq]
      cases hdir : r.packageDir? name (file.parent?.getD r.root) with
      | none => rfl
      | some packageDir => exact resolveDirectory_eq_outcome (List.find?_some hdir)
    | some subpath =>
      dsimp only
      rw [resolvePackage_eq]
      cases r.packageDir? name (file.parent?.getD r.root) with
      | none => rfl
      | some packageDir => exact r.resolvePath_eq_outcome _

end Resolver

namespace ModuleLoader

variable {l : ModuleLoader} {g : ModuleGraph} {file : Path} {specifier : String}

/-- A file that was found may be no module, but it was found. -/
theorem add_ne_unresolved (l : ModuleLoader) (g : ModuleGraph) (path file : Path)
    (specifier : String) : l.add g path ≠ .error (.unresolved specifier file) := by
  intro h
  unfold add at h
  rcases exists_of_bind_eq_error h with hread | ⟨_, -, hadded⟩
  · unfold readModule at hread
    split at hread
    · cases hread
    · dsimp only at hread
      split at hread
      · cases hread
      · unfold readScript at hread
        split at hread
        · cases hread
        · cases hread
  · cases hadded

/-- An import is reported as unresolved exactly if nothing is found. -/
theorem target_eq_unresolved_iff (l : ModuleLoader) (g : ModuleGraph) (file : Path)
    (d : Script.Dependency) : l.target file g d = .error (.unresolved d.specifier file) ↔
      (l.resolve d.specifier file).found = none := by
  unfold target
  dsimp only
  split
  · rename_i hnone
    exact iff_of_true rfl hnone
  · rename_i path hsome
    refine iff_of_false (fun h => ?_) (by simp [hsome])
    split at h
    · cases h
    · rcases exists_of_bind_eq_error h with hadd | ⟨_, -, hadded⟩
      · exact l.add_ne_unresolved _ _ _ _ hadd
      · cases hadded

end ModuleLoader

namespace Resolver

/-- What an import means is the first file among its candidates, and it is reported as unresolved
if there is none. The manifest of a directory is read, if it has one, exactly if candidates in that
directory come into question: no path in front of them is a file. -/
theorem resolve_eq_candidates (r : Resolver) (specifier : String) (file : Path) :
    (r.resolve specifier file).found = (r.candidates specifier file).find? r.fs.isFile ∧
    (∀ p, (r.resolve specifier file).found = some p → r.fs.isFile p = true) ∧
    (∀ mapDir analyze g kind,
      ({ r with mapDir, analyze } : ModuleLoader).target file g ⟨kind, specifier⟩ =
        .error (.unresolved specifier file) ↔
      ∀ p ∈ r.candidates specifier file, r.fs.isFile p = false) ∧
    ∀ q, q ∈ (r.resolve specifier file).read ↔ ∃ dir,
      (r.search specifier file).dir = some dir ∧
      (∀ p ∈ (r.search specifier file).paths, r.fs.isFile p = false) ∧
      q = dir / "package.json" ∧ r.fs.isFile q = true := by
  have houtcome := r.resolve_eq_outcome specifier file
  have hfound : (r.resolve specifier file).found =
      (r.candidates specifier file).find? r.fs.isFile := by
    rw [houtcome]
    rfl
  refine ⟨hfound, fun p hp => ?_, fun mapDir analyze g kind => ?_, fun q => ?_⟩
  · rw [hfound] at hp
    exact List.find?_some hp
  · rw [ModuleLoader.target_eq_unresolved_iff]
    dsimp only
    rw [hfound, List.find?_eq_none]
    simp only [Bool.not_eq_true]
  · rw [houtcome]
    show q ∈ r.manifests _ ↔ _
    unfold manifests
    by_cases hany : (r.search specifier file).paths.any r.fs.isFile = true
    · rw [if_pos hany]
      refine ⟨nofun, ?_⟩
      rintro ⟨dir, -, hnone, -⟩
      obtain ⟨p, hp, hfile⟩ := List.any_eq_true.1 hany
      rw [hnone p hp] at hfile
      cases hfile
    · have hnone : ∀ p ∈ (r.search specifier file).paths, r.fs.isFile p = false := by
        simpa using hany
      rw [if_neg hany, List.mem_filter, Option.mem_toList, Option.map_eq_some_iff]
      constructor
      · rintro ⟨⟨dir, hdir, rfl⟩, hfile⟩
        exact ⟨dir, hdir, hnone, rfl, hfile⟩
      · rintro ⟨dir, hdir, -, rfl, hfile⟩
        exact ⟨⟨dir, hdir, rfl⟩, hfile⟩

end Resolver

end ModuleWorkers
