import ModuleWorkers.Proofs.Path.Address
import ModuleWorkers.Proofs.Plugin.Changes
import ModuleWorkers.Server.State

/-!
# Files that are read for scripts

For the body of a script the file of its address is read, and the file that its reference to a map
means, if that is below the root (`Server.readFiles`). Nothing else is: the body, and the server
that is left, are the same in all file systems that have the same content in these files
(`Server.scriptBody_eq_of_agreeOn`). All of them are below the root
(`Server.readFiles_isContained`), and none has a `..` that could lead out of it again.
-/

namespace ModuleWorkers

/-! ## Contained paths -/

namespace Path

/-- Whether a path is below a directory and stays there. -/
structure IsContainedIn (p dir : Path) : Prop where
  isBelow : p.isBelow dir
  up_not_mem : .up ∉ p.components

theorem up_not_mem_components_ofNames (absolute : Bool) {ns : List (List Char)}
    (h : ∀ s ∈ ns, IsStep s) : .up ∉ (ofNames absolute ns).components := by
  rw [components_ofNames absolute h]
  cases absolute <;> simp

theorem up_not_mem_components_normal (p : Path) : .up ∉ p.normal.components := by
  rw [normal_eq]
  exact up_not_mem_components_ofNames _ fun _ => isStep_of_mem_names

theorem isContainedIn_ofUrl {root : Path} (h : root.isAbsolute) (hup : .up ∉ root.components)
    (url : String) : (root.ofUrl url).IsContainedIn root :=
  ⟨isBelow_ofUrl h hup url, up_not_mem_components_normal _⟩

end Path

/-! ## Maps of scripts -/

namespace FileSystem

/-- Whether two file systems have the same content in some files. -/
def AgreeOn (files : List Path) (fs fs' : FileSystem) : Prop :=
  ∀ p ∈ files, fs.content? p = fs'.content? p

/-- The text of a file is that of its content, whatever is wrong if there is none. -/
theorem toOption_readText (fs : FileSystem) (p : Path) :
    (fs.readText p).toOption = (fs.content? p).bind String.fromUTF8? := by
  unfold readText read
  cases fs.content? p with
  | none => rfl
  | some bytes =>
    cases htext : String.fromUTF8? bytes <;>
      simp [bind, Except.bind, Except.toOption, htext]

theorem toOption_readText_congr {fs fs' : FileSystem} {p : Path}
    (h : fs.content? p = fs'.content? p) :
    (fs.readText p).toOption = (fs'.readText p).toOption := by
  rw [toOption_readText, toOption_readText, h]

end FileSystem

namespace ServedScript

/-- The files that may be read for the map of a text: the one its reference means, if it is below
the root. -/
def readFiles (s : ServedScript) (text : String) : List Path :=
  ((SourceMap.Reference.find? text).bind fun reference =>
    (SourceMap.referencedFile? s.file reference.url).filter (·.isBelow s.root)).toList

variable {s : ServedScript} {fs fs' : FileSystem}

theorem mem_readFiles {text : String} {p : Path} : p ∈ s.readFiles text ↔
    ∃ reference, SourceMap.Reference.find? text = some reference ∧
      SourceMap.referencedFile? s.file reference.url = some p ∧ p.isBelow s.root := by
  simp [readFiles, Option.bind_eq_some_iff, Option.filter_eq_some_iff]

theorem isContainedIn_of_mem_readFiles {text : String} {p : Path} (h : p ∈ s.readFiles text) :
    p.IsContainedIn s.root := by
  obtain ⟨reference, -, hfile, hbelow⟩ := mem_readFiles.1 h
  refine ⟨hbelow, ?_⟩
  unfold SourceMap.referencedFile? at hfile
  simp only at hfile
  split at hfile <;> split at hfile <;> cases hfile <;> exact Path.up_not_mem_components_normal _

theorem loadMap?_eq_of_agreeOn {text : String} {reference : SourceMap.Reference}
    (h : FileSystem.AgreeOn (s.readFiles text) fs fs')
    (hreference : SourceMap.Reference.find? text = some reference) :
    s.loadMap? fs reference.url = s.loadMap? fs' reference.url := by
  unfold loadMap?
  split
  · rfl
  rename_i hbelow
  unfold SourceMap.load
  cases hfile : SourceMap.referencedFile? s.file reference.url with
  | none => rfl
  | some p =>
    rw [hfile] at hbelow
    have hmem : p ∈ s.readFiles text :=
      mem_readFiles.2 ⟨reference, hreference, hfile, by simpa using hbelow⟩
    have hread := FileSystem.toOption_readText_congr (h p hmem)
    simp only
    cases htext : fs.readText p with
    | error e =>
      rw [htext] at hread
      cases htext' : fs'.readText p with
      | error e' => rfl
      | ok text' => rw [htext'] at hread; cases hread
    | ok text =>
      rw [htext] at hread
      cases htext' : fs'.readText p with
      | error e' => rw [htext'] at hread; cases hread
      | ok text' => rw [htext'] at hread; rw [Option.some.inj hread]

theorem attachMap_eq_of_agreeOn {buffer : EditBuffer}
    (h : FileSystem.AgreeOn (s.readFiles buffer.base) fs fs') :
    s.attachMap fs buffer = s.attachMap fs' buffer := by
  have hplace : s.placeMap fs buffer = s.placeMap fs' buffer := by
    unfold placeMap
    cases hreference : SourceMap.Reference.find? buffer.base with
    | none => rfl
    | some reference => simp only [loadMap?_eq_of_agreeOn h hreference]
  rw [attachMap, attachMap, hplace]

end ServedScript

namespace PluginState

variable {s : PluginState} {fs fs' : FileSystem} {path text : String}

/-- What is served for a text depends on the files that are read for its map, and on no others. -/
theorem respond_eq_of_agreeOn
    (h : FileSystem.AgreeOn ((ServedScript.ofPath s.root path).readFiles text) fs fs')
    (isScript : Bool) : s.respond fs path text isScript = s.respond fs' path text isScript := by
  unfold respond
  rcases s.canonicalize_cases path text isScript with hnone | ⟨script, hscript, hsome⟩
  · rw [hnone]
  · obtain ⟨_, -, hrewrites⟩ := CanonicalScript.rewrites_ofText hscript
    rw [← hrewrites.base_eq] at h
    rw [hsome]
    simp only
    rw [ServedScript.attachMap_eq_of_agreeOn h]

end PluginState

/-! ## Bodies of scripts -/

namespace Server

/-- The files that may be read for the body of a script: its own, and then the one for its map. -/
def readFiles (s : Server) (path : String) : List Path :=
  let file := s.state.root.ofUrl path
  file :: ((s.fs.readText file).toOption.elim []
    (ServedScript.ofPath s.state.root path).readFiles)

variable {s : Server} {path : String}

/-- The body of a script, and what becomes of the server, depend on the files that are read for it,
and on no others. -/
theorem scriptBody_eq_of_agreeOn {fs : FileSystem}
    (h : FileSystem.AgreeOn (s.readFiles path) s.fs fs) (headers : Headers) :
    { s with fs }.scriptBody path headers =
      ((s.scriptBody path headers).1, { (s.scriptBody path headers).2 with fs }) := by
  have hread := FileSystem.toOption_readText_congr (h _ List.mem_cons_self)
  unfold scriptBody
  simp only
  cases s.bodies.get? path (s.state.partition? s.plugin.options path headers) with
  | some body => rfl
  | none =>
    simp only
    cases htext : s.fs.readText (s.state.root.ofUrl path) with
    | error e =>
      rw [htext] at hread
      cases htext' : fs.readText (s.state.root.ofUrl path) with
      | error e' => rfl
      | ok text' => rw [htext'] at hread; cases hread
    | ok text =>
      rw [htext] at hread
      cases htext' : fs.readText (s.state.root.ofUrl path) with
      | error e' => rw [htext'] at hread; cases hread
      | ok text' =>
        rw [htext'] at hread
        obtain rfl := Option.some.inj hread
        have hmap : FileSystem.AgreeOn
            ((ServedScript.ofPath s.state.root path).readFiles text) s.fs fs := by
          intro p hp
          refine h p (List.mem_cons_of_mem _ ?_)
          rw [htext]
          exact hp
        simp only [PluginState.respond_eq_of_agreeOn hmap]

theorem isContainedIn_of_mem_readFiles (habsolute : s.state.root.isAbsolute)
    (hup : .up ∉ s.state.root.components) {p : Path} (h : p ∈ s.readFiles path) :
    p.IsContainedIn s.state.root := by
  rcases List.mem_cons.1 h with rfl | h
  · exact Path.isContainedIn_ofUrl habsolute hup path
  · cases htext : (s.fs.readText (s.state.root.ofUrl path)).toOption with
    | none =>
      rw [htext] at h
      cases h
    | some text =>
      rw [htext] at h
      exact ServedScript.isContainedIn_of_mem_readFiles (s := .ofPath s.state.root path) h

/-- The file of an address is below the root directory, and its address is the path in normal form.
All files that are read for what is served in the place of a text, or for the body of a script, are
below the root, and stay there: nothing else in the file system makes a difference. -/
theorem readFiles_isContained {root : Path} (habsolute : root.isAbsolute)
    (hup : .up ∉ root.components) :
    (∀ p, (root.ofUrl p).isBelow root ∧ root.urlOf? (root.ofUrl p) = some (UrlPath.normalize p)) ∧
    (∀ (s : PluginState) (path text : String), s.root = root →
      (∀ p ∈ (ServedScript.ofPath root path).readFiles text, p.IsContainedIn root) ∧
        ∀ fs fs', FileSystem.AgreeOn ((ServedScript.ofPath root path).readFiles text) fs fs' →
          ∀ isScript, s.respond fs path text isScript = s.respond fs' path text isScript) ∧
    ∀ (s : Server) (path : String), s.state.root = root →
      (∀ p ∈ s.readFiles path, p.IsContainedIn root) ∧
        ∀ fs, FileSystem.AgreeOn (s.readFiles path) s.fs fs → ∀ headers,
          { s with fs }.scriptBody path headers =
            ((s.scriptBody path headers).1, { (s.scriptBody path headers).2 with fs }) := by
  refine ⟨fun p => ?_, ?_, ?_⟩
  · have hbelow := Path.isBelow_ofUrl habsolute hup p
    exact ⟨hbelow, Path.urlOf?_ofUrl hbelow⟩
  · rintro s path text rfl
    exact ⟨fun _ => ServedScript.isContainedIn_of_mem_readFiles (s := .ofPath s.root path),
      fun _ _ h isScript => PluginState.respond_eq_of_agreeOn h isScript⟩
  · rintro s path rfl
    exact ⟨fun _ => isContainedIn_of_mem_readFiles habsolute hup,
      fun _ h headers => scriptBody_eq_of_agreeOn h headers⟩

/-- A script whose reference climbs out of the root: for its body only the script itself is read,
whatever the path that it is requested at looks like. -/
theorem readFiles_isContained_climbing :
    ∃ s : Server, s.state.root = ⟨"/app"⟩ ∧
      (s.fs.readText ⟨"/app/a.js"⟩).toOption = some "//# sourceMappingURL=../../etc/a.map" ∧
        (s.readFiles "/src/../../a.js").map (·.text) = ["/app/a.js"] ∧
          (∀ p ∈ s.readFiles "/src/../../a.js", p.IsContainedIn ⟨"/app"⟩) ∧
            Path.urlOf? ⟨"/app"⟩ (Path.ofUrl ⟨"/app"⟩ "/src/../../a.js") =
              some (UrlPath.normalize "/src/../../a.js") := by
  obtain ⟨s, hs⟩ : ∃ s : Server, s = .start
      (FileSystem.writeText {} ⟨"/app/a.js"⟩ "//# sourceMappingURL=../../etc/a.map")
      { pipeline := .bundler {} } ⟨"/app"⟩ := ⟨_, rfl⟩
  have hroot : s.state.root = ⟨"/app"⟩ := by rw [hs]; rfl
  obtain ⟨hfiles, -, hbodies⟩ := @readFiles_isContained ⟨"/app"⟩ (by decide +kernel)
    (by decide +kernel)
  refine ⟨s, hroot, ?_, ?_, (hbodies s "/src/../../a.js" hroot).1, (hfiles _).2⟩
  · rw [hs]
    decide +kernel
  · rw [hs]
    decide +kernel

end Server

end ModuleWorkers
