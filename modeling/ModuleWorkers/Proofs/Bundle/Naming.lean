import ModuleWorkers.Proofs.Bundle.Closed

/-!
# Scripts of one name

The name of a script to load later depends on the files that are packaged in it and on nothing else
(`Bundler.name_eq`). What is in the script also depends on what the imports of its modules become,
and that is the business of the whole bundle: an import of a module that the first script has needs
no script, in another bundle it may need one. So scripts of two bundles that package the same files
have one name, and they are the same if their imports load the same scripts (`Bundler.file_eq`), but
not otherwise (`Bundler.exists_name_eq_code_ne`).
-/

namespace ModuleWorkers

open Script (Dependency DependencyKind Target)

theorem zip_map_eq_zip_map {α β β' γ : Type} {as : List α} {bs : List β} {bs' : List β'}
    {f : α × β → γ} {f' : α × β' → γ} (hlength : as.length = bs.length)
    (hlength' : as.length = bs'.length)
    (h : ∀ a b b', (a, b) ∈ as.zip bs → (a, b') ∈ as.zip bs' → f (a, b) = f' (a, b')) :
    (as.zip bs).map f = (as.zip bs').map f' := by
  induction as generalizing bs bs' with
  | nil => rfl
  | cons a as ih =>
    cases bs with
    | nil => cases hlength
    | cons b bs =>
      cases bs' with
      | nil => cases hlength'
      | cons b' bs' =>
        rw [List.zip_cons_cons, List.zip_cons_cons, List.map_cons, List.map_cons,
          h a b b' List.mem_cons_self List.mem_cons_self,
          ih (Nat.succ.inj hlength) (Nat.succ.inj hlength') fun a b b' hb hb' =>
            h a b b' (List.mem_cons_of_mem _ hb) (List.mem_cons_of_mem _ hb')]

namespace ModuleLoader

variable {l : ModuleLoader} {g g' : ModuleGraph} {m m' : BundledModule}

/-- What a module is read as depends on its file. -/
theorem IsRead.untargeted_eq (h : l.IsRead g m) (h' : l.IsRead g' m') (hpath : m.path = m'.path) :
    m.untargeted = m'.untargeted := by
  obtain ⟨mapFile, hread, -⟩ := h
  obtain ⟨mapFile', hread', -⟩ := h'
  rw [hpath, hread'] at hread
  exact (congrArg Prod.fst (Except.ok.inj hread)).symm

end ModuleLoader

namespace Bundler

variable {b : Bundler} {r r' : BundleRequest} {l : ModuleLoader} {entry entry' : Path}
  {g g' : ModuleGraph} {mapDir : Path} {out out' : BundleOutput} {s s' : LaterScript}
  {f f' : OutputFile} {m m' : BundledModule} {j k k' : Nat}

/-! ## The same modules in two graphs -/

/-- Two graphs spell the files that they share in the same way. -/
def SpellAlike (g g' : ModuleGraph) : Prop :=
  ∀ m ∈ g.modules, ∀ m' ∈ g'.modules, (m.path == m'.path) = true → m.path = m'.path

/-- The path of a module. -/
def file? (g : ModuleGraph) (k : Nat) : Option String := g.modules[k]?.map (·.path.text)

/-- The path of a module and the scripts to load for its imports. -/
def part? (g : ModuleGraph) (k : Nat) : Option (String × List (Option String)) :=
  g.modules[k]?.map fun m => (m.path.text, (importTargets g (laterScripts g) m).map (·.chunk))

theorem untargeted_eq_of_file?_eq (hg : l.Loaded entry g) (hg' : l.Loaded entry' g')
    (hm : g.modules[k]? = some m) (hm' : g'.modules[k']? = some m') (h : file? g k = file? g' k') :
    m.untargeted = m'.untargeted := by
  rw [file?, file?, hm, hm'] at h
  exact (hg.read k m hm).untargeted_eq (hg'.read k' m' hm')
    (congrArg Path.mk (Option.some.inj h))

/-- Imports of one file mean modules with the same ids. -/
theorem map_id_importTargets_eq (hg : l.Loaded entry g) (hg' : l.Loaded entry' g')
    (hspell : SpellAlike g g') (hm : g.modules[k]? = some m) (hm' : g'.modules[k']? = some m')
    (hsame : m.untargeted = m'.untargeted) :
    (importTargets g (laterScripts g) m).map (·.id) =
      (importTargets g' (laterScripts g') m').map (·.id) := by
  have himports := BundledModule.imports_of_untargeted hsame
  unfold importTargets
  rw [List.map_map, List.map_map, himports]
  refine zip_map_eq_zip_map (himports ▸ (hg.targets k m hm).length_eq)
    (hg'.targets k' m' hm').length_eq fun d i i' hi hi' => ?_
  rw [← himports] at hi
  obtain ⟨-, n, path, hn, hfound, hpath⟩ := (hg.mem_zip_iff hm).1 hi
  obtain ⟨-, n', path', hn', hfound', hpath'⟩ := (hg'.mem_zip_iff hm').1 hi'
  rw [← BundledModule.path_of_untargeted hsame, hfound] at hfound'
  cases hfound'
  have hbeq : (n.path == n'.path) = true := by
    rw [Path.beq_iff] at hpath hpath' ⊢
    rw [hpath, hpath']
  have hfile := hspell n (Array.mem_of_getElem? hn) n' (Array.mem_of_getElem? hn') hbeq
  simp only [Function.comp_apply, hn, hn', Option.map_some, Option.getD_some]
  rw [(hg.read i n hn).id_eq, (hg'.read i' n' hn').id_eq, hfile]

theorem eq_of_map_id_eq {ts ts' : List Target} (hid : ts.map (·.id) = ts'.map (·.id))
    (hchunk : ts.map (·.chunk) = ts'.map (·.chunk)) : ts = ts' := by
  induction ts generalizing ts' with
  | nil => exact (List.map_eq_nil_iff.1 hid.symm).symm
  | cons t ts ih =>
    cases ts' with
    | nil => cases hid
    | cons t' ts' =>
      obtain ⟨hid, hids⟩ := List.cons.inj hid
      obtain ⟨hchunk, hchunks⟩ := List.cons.inj hchunk
      cases t
      cases t'
      cases hid
      cases hchunk
      rw [ih hids hchunks]

theorem packageModule_eq {later later' : List LaterScript} (hsame : m.untargeted = m'.untargeted)
    (htargets : importTargets g later m = importTargets g' later' m') :
    b.packageModule g later mapDir m = b.packageModule g' later' mapDir m' := by
  obtain ⟨hid, hpath, hcode, hjson, -, hmap⟩ := BundledModule.untargeted_eq_iff.1 hsame
  unfold packageModule moduleBody jsonBody
  rw [htargets, hid, hpath, hcode, hjson, hmap]

/-- One file, whose imports load the same scripts, becomes the same in two bundles. -/
theorem IsPackaged.eq (hg : l.Loaded entry g) (hg' : l.Loaded entry' g')
    (hspell : SpellAlike g g') {p p' : PackagedModule} (hp : b.IsPackaged g mapDir k p)
    (hp' : b.IsPackaged g' mapDir k' p') (h : part? g k = part? g' k') : p = p' := by
  obtain ⟨m, hm, hp⟩ := hp
  obtain ⟨m', hm', hp'⟩ := hp'
  rw [part?, part?, hm, hm'] at h
  obtain ⟨hpath, hchunk⟩ := Prod.ext_iff.1 (Option.some.inj h)
  have hsame := (hg.read k m hm).untargeted_eq (hg'.read k' m' hm') (congrArg Path.mk hpath)
  have hid := map_id_importTargets_eq hg hg' hspell hm hm' hsame
  rw [packageModule_eq hsame (eq_of_map_id_eq hid hchunk), hp'] at hp
  exact (Except.ok.inj hp).symm

/-! ## Names and contents -/

theorem rel_of_getLast? {α β : Type} {R : α → β → Prop} {as : List α} {bs : List β} {a : α} {b : β}
    (h : List.Forall₂ R as bs) (ha : as.getLast? = some a) (hb : bs.getLast? = some b) : R a b := by
  have hreverse := List.forall₂_reverse_iff.2 h
  rw [List.getLast?_eq_head?_reverse] at ha hb
  obtain ⟨as', has⟩ := List.head?_eq_some_iff.1 ha
  obtain ⟨bs', hbs⟩ := List.head?_eq_some_iff.1 hb
  rw [has, hbs] at hreverse
  exact (List.forall₂_cons.1 hreverse).1

theorem getLast?_later (hs : s ∈ laterScripts g) : s.modules.getLast? = some s.target := by
  obtain ⟨-, hmain, hmodules, -⟩ := mem_laterScripts_iff.1 hs
  rw [hmodules]
  exact DepthFirst.getLast?_order (by simpa using hmain)

/-- Lists that are the same under two functions, side by side. -/
theorem forall₂_of_map_eq {α β γ : Type} {f : α → γ} {f' : β → γ} {as : List α} {bs : List β}
    (h : as.map f = bs.map f') : List.Forall₂ (fun a b => f a = f' b) as bs := by
  rw [← List.forall₂_eq_eq_eq] at h
  exact List.forall₂_map_right_iff.1 (List.forall₂_map_left_iff.1 h)

/-- The name of a script depends on the files in it only. -/
theorem name_eq (hg : l.Loaded entry g) (hg' : l.Loaded entry' g') (hs : s ∈ laterScripts g)
    (hs' : s' ∈ laterScripts g') (hfiles : s.modules.map (file? g) = s'.modules.map (file? g')) :
    s.name = s'.name := by
  have hsame := forall₂_of_map_eq hfiles
  have htarget : g.modules[s.target]?.bind (·.path.stem?) =
      g'.modules[s'.target]?.bind (·.path.stem?) := by
    have hfile : file? g s.target = file? g' s'.target :=
      rel_of_getLast? (R := fun k k' => file? g k = file? g' k') hsame (getLast?_later hs)
        (getLast?_later hs')
    have hstem : ∀ (g : ModuleGraph) (k : Nat),
        g.modules[k]?.bind (·.path.stem?) = (file? g k).bind fun text => Path.stem? ⟨text⟩ := by
      intro g k
      rw [file?, Option.bind_map]
      rfl
    rw [hstem, hstem, hfile]
  rw [(mem_laterScripts_iff.1 hs).2.2.2, (mem_laterScripts_iff.1 hs').2.2.2, scriptName, scriptName,
    htarget]
  refine congrArg (fun bytes => _ ++ "-" ++ String.ofList (Xxh3.digits 8 bytes) ++ ".js") ?_
  refine List.rel_foldl (P := Eq) ?_ rfl hsame
  rintro bytes _ rfl k k' hfile
  cases hm : g.modules[k]? with
  | none =>
    rw [file?, file?, hm] at hfile
    simp only [hm, Option.map_eq_none_iff.1 hfile.symm]
  | some m =>
    have hm' := hfile
    rw [file?, file?, hm, Option.map_some] at hm'
    obtain ⟨m', hm', -⟩ := Option.map_eq_some_iff.1 hm'.symm
    obtain ⟨hid, -, hcode, -⟩ :=
      BundledModule.untargeted_eq_iff.1 (untargeted_eq_of_file?_eq hg hg' hm hm' hfile)
    simp only [hm, hm', hid, hcode]

/-- Scripts with the same files, whose imports load the same scripts, are packaged alike. -/
theorem packages_eq (hg : l.Loaded entry g) (hg' : l.Loaded entry' g') (hspell : SpellAlike g g')
    (hparts : s.modules.map (part? g) = s'.modules.map (part? g')) {p p' : Package}
    (hp : b.Packages g mapDir s.modules none p) (hp' : b.Packages g' mapDir s'.modules none p') :
    p = p' := by
  obtain ⟨ms, hms, hp⟩ := hp
  obtain ⟨ms', hms', hp'⟩ := hp'
  suffices hsame : ms = ms' by
    rw [hsame, hp'] at hp
    exact (Except.ok.inj hp).symm
  clear hp hp'
  generalize s.modules = ks, s'.modules = ks' at *
  have hsame := forall₂_of_map_eq hparts
  clear hparts
  induction hsame generalizing ms ms' with
  | nil =>
    cases hms
    cases hms'
    rfl
  | cons hpart _ ih =>
    cases hms with
    | cons hp hms =>
      cases hms' with
      | cons hp' hms' => rw [hp.eq hg hg' hspell hp' hpart, ih _ _ hms hms']

theorem loader_eq (hroot : r.root = r'.root)
    (hdir : UrlPath.dirname r.requestedPath = UrlPath.dirname r'.requestedPath) :
    b.loader r = b.loader r' := by
  rw [loader, loader, hroot, hdir]

theorem map_file?_eq (h : s.modules.map (part? g) = s'.modules.map (part? g')) :
    s.modules.map (file? g) = s'.modules.map (file? g') := by
  have hfile : ∀ g : ModuleGraph, file? g = Option.map Prod.fst ∘ part? g := by
    intro g
    funext k
    rw [Function.comp_apply, part?, Option.map_map]
    rfl
  rw [hfile, hfile, ← List.map_map, ← List.map_map, h]

/-- Scripts with the same files have the same name, and they are the same if besides their imports
load the same scripts. -/
theorem file_eq (hload : (b.loader r).load r.entry = .ok g)
    (hload' : (b.loader r').load r'.entry = .ok g') (hroot : r.root = r'.root)
    (hdir : UrlPath.dirname r.requestedPath = UrlPath.dirname r'.requestedPath)
    (hspell : SpellAlike g g') (hout : b.bundle r = .ok out) (hout' : b.bundle r' = .ok out')
    (hf : (s, f) ∈ (laterScripts g).zip out.files)
    (hf' : (s', f') ∈ (laterScripts g').zip out'.files)
    (hfiles : s.modules.map (file? g) = s'.modules.map (file? g')) :
    f.name = f'.name ∧ (s.modules.map (part? g) = s'.modules.map (part? g') → f = f') := by
  have hg := ModuleLoader.loaded_of_load hload
  have hg' := ModuleLoader.loaded_of_load hload'
  rw [bundle_of_load hload] at hout
  rw [bundle_of_load hload'] at hout'
  rw [← loader_eq hroot hdir] at hg' hout'
  obtain ⟨-, hscripts, -⟩ := ofGraph_eq_ok hg hout
  obtain ⟨-, hscripts', -⟩ := ofGraph_eq_ok hg' hout'
  obtain ⟨p, hp, rfl⟩ := List.forall₂_zip hscripts hf
  obtain ⟨p', hp', rfl⟩ := List.forall₂_zip hscripts' hf'
  have hname : s.name = s'.name :=
    name_eq hg hg' (List.of_mem_zip hf).1 (List.of_mem_zip hf').1 hfiles
  refine ⟨hname, fun hparts => ?_⟩
  rw [packages_eq hg hg' hspell hparts hp hp', hname]

/-! ## Three workers -/

/-- Three workers with one script that they load later. The second one has in its first script what
that script imports. -/
def sharedScripts : List (String × String) := [
  ("/a.js", "import('./l.js')"), ("/b.js", "import './x.js'; import('./l.js')"),
  ("/c.js", "import('./l.js')"), ("/l.js", "import('./x.js')"), ("/x.js", "")]

/-- The paths of the modules of a graph. -/
def paths (g : ModuleGraph) : List String := g.modules.toList.map (·.path.text)

theorem spellAlike_of_paths
    (h : ∀ p ∈ paths g, ∀ q ∈ paths g', ((⟨p⟩ : Path) == ⟨q⟩) = true → p = q) :
    SpellAlike g g' := fun m hm m' hm' hpath =>
  congrArg Path.mk (h m.path.text (List.mem_map_of_mem (Array.mem_toList_iff.2 hm)) m'.path.text
    (List.mem_map_of_mem (Array.mem_toList_iff.2 hm')) hpath)

/-- The scripts to load later, by what is packaged in them. -/
def laterParts (g : ModuleGraph) : List (List (Option (String × List (Option String)))) :=
  (laterScripts g).map fun s => s.modules.map (part? g)

theorem exists_first_file {parts : List (Option (String × List (Option String)))}
    {rest : List (List (Option (String × List (Option String))))} {name : String}
    {names : List String} (hparts : laterParts g = parts :: rest)
    (hnames : out.files.map (·.name) = name :: names) :
    ∃ s f, (s, f) ∈ (laterScripts g).zip out.files ∧ s.modules.map (part? g) = parts ∧
      f.name = name := by
  obtain ⟨s, ss, hs, hparts, -⟩ := List.map_eq_cons_iff.1 hparts
  obtain ⟨f, fs, hf, hname, -⟩ := List.map_eq_cons_iff.1 hnames
  rw [hs, hf]
  exact ⟨s, f, List.mem_cons_self, hparts, hname⟩

theorem file_eq_shared : ∃ out out' f,
    (ofScripts sharedScripts).bundle (requestOf "/a.js") = .ok out ∧
      (ofScripts sharedScripts).bundle (requestOf "/c.js") = .ok out' ∧
      f ∈ out.files ∧ f ∈ out'.files ∧ f.name = "l-0d2a64d9.js" := by
  obtain ⟨g, out, hload, hout, h⟩ := exists_built_of_any (ofScripts sharedScripts)
    (requestOf "/a.js") 4
    (fun g out => paths g = ["/a.js", "/l.js", "/x.js"] ∧
      laterParts g = [[some ("/l.js", [some "x-d5972526.js"])], [some ("/x.js", [])]] ∧
      out.files.map (·.name) = ["l-0d2a64d9.js", "x-d5972526.js"])
    (by decide) (by decide +kernel)
  obtain ⟨g', out', hload', hout', h'⟩ := exists_built_of_any (ofScripts sharedScripts)
    (requestOf "/c.js") 4
    (fun g out => paths g = ["/c.js", "/l.js", "/x.js"] ∧
      laterParts g = [[some ("/l.js", [some "x-d5972526.js"])], [some ("/x.js", [])]] ∧
      out.files.map (·.name) = ["l-0d2a64d9.js", "x-d5972526.js"])
    (by decide) (by decide +kernel)
  obtain ⟨hpaths, hparts, hnames⟩ := of_decide_eq_true h
  obtain ⟨hpaths', hparts', hnames'⟩ := of_decide_eq_true h'
  obtain ⟨s, f, hf, hs, hname⟩ := exists_first_file hparts hnames
  obtain ⟨s', f', hf', hs', -⟩ := exists_first_file hparts' hnames'
  have hspell : SpellAlike g g' := by
    refine spellAlike_of_paths ?_
    rw [hpaths, hpaths']
    decide +kernel
  have hdir : UrlPath.dirname "/a.js" = UrlPath.dirname "/c.js" := by decide +kernel
  have hsame : f = f' :=
    (file_eq hload hload' rfl hdir hspell hout hout' hf hf' (map_file?_eq (hs.trans hs'.symm))).2
      (hs.trans hs'.symm)
  exact ⟨out, out', f, hout, hout', (List.of_mem_zip hf).2, hsame ▸ (List.of_mem_zip hf').2, hname⟩

/-- The text of a module in the scripts of a graph. -/
def text? (b : Bundler) (g : ModuleGraph) (mapDir : Path) (k : Nat) : Option String := do
  let m ← g.modules[k]?
  let p ← (b.packageModule g (laterScripts g) mapDir m).toOption
  return Package.wrapped p

theorem IsPackaged.text?_eq {p : PackagedModule} (h : b.IsPackaged g mapDir k p) :
    b.text? g mapDir k = some (Package.wrapped p) := by
  obtain ⟨m, hm, hp⟩ := h
  unfold text?
  rw [hm, Option.bind_eq_bind, Option.bind_some, hp]
  rfl

/-- The first script to load later, by its name and the texts of its modules. -/
def firstScript? (b : Bundler) (g : ModuleGraph) (mapDir : Path) :
    Option (String × List (Option String)) :=
  (laterScripts g).head?.map fun s => (s.name, s.modules.map (b.text? g mapDir))

theorem exists_first_code {name : String} {texts : List String}
    (hload : (b.loader r).load r.entry = .ok g) (hout : b.bundle r = .ok out)
    (h : firstScript? b g (b.loader r).mapDir = some (name, texts.map some)) :
    ∃ code map, .script name code map ∈ out.files ∧
      code = Package.lines Package.loader ++ String.join texts := by
  obtain ⟨s, hs, h⟩ := Option.map_eq_some_iff.1 h
  obtain ⟨rfl, htexts⟩ := Prod.mk.inj h
  obtain ⟨ss, hss⟩ := List.head?_eq_some_iff.1 hs
  rw [bundle_of_load hload] at hout
  obtain ⟨-, hfiles, -⟩ := ofGraph_eq_ok (ModuleLoader.loaded_of_load hload) hout
  rw [hss] at hfiles
  generalize out.files = files at hfiles ⊢
  cases hfiles with
  | cons hf _ =>
    obtain ⟨p, ⟨ms, hms, hp⟩, rfl⟩ := hf
    refine ⟨p.code, _, List.mem_cons_self, ?_⟩
    have hmap : s.modules.map (b.text? g (b.loader r).mapDir) =
        (ms.map Package.wrapped).map some := by
      rw [← List.forall₂_eq_eq_eq, List.map_map]
      exact List.forall₂_map_left_iff.2 (List.forall₂_map_right_iff.2
        (hms.imp fun k p hp => hp.text?_eq))
    have htexts' : ms.map Package.wrapped = texts :=
      List.map_injective_iff.2 (fun _ _ => Option.some.inj) (hmap.symm.trans htexts)
    rw [code_of_ofModules hp, htexts', Option.map_none, Option.getD_none, String.append_empty]

/-- Whether the first script to load later has a name and defines one module by a text. -/
def showsFirst (path : String) (g : ModuleGraph) (name text : String) : Bool :=
  firstScript? (ofScripts sharedScripts) g
    ((ofScripts sharedScripts).loader (requestOf path)).mapDir = some (name, [text].map some)

/-- A script may not be what another bundle has under its name, although both are served in one
directory. -/
theorem exists_name_eq_code_ne : ∃ out out' name code code' map map',
    (requestOf "/a.js").root = (requestOf "/b.js").root ∧
      UrlPath.dirname (requestOf "/a.js").requestedPath =
        UrlPath.dirname (requestOf "/b.js").requestedPath ∧
      (ofScripts sharedScripts).bundle (requestOf "/a.js") = .ok out ∧
      (ofScripts sharedScripts).bundle (requestOf "/b.js") = .ok out' ∧
      .script name code map ∈ out.files ∧ .script name code' map' ∈ out'.files ∧ code ≠ code' := by
  obtain ⟨g, out, hload, hout, h⟩ := exists_built_of_any (ofScripts sharedScripts)
    (requestOf "/a.js") 4
    (fun g _ => showsFirst "/a.js" g "l-0d2a64d9.js"
      (Package.wrapped ⟨"l.js", "__omt.load(\"x-d5972526.js\", \"x.js\");", default⟩))
    (by decide) (by decide +kernel)
  obtain ⟨g', out', hload', hout', h'⟩ := exists_built_of_any (ofScripts sharedScripts)
    (requestOf "/b.js") 4
    (fun g _ => showsFirst "/b.js" g "l-0d2a64d9.js"
      (Package.wrapped ⟨"l.js", "__omt.load(null, \"x.js\");", default⟩))
    (by decide) (by decide +kernel)
  obtain ⟨code, map, hf, hcode⟩ := exists_first_code hload hout (of_decide_eq_true h)
  obtain ⟨code', map', hf', hcode'⟩ := exists_first_code hload' hout' (of_decide_eq_true h')
  refine ⟨out, out', _, code, code', map, map', rfl, by decide +kernel, hout, hout', hf, hf', ?_⟩
  rw [hcode, hcode']
  intro hsame
  have htext := congrArg String.toList hsame
  rw [String.toList_append, String.toList_append] at htext
  exact absurd (List.append_cancel_left htext) (by decide +kernel)

end Bundler

end ModuleWorkers
