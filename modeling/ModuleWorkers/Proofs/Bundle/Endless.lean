import ModuleWorkers.Proofs.Bundle.Needed

/-!
# Loads without an end

Files are finitely many, but the paths that they are found by are not if an extension goes up: a
module can find itself by a longer path each time. A load that keeps on finding modules has no
outcome (`ModuleLoader.not_loads_of_chain`), and there is one (`ModuleLoader.not_loads_endless`), so
loads come to an end only as long as no extension goes up (`ModuleLoader.exists_loads`).
-/

namespace ModuleWorkers

open Script (Dependency)

namespace ModuleLoader

variable {l : ModuleLoader} {d : Dependency} {chain : Nat → Path} {ms : List BundledModule}
  {queue : List (Path × Dependency)}

/-! ## Chains of modules -/

/-- The modules of a chain each have one import, which means the next module. -/
structure IsChain (l : ModuleLoader) (d : Dependency) (chain : Nat → Path) : Prop where
  reads : ∀ n, ∃ m mapFile, l.readModule (chain n) = .ok (m, mapFile) ∧ m.imports = [d]
  found : ∀ n, (l.resolve d.specifier (chain n)).found = some (chain (n + 1))
  distinct : ∀ j k, (chain j == chain k) = true → j = k

/-- A search along a chain has found some modules, and looks at the import of the last one. -/
theorem IsChain.exists_searches (h : l.IsChain d chain) (hs : l.Searches (chain 0) ms queue) :
    ∃ n, ms.map (·.path) = (List.range (n + 1)).map chain ∧ queue = [(chain n, d)] := by
  have hasked : ∀ {n m mapFile}, l.readModule (chain n) = .ok (m, mapFile) →
      m.path = chain n ∧ m.asked = [(chain n, d)] := by
    intro n m mapFile hm
    obtain ⟨m', mapFile', hm', himports⟩ := h.reads n
    cases hm.symm.trans hm'
    have hpath := (readModule_spec hm).1
    exact ⟨hpath, by rw [BundledModule.asked, himports, hpath]; rfl⟩
  induction hs with
  | start hm => exact ⟨0, congrArg (fun p => [p]) (hasked hm).1, (hasked hm).2⟩
  | known _ hfound hknown ih =>
    obtain ⟨n, hms, hqueue⟩ := ih
    obtain ⟨hhead, rfl⟩ := List.cons.inj hqueue
    obtain ⟨rfl, rfl⟩ := Prod.mk.inj hhead
    obtain ⟨m, hm, hpath⟩ := hknown
    cases hfound.symm.trans (h.found n)
    have hmem : m.path ∈ (List.range (n + 1)).map chain := hms ▸ List.mem_map.2 ⟨m, hm, rfl⟩
    obtain ⟨k, hk, hmk⟩ := List.mem_map.1 hmem
    have hsame : k = n + 1 := h.distinct k (n + 1) (hmk ▸ hpath)
    rw [hsame, List.mem_range] at hk
    exact absurd hk (Nat.lt_irrefl _)
  | new _ hfound _ hm ih =>
    obtain ⟨n, hms, hqueue⟩ := ih
    obtain ⟨hhead, rfl⟩ := List.cons.inj hqueue
    obtain ⟨rfl, rfl⟩ := Prod.mk.inj hhead
    cases hfound.symm.trans (h.found n)
    obtain ⟨hpath, hasked⟩ := hasked hm
    refine ⟨n + 1, ?_, hasked⟩
    rw [List.map_append, hms, List.range_succ (n := n + 1), List.map_append, List.map_singleton,
      List.map_singleton, hpath]

/-- A load of a chain never ends. -/
theorem not_loads_of_chain (h : l.IsChain d chain) (r : Except BundleError ModuleGraph) :
    ¬ l.Loads (chain 0) r := by
  rintro ⟨steps, hr⟩
  have hr := hr steps (Nat.le_refl steps)
  cases r with
  | ok g =>
    obtain ⟨n, -, hqueue⟩ := h.exists_searches (searches_of_loadWithin hr)
    cases hqueue
  | error e =>
    rcases isFirstError_of_loadWithin hr with hread | ⟨ms, file, d', queue, hs, hwrong⟩
    · obtain ⟨m, mapFile, hm, -⟩ := h.reads 0
      rw [hread] at hm
      cases hm
    · obtain ⟨n, -, hqueue⟩ := h.exists_searches hs
      obtain ⟨hhead, -⟩ := List.cons.inj hqueue
      obtain ⟨rfl, rfl⟩ := Prod.mk.inj hhead
      rcases hwrong with ⟨hnone, -⟩ | ⟨path, hfound, -, hread⟩
      · rw [h.found n] at hnone
        cases hnone
      · cases hfound.symm.trans (h.found n)
        obtain ⟨m, mapFile, hm, -⟩ := h.reads (n + 1)
        rw [hread] at hm
        cases hm

/-! ## A module that finds itself -/

/-- A script that imports a package which is entered, by an extension that goes up, at the script. -/
def endless : ModuleLoader :=
  { (Bundler.ofScripts [("/x.js", "import 'p'"), ("/node_modules/p/f", "")]).loader
      (Bundler.requestOf "/x.js") with
    options := { extensions := ["/../../../x.js"] } }

namespace Endless

open ModuleWorkers.Path

def package : List (List Char) := ["node_modules".toList, "p".toList, "index".toList]

def back : List (List Char) := [['.', '.'], ['.', '.'], ['.', '.']]

/-- Into the package and back, some times. -/
def rounds (n : Nat) : List (List Char) := (List.replicate n (package ++ back)).flatten

/-- A path of the script. -/
def spelled (n : Nat) : Path := rooted (rounds n ++ ["x.js".toList])

variable {n : Nat} {ss : List (List Char)}

theorem rounds_succ (n : Nat) : rounds (n + 1) = rounds n ++ (package ++ back) := by
  rw [rounds, rounds, List.replicate_succ', List.flatten_append, List.flatten_singleton]

theorem length_rounds (n : Nat) : (rounds n).length = n * 6 := by
  rw [rounds, List.length_flatten, List.map_replicate, List.sum_replicate_nat]
  rfl

theorem isWritten_rounds : ∀ s ∈ rounds n, IsWritten s := by
  intro s hs
  obtain ⟨round, hround, hs⟩ := List.mem_flatten.1 hs
  rw [List.eq_of_mem_replicate hround] at hs
  have hall : ∀ s ∈ package ++ back, IsWritten s := by decide
  exact hall s hs

theorem isWritten_append (hss : ∀ s ∈ ss, IsWritten s) : ∀ s ∈ rounds n ++ ss, IsWritten s := by
  intro s hs
  rcases List.mem_append.1 hs with hs | hs
  · exact isWritten_rounds s hs
  · exact hss s hs

/-- Rounds lead nowhere. -/
theorem place_rounds (n : Nat) (hss : ∀ s ∈ ss, IsWritten s) :
    (rooted (rounds n ++ ss)).place = (rooted ss).place := by
  rw [place_eq_collapse, place_eq_collapse, pieces_rooted (isWritten_append hss),
    pieces_rooted hss]
  induction n with
  | zero => rfl
  | succ n ih =>
    have hround : collapse (package ++ back) = [] := by decide
    rw [rounds, List.replicate_succ, List.flatten_cons, List.append_assoc, collapse_append, hround]
    exact ih

theorem content?_rounds (n : Nat) (hss : ∀ s ∈ ss, IsWritten s) :
    endless.fs.content? (rooted (rounds n ++ ss)) = endless.fs.content? (rooted ss) := by
  rw [FileSystem.content?, FileSystem.content?, place_rounds n hss]

theorem isFile_rounds (n : Nat) (hss : ∀ s ∈ ss, IsWritten s) :
    endless.fs.isFile (rooted (rounds n ++ ss)) = endless.fs.isFile (rooted ss) := by
  rw [FileSystem.isFile, FileSystem.isFile, content?_rounds n hss]

theorem isDir_rounds (n : Nat) (hss : ∀ s ∈ ss, IsWritten s) :
    endless.fs.isDir (rooted (rounds n ++ ss)) = endless.fs.isDir (rooted ss) := by
  rw [FileSystem.isDir, FileSystem.isDir, isFile_rounds n hss, place_rounds n hss]

theorem probe?_package (n : Nat) :
    endless.probe? (rooted (rounds n ++ package)) = some (spelled (n + 1)) := by
  have hindex : endless.fs.isFile (rooted (rounds n ++ package)) = false := by
    rw [isFile_rounds n (by decide)]
    decide +kernel
  have hself : endless.fs.isFile (spelled (n + 1)) = true := by
    rw [spelled, isFile_rounds (n + 1) (by decide)]
    decide +kernel
  have htext : ⟨(rooted (rounds n ++ package)).text ++ "/../../../x.js"⟩ = spelled (n + 1) := by
    have hpackage : rounds n ++ package ≠ [] :=
      List.append_ne_nil_of_right_ne_nil _ (by decide)
    have hback : back ++ ["x.js".toList] ≠ [] := by decide
    rw [spelled, rounds_succ, ← List.append_assoc, List.append_assoc,
      ← text_rooted_append hpackage hback]
    rfl
  have hextensions : endless.options.extensions = ["/../../../x.js"] := rfl
  rw [Resolver.probe?, hextensions, List.map_singleton, htext, List.find?_cons, hindex,
    List.find?_cons, hself]

theorem found_spelled (n : Nat) :
    (endless.resolve "p" (spelled n)).found = some (spelled (n + 1)) := by
  have hspecifier : Specifier.ofText "p" = .package "p" none := by decide +kernel
  have hparent : (spelled n).parent? = some (rooted (rounds n)) :=
    parent?_rooted (isWritten_append (by decide))
  have hmodules : rooted (rounds n) / "node_modules" / "p" =
      rooted (rounds n ++ ["node_modules".toList, "p".toList]) := by
    rw [div_rooted isWritten_rounds (by decide), div_rooted (isWritten_append (by decide))
      (by decide), List.append_assoc]
    rfl
  have hdir : endless.fs.isDir (rooted (rounds n) / "node_modules" / "p") = true := by
    rw [hmodules, isDir_rounds n (by decide)]
    decide +kernel
  have hmanifest : endless.fs.isFile
      (rooted (rounds n) / "node_modules" / "p" / "package.json") = false := by
    rw [hmodules, div_rooted (isWritten_append (by decide)) (by decide), List.append_assoc,
      isFile_rounds n (by decide)]
    decide +kernel
  have hindex : rooted (rounds n) / "node_modules" / "p" / "index" =
      rooted (rounds n ++ package) := by
    rw [hmodules, div_rooted (isWritten_append (by decide)) (by decide), List.append_assoc]
    rfl
  have hpackage : endless.resolvePackage "p" none (rooted (rounds n)) =
      endless.resolveDirectory (rooted (rounds n) / "node_modules" / "p") := by
    rw [Resolver.resolvePackage, ancestors, List.map_cons, List.find?_cons, hdir]
  have hresolve : endless.resolve "p" (spelled n) =
      endless.resolvePackage "p" none (rooted (rounds n)) := by
    rw [Resolver.resolve, hparent, hspecifier]
    rfl
  rw [hresolve, hpackage, Resolver.resolveDirectory, hdir]
  dsimp only
  rw [hmanifest, hindex, probe?_package n]
  rfl

theorem reads_spelled (n : Nat) : ∃ m mapFile,
    endless.readModule (spelled n) = .ok (m, mapFile) ∧ m.imports = [⟨.static, "p"⟩] := by
  have hcode : endless.fs.readText (spelled n) = .ok "import 'p'" := by
    refine FileSystem.readText_eq_ok_of_content? (content?_rounds n (by decide)) ?_
    exact eq_ok_of_toOption (by decide +kernel)
  have himports : endless.analyze "import 'p'" = .ok [⟨.static, "p"⟩] :=
    eq_ok_of_toOption (by decide +kernel)
  have hextension : (spelled n).extension? ≠ some "json" := by
    have hlast : (spelled n).components.getLast? = some (.name "x.js".toList) := by
      rw [spelled, components_eq_pieces (isAbsolute_rooted _),
        pieces_rooted (isWritten_append (by decide)), List.map_append, ← List.cons_append]
      exact List.getLast?_concat
    rw [extension?, fileName?, hlast]
    decide +kernel
  exact ⟨_, _, readModule_eq_ok_iff.2
    ⟨_, hcode, .inr ⟨hextension, _, himports, rfl, rfl⟩⟩, rfl⟩

end Endless

/-- A module that finds itself by a longer path each time. -/
theorem not_loads_endless (r : Except BundleError ModuleGraph) : ¬ endless.Loads ⟨"/x.js"⟩ r := by
  suffices hchain : endless.IsChain ⟨.static, "p"⟩ Endless.spelled from not_loads_of_chain hchain r
  refine ⟨Endless.reads_spelled, Endless.found_spelled, fun j k hjk => ?_⟩
  rw [Endless.spelled, Endless.spelled,
    Path.beq_iff_pieces (Path.isAbsolute_rooted _) (Path.isAbsolute_rooted _),
    Path.pieces_rooted (Endless.isWritten_append (by decide)),
    Path.pieces_rooted (Endless.isWritten_append (by decide))] at hjk
  have hlength := congrArg List.length hjk
  rw [List.length_append, List.length_append, Endless.length_rounds, Endless.length_rounds]
    at hlength
  omega

end ModuleLoader

end ModuleWorkers
