import ModuleWorkers.Bundle.Resolution
import ModuleWorkers.Proofs.Bundle.Specifier

/-!
# The files that imports mean

What an import means is a file at a stem, as it is or with an extension (`Resolver.exists_stem`). A
stem is a path in normal form or the index of a package directory, which is joined to a directory as
it is written.
-/

namespace ModuleWorkers

namespace Path

theorem forall_mem_ancestors {p : Path} {P : Path → Prop} (hp : P p)
    (hparent : ∀ q r, P q → q.parent? = some r → P r) : ∀ q ∈ p.ancestors, P q := by
  have hgo : ∀ (n : Nat) (p : Path), P p → ∀ q ∈ ancestors.go n p, P q := by
    intro n
    induction n with
    | zero => exact fun _ _ => nofun
    | succ n ih =>
      intro p hp q hq
      unfold ancestors.go at hq
      split at hq
      · cases hq
      · rename_i r hr
        rcases List.mem_cons.1 hq with rfl | hq
        · exact hparent p q hp hr
        · exact ih r (hparent p r hp hr) q hq
  intro q hq
  rcases List.mem_cons.1 hq with rfl | hq
  · exact hp
  · exact hgo _ p hp q hq

end Path

namespace Resolver

variable {r : Resolver} {p dir file found : Path} {specifier entry : String}
  {ns : List (List Char)}

/-! ## Stems -/

theorem probe?_eq_some (h : r.probe? p = some found) :
    (found = p ∨ ∃ e ∈ r.options.extensions, found = ⟨p.text ++ e⟩) ∧ r.fs.isFile found := by
  refine ⟨?_, List.find?_some h⟩
  rcases List.mem_cons.1 (List.mem_of_find?_eq_some h) with rfl | hmem
  · exact .inl rfl
  · obtain ⟨e, he, rfl⟩ := List.mem_map.1 hmem
    exact .inr ⟨e, he, rfl⟩

/-- The path of a file without its extension. -/
inductive IsStem (r : Resolver) (specifier : String) (file : Path) : Path → Prop
  | normal {ns : List (List Char)} : (∀ s ∈ ns, IsStep s) → IsStem r specifier file (Path.rooted ns)
  | index {ns : List (List Char)} : (∀ s ∈ ns, IsStep s) →
      IsStem r specifier file (Path.rooted ns / "index")
  | package {name : String} {dir : Path} : Specifier.ofText specifier = .package name none →
      dir ∈ (file.parent?.getD r.root).ancestors →
      IsStem r specifier file (dir / "node_modules" / name / "index")

theorem isStep_of_mem_join {ss : List (List Char)} {s : List Char}
    (h : s ∈ collapse (dir.names ++ ss)) (hss : ∀ s ∈ ss, '/' ∉ s) : IsStep s := by
  refine isStep_of_mem_collapse (fun t ht => ?_) h
  rcases List.mem_append.1 ht with ht | ht
  · exact (Path.isStep_of_mem_names ht).2
  · exact hss t ht

theorem probeNamed?_eq_some (hdir : dir.isAbsolute) (h : r.probeNamed? dir entry = some found) :
    ∃ stem, r.IsStem specifier file stem ∧ r.probe? stem = some found := by
  have hsteps : ∀ s ∈ collapse (dir.names ++ segments entry.toList), IsStep s := fun s hs =>
    isStep_of_mem_join hs fun _ => slash_not_mem_of_mem_segments
  unfold probeNamed? at h
  rw [Path.joinNormal_of_isAbsolute hdir entry] at h
  rcases Option.or_eq_some_iff.1 h with h | ⟨-, h⟩
  · exact ⟨_, .normal hsteps, h⟩
  · split at h
    · cases h
    · exact ⟨_, .index hsteps, h⟩

theorem resolveDirectory_eq_some (hdir : dir.isAbsolute)
    (h : (r.resolveDirectory dir).found = some found) :
    r.probe? (dir / "index") = some found ∨
      ∃ stem, r.IsStem specifier file stem ∧ r.probe? stem = some found := by
  unfold resolveDirectory at h
  split at h
  · cases h
  · dsimp only at h
    split at h
    · rcases Option.or_eq_some_iff.1 h with h | ⟨-, h⟩
      · obtain ⟨entry, -, h⟩ := List.exists_of_findSome?_eq_some h
        exact .inr (probeNamed?_eq_some hdir h)
      · exact .inl h
    · exact .inl h

theorem resolvePath_eq_some (hns : ∀ s ∈ ns, IsStep s)
    (h : (r.resolvePath (.rooted ns)).found = some found) :
    ∃ stem, r.IsStem specifier file stem ∧ r.probe? stem = some found := by
  unfold resolvePath at h
  split at h
  · rename_i q hq
    cases h
    exact ⟨_, .normal hns, hq⟩
  · rcases resolveDirectory_eq_some (Path.isAbsolute_rooted ns) h with h | h
    · exact ⟨_, .index hns, h⟩
    · exact h

theorem joinNormal_eq_some {relative : String} (hdir : dir.isAbsolute)
    (h : (r.resolvePath (dir.joinNormal relative)).found = some found) :
    ∃ stem, r.IsStem specifier file stem ∧ r.probe? stem = some found := by
  rw [Path.joinNormal_of_isAbsolute hdir] at h
  exact resolvePath_eq_some
    (fun s hs => isStep_of_mem_join hs fun _ => slash_not_mem_of_mem_segments) h

theorem isAbsolute_directory (hroot : r.root.isAbsolute) (hfile : file.isAbsolute) :
    (file.parent?.getD r.root).isAbsolute := by
  cases hparent : file.parent? with
  | none => exact hroot
  | some dir => exact (Path.pieces_of_parent? hfile hparent).1

theorem isAbsolute_package {name : String} {subpath : Option String} (hdir : dir.isAbsolute)
    (hspecifier : Specifier.ofText specifier = .package name subpath) (hp : p ∈ dir.ancestors) :
    (p / "node_modules" / name).isAbsolute := by
  have hmodules := (p.join_of_relative (r := ⟨"node_modules"⟩) rfl).1
  have hname := (Path.join_of_relative (p / "node_modules") (Specifier.of_package hspecifier).1).1
  refine hname.trans (hmodules.trans ?_)
  exact Path.forall_mem_ancestors hdir (fun _ _ h hq => (Path.pieces_of_parent? h hq).1) p hp

/-- What an import means is the file at a stem. -/
theorem exists_stem (hroot : r.root.isAbsolute) (hfile : file.isAbsolute)
    (h : (r.resolve specifier file).found = some found) :
    ∃ stem, r.IsStem specifier file stem ∧ r.probe? stem = some found := by
  have hdir := isAbsolute_directory hroot hfile
  unfold resolve at h
  dsimp only at h
  cases hspecifier : Specifier.ofText specifier with
  | relative path =>
    rw [hspecifier] at h
    exact joinNormal_eq_some hdir h
  | absolute path =>
    rw [hspecifier] at h
    exact joinNormal_eq_some hroot h
  | url address =>
    rw [hspecifier] at h
    cases h
  | package name subpath =>
    rw [hspecifier] at h
    dsimp only [resolvePackage] at h
    split at h
    · cases h
    · rename_i packageDir hfind
      obtain ⟨q, hq, rfl⟩ := List.mem_map.1 (List.mem_of_find?_eq_some hfind)
      have hpackage := isAbsolute_package hdir hspecifier hq
      cases subpath with
      | some subpath => exact joinNormal_eq_some hpackage h
      | none =>
        rcases resolveDirectory_eq_some hpackage h with h | h
        · exact ⟨_, .package hspecifier hq, h⟩
        · exact h

theorem isAbsolute_index (hp : p.isAbsolute) : (p / "index").isAbsolute :=
  (p.join_of_relative (r := ⟨"index"⟩) rfl).1.trans hp

theorem isAbsolute_of_found (hroot : r.root.isAbsolute) (hfile : file.isAbsolute)
    (h : (r.resolve specifier file).found = some found) : found.isAbsolute := by
  obtain ⟨stem, hstem, hprobe⟩ := exists_stem hroot hfile h
  have hstem : stem.isAbsolute := by
    cases hstem with
    | normal _ => exact Path.isAbsolute_rooted _
    | index _ => exact isAbsolute_index (Path.isAbsolute_rooted _)
    | package hspecifier hdir =>
      exact isAbsolute_index
        (isAbsolute_package (isAbsolute_directory hroot hfile) hspecifier hdir)
  rcases (probe?_eq_some hprobe).1 with rfl | ⟨e, -, rfl⟩
  · exact hstem
  · exact Path.isAbsolute_extended hstem e

end Resolver

end ModuleWorkers
