import ModuleWorkers.Proofs.Path.Ways
import ModuleWorkers.Proofs.SourceMap.Json
import ModuleWorkers.Proofs.Text.Search

/-!
# What sources mean

A source means a file as it is seen from a directory (`Source.seenFrom`). Absolute sources are kept
relative to the root directory of their map, which changes nothing as long as they are seen from
there (`Source.seenFrom_relativePath`). From another directory they mean the same exactly if this one
agrees with the root as far up as they climb (`Source.seenFrom_relativePath_eq_iff`). Sources that
are relocated mean what they meant seen from the directory that they were relative to
(`Source.seenFrom_relocated`).
-/

namespace ModuleWorkers

namespace Source

/-- The file that a source means, seen from a directory: the source itself if it is absolute. -/
def seenFrom (dir : Path) (source : String) : Path := (dir / source).normal

/-- How many directories a source leaves behind before it goes down. -/
def climb (source : String) : Nat := overshoot (segments source.toList)

variable {root dir : Path} {source : String}

theorem seenFrom_of_isAbsolute (h : (Path.mk source).isAbsolute) (dir : Path) :
    seenFrom dir source = (Path.mk source).normal :=
  congrArg Path.normal (Path.join_of_isAbsolute dir h)

theorem seenFrom_eq_iff (h : (Path.mk source).isAbsolute = false) (p q : Path) :
    seenFrom p source = seenFrom q source ↔ p.AgreeUp q (climb source) :=
  Path.normal_join_eq_iff p q h

/-! ## Sources of a root directory -/

theorem relativePath_of_isAbsolute_eq_false (root : Path)
    (h : (Path.mk source).isAbsolute = false) : relativePath root source = source := by
  rw [relativePath, h]
  simp

/-- Seen from a relative path, an absolute one stays as it is. -/
theorem relativePath_of_root (h : root.isAbsolute = false) (source : String) :
    relativePath root source = source := by
  unfold relativePath
  split
  · rfl
  · rename_i hcond
    have habsolute : (Path.mk source).isAbsolute := by
      simpa using (Bool.or_eq_false_iff.1 (Bool.eq_false_iff.2 hcond)).2
    rw [Path.relativeTo?, habsolute, h]
    rfl

theorem relativePath_of_isPlain (hroot : root.IsPlain) (habsolute : (Path.mk source).isAbsolute)
    (hsource : Text.contains source "://" = false) : relativePath root source =
      (((Path.mk source).relativeTo? root).map Path.text).getD source := by
  have hempty : root.text.isEmpty = false := by
    obtain ⟨cs, hcs⟩ := Path.exists_chars_eq_of_isAbsolute hroot.1
    rw [Bool.eq_false_iff]
    intro hempty
    rw [Path.chars, String.isEmpty_iff.1 hempty] at hcs
    cases hcs
  rw [relativePath, hempty, hsource, habsolute]
  cases (Path.mk source).relativeTo? root <;> rfl

/-- An absolute source becomes the way to it. -/
theorem exists_relativePath_eq (hroot : root.IsPlain) (habsolute : (Path.mk source).isAbsolute)
    (hsource : Text.contains source "://" = false) :
    ∃ ns, (∀ s ∈ ns, Path.IsPart s) ∧ relativePath root source = .ofList (joined ns) ∧
      seenFrom root (.ofList (joined ns)) = (Path.mk source).normal := by
  obtain ⟨ns, hns, hway, hback⟩ := hroot.exists_way habsolute
  refine ⟨ns, hns, ?_, hback⟩
  rw [relativePath_of_isPlain hroot habsolute hsource, hway]
  rfl

theorem contains_joined_eq_false {ns : List (List Char)} (h : ∀ s ∈ ns, Path.IsPart s) :
    Text.contains (.ofList (joined ns)) "://" = false := by
  rw [Bool.eq_false_iff]
  intro hcontains
  obtain ⟨before, after, heq⟩ := Text.exists_eq_of_contains hcontains
  rw [String.toList_ofList] at heq
  -- between two slashes there is an empty piece
  have hmem : [] ∈ segments (joined ns) := by
    have hsplit : before ++ ("://".toList ++ after) =
        (before ++ [':']) ++ '/' :: ([] ++ '/' :: after) := by
      simp
    rw [heq, hsplit, segments_append_slash, segments_append_slash]
    simp [segments]
  by_cases hns : ns = []
  · rw [hns] at heq
    cases before <;> simp [joined] at heq
  · rw [segments_joined hns fun s hs => (h s hs).2] at hmem
    exact (h [] hmem).1 rfl

/-- A source stays as it is, unless both it and the root are absolute: then it becomes the way to
it. -/
theorem relativePath_cases (hroot : root.isAbsolute → root.IsPlain)
    (hsource : Text.contains source "://" = false) :
    ((Path.mk source).isAbsolute = false ∨ root.isAbsolute = false) ∧
        relativePath root source = source ∨
      ((Path.mk source).isAbsolute ∧ root.isAbsolute) ∧
        ∃ ns, (∀ s ∈ ns, Path.IsPart s) ∧ relativePath root source = .ofList (joined ns) ∧
          seenFrom root (.ofList (joined ns)) = (Path.mk source).normal := by
  cases habsolute : (Path.mk source).isAbsolute with
  | false => exact .inl ⟨.inl rfl, relativePath_of_isAbsolute_eq_false root habsolute⟩
  | true =>
    cases hr : root.isAbsolute with
    | false => exact .inl ⟨.inr rfl, relativePath_of_root hr source⟩
    | true => exact .inr ⟨⟨rfl, rfl⟩, exists_relativePath_eq (hroot hr) habsolute hsource⟩

theorem contains_relativePath (hroot : root.isAbsolute → root.IsPlain)
    (hsource : Text.contains source "://" = false) :
    Text.contains (relativePath root source) "://" = false := by
  obtain ⟨-, hsame⟩ | ⟨-, ns, hns, hway, -⟩ := relativePath_cases hroot hsource
  · rwa [hsame]
  · rw [hway]
    exact contains_joined_eq_false hns

/-- What is seen from a root directory stays as it is for other directories. -/
theorem relativePath_relativePath_of_eq (hroot : root.isAbsolute → root.IsPlain)
    (hdir : dir.isAbsolute = root.isAbsolute) (hsource : Text.contains source "://" = false) :
    relativePath dir (relativePath root source) = relativePath root source := by
  obtain ⟨hrelative, hsame⟩ | ⟨-, ns, hns, hway, -⟩ := relativePath_cases hroot hsource
  · rw [hsame]
    rcases hrelative with h | h
    · exact relativePath_of_isAbsolute_eq_false dir h
    · exact relativePath_of_root (hdir.trans h) source
  · rw [hway]
    exact relativePath_of_isAbsolute_eq_false dir (Path.isAbsolute_joined hns)

/-- From the root directory a source means the same as before. -/
theorem seenFrom_relativePath (hroot : root.isAbsolute → root.IsPlain) (source : String) :
    seenFrom root (relativePath root source) = seenFrom root source := by
  cases hsource : Text.contains source "://" with
  | true => rw [relativePath, hsource, Bool.or_true, Bool.true_or, if_pos rfl]
  | false =>
    obtain ⟨-, hsame⟩ | ⟨⟨habsolute, -⟩, ns, -, hway, hback⟩ := relativePath_cases hroot hsource
    · rw [hsame]
    · rw [hway, hback, seenFrom_of_isAbsolute habsolute]

/-- Whether the way from the root directory to a source also leads there from another directory. Only
absolute sources are replaced by ways. -/
def LeadsFrom (root dir : Path) (source : String) : Prop :=
  (Path.mk source).isAbsolute → root.isAbsolute →
    dir.AgreeUp root (climb (relativePath root source))

instance (root dir : Path) (source : String) : Decidable (LeadsFrom root dir source) :=
  inferInstanceAs (Decidable (_ → _ → _))

/-- From another directory a source means the same as before exactly if it was relative, or the
directory agrees with the root as far up as the way to the source climbs. -/
theorem seenFrom_relativePath_eq_iff (hroot : root.isAbsolute → root.IsPlain)
    (hsource : Text.contains source "://" = false) (dir : Path) :
    seenFrom dir (relativePath root source) = seenFrom dir source ↔ LeadsFrom root dir source := by
  unfold LeadsFrom
  obtain ⟨hrelative, hsame⟩ | ⟨⟨habsolute, hr⟩, ns, hns, hway, hback⟩ :=
    relativePath_cases hroot hsource
  · rw [hsame]
    rcases hrelative with h | h
    · simp [h]
    · simp [h]
  · have hrelative : (Path.mk (.ofList (joined ns))).isAbsolute = false :=
      Path.isAbsolute_joined hns
    rw [hway, seenFrom_of_isAbsolute habsolute, ← hback, seenFrom_eq_iff hrelative]
    simp [habsolute, hr]

/-- The way to a source below the root leads there from the root only. -/
theorem leadsFrom_iff_of_isBelow (hroot : root.IsPlain) (hplain : (Path.mk source).IsPlain)
    (hbelow : (Path.mk source).isBelow root) (hsource : Text.contains source "://" = false)
    (dir : Path) : LeadsFrom root dir source ↔ dir.normal = root.normal := by
  obtain ⟨ns, hway, hclimb⟩ := hplain.exists_way_of_isBelow hroot hbelow
  have hrelative : relativePath root source = .ofList (joined ns) := by
    rw [relativePath_of_isPlain hroot hplain.1 hsource, hway]
    rfl
  rw [LeadsFrom, hrelative, climb, String.toList_ofList, hclimb, Path.agreeUp_zero_iff]
  simp [hplain.1, hroot.1]

/-! ## Sources that are relocated -/

/-- The path of a source that was relative to a directory, as `SourceMap.relocate` rewrites it. -/
def relocated (root dir : Path) (path : String) : String :=
  if Text.contains path "://" || (Path.mk path).isAbsolute then path
  else relativePath root (seenFrom dir path).text

theorem seenFrom_relocated (hroot : root.isAbsolute → root.IsPlain) (hdir : dir.isAbsolute)
    (hsource : Text.contains source "://" = false) :
    seenFrom root (relocated root dir source) = seenFrom dir source := by
  unfold relocated
  rw [hsource, Bool.false_or]
  split
  · rename_i habsolute
    rw [seenFrom_of_isAbsolute habsolute, seenFrom_of_isAbsolute habsolute]
  · rename_i habsolute
    rw [Bool.not_eq_true] at habsolute
    have hmeant : (seenFrom dir source).isAbsolute := by
      rw [seenFrom, Path.isAbsolute_normal]
      exact (dir.join_of_relative habsolute).1.trans hdir
    rw [seenFrom_relativePath hroot]
    exact (seenFrom_of_isAbsolute hmeant root).trans (Path.normal_normal _)

end Source

namespace SourceMap

theorem path?_relocate (m : SourceMap) (dir : Path) (k : Nat) :
    (m.relocate dir).path? k = (m.path? k).map (Source.relocated m.root dir) := by
  rw [path?, path?, relocate, List.getElem?_map, Option.map_map, Option.map_map]
  refine congrArg (Option.map · _) (funext fun s => ?_)
  simp only [Function.comp_apply, Source.relocated]
  split <;> rfl

/-- The directory that sources of the map at a reference are relative to: that of the file of the
map, or of the file with the reference if its address holds the map itself. -/
def sourcesDir (root file : Path) (url : String) : Path :=
  (((referencedFile? file url).getD file).parent?).getD ((file.parent?).getD root)

/-- The sources of a map that was read, in the order in which its fields list them. -/
theorem forall₂_path?_of_ofFields {root : Path} {f : Fields} {m : SourceMap}
    (h : ofFields root f = .ok m) :
    m.root = root ∧ List.Forall₂ (fun s k => m.path? k = some (Source.relativePath root s))
      (f.sourceList.map (·.1)) (f.reindexing root).sources := by
  obtain ⟨ss, -, -, rfl⟩ := ofFields_eq_ok_iff.1 h
  have hroot := (f.extends_table root).root
  have hlisted := (f.leads_listed root).sources
  rw [Fields.listed, List.map_map, hroot] at hlisted
  rw [addAll_eq]
  exact ⟨hroot, hlisted⟩

end SourceMap

end ModuleWorkers
