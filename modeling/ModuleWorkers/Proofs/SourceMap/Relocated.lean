import Mathlib.Data.List.Nodup
import ModuleWorkers.Proofs.SourceMap.Composition
import ModuleWorkers.Proofs.SourceMap.Listed

/-!
# Sources that fall together

All operations that add to a map keep its sources apart: what is added is looked up first. Sources
that are relocated are rewritten where they stand, so two spellings of one file become the same
source twice (`SourceMap.not_isTabled_spelled`). A map has each source at one index, and keeps all
contents when it is written and read, as long as no relocation lets sources fall together
(`SourceMap.Handled.isTabled`); for a map of a plain root directory these are the ones that mean the
same file (`SourceMap.ListsOnce.keepsApart_iff`).
-/

namespace ModuleWorkers

namespace Source

variable {root dir : Path} {s t : String}

/-- Paths that are resolved are no addresses. -/
theorem contains_normal (p : Path) : Text.contains p.normal.text "://" = false := by
  have hparts : ∀ n ∈ p.names, Path.IsPart n := fun n hn =>
    ⟨(Path.isStep_of_mem_names hn).1.1, (Path.isStep_of_mem_names hn).2⟩
  have hjoined := contains_joined_eq_false hparts
  rw [Path.normal_eq, Path.ofNames]
  cases p.isAbsolute with
  | false => exact hjoined
  | true =>
    rw [Bool.eq_false_iff] at hjoined ⊢
    intro hcontains
    obtain ⟨before, after, heq⟩ := Text.exists_eq_of_contains hcontains
    rw [if_pos rfl, Path.ofChars, String.toList_ofList] at heq
    -- The slash in front is not the colon.
    cases before with
    | nil => exact absurd (List.cons.inj heq).1 (by decide)
    | cons c before =>
      refine hjoined (Text.contains_of_eq (?_ : _ = before ++ (_ ++ after)))
      rw [String.toList_ofList]
      exact (List.cons.inj heq).2

theorem relocated_of_contains (h : Text.contains s "://") : relocated root dir s = s := by
  rw [relocated, h, Bool.true_or, if_pos rfl]

theorem relocated_of_relative (h : Text.contains s "://" = false)
    (hrelative : (Path.mk s).isAbsolute = false) :
    relocated root dir s = relativePath root (seenFrom dir s).text := by
  rw [relocated, h, hrelative, Bool.or_self, if_neg Bool.false_ne_true]

/-- Relocated sources are written as they are seen from the root directory. -/
theorem relativePath_relocated (h : relativePath root s = s) :
    relativePath root (relocated root dir s) = relocated root dir s := by
  unfold relocated
  split
  · exact h
  · exact relativePath_relativePath root _

theorem contains_relocated (hroot : root.isAbsolute → root.IsPlain)
    (hs : Text.contains s "://" = false) (hrelative : (Path.mk s).isAbsolute = false) :
    Text.contains (relocated root dir s) "://" = false := by
  rw [relocated_of_relative hs hrelative]
  exact contains_relativePath hroot (contains_normal _)

/-- Relative sources fall together exactly if they mean the same file. -/
theorem relocated_eq_relocated_iff (hroot : root.isAbsolute → root.IsPlain)
    (hs : Text.contains s "://" = false) (hsrel : (Path.mk s).isAbsolute = false)
    (ht : Text.contains t "://" = false) (htrel : (Path.mk t).isAbsolute = false) :
    relocated root dir s = relocated root dir t ↔ seenFrom dir s = seenFrom dir t := by
  constructor
  · intro h
    cases hdir : dir.isAbsolute with
    | true =>
      rw [← seenFrom_relocated hroot hdir hs, ← seenFrom_relocated hroot hdir ht, h]
    | false =>
      have hmeant : ∀ x : String, (Path.mk x).isAbsolute = false →
          (seenFrom dir x).isAbsolute = false := by
        intro x hx
        rw [seenFrom, Path.isAbsolute_normal]
        exact (dir.join_of_relative hx).1.trans hdir
      have hsame : ∀ x : String, (Path.mk x).isAbsolute = false →
          relativePath root (seenFrom dir x).text = (seenFrom dir x).text := fun x hx =>
        relativePath_of_isAbsolute_eq_false root (hmeant x hx)
      rw [relocated_of_relative hs hsrel, relocated_of_relative ht htrel, hsame s hsrel,
        hsame t htrel] at h
      exact congrArg Path.mk h
  · intro h
    rw [relocated_of_relative hs hsrel, relocated_of_relative ht htrel, h]

/-- From a plain root directory no absolute path stays as it is. -/
theorem isAbsolute_of_relativePath_eq (hroot : root.IsPlain) (hs : Text.contains s "://" = false)
    (h : relativePath root s = s) : (Path.mk s).isAbsolute = false := by
  cases habsolute : (Path.mk s).isAbsolute with
  | false => rfl
  | true =>
    obtain ⟨ns, hns, hway, -⟩ := exists_relativePath_eq hroot habsolute hs
    rw [← h, hway] at habsolute
    exact absurd habsolute (Bool.eq_false_iff.1 (Path.isAbsolute_joined hns))

end Source

namespace SourceMap

variable {m : SourceMap}

/-! ## Relocation -/

/-- Whether no two sources fall together when they are relocated. -/
def KeepsApart (m : SourceMap) (dir : Path) : Prop :=
  ∀ s ∈ m.sources, ∀ t ∈ m.sources,
    Source.relocated m.root dir s.path = Source.relocated m.root dir t.path → s.path = t.path

theorem map_path_relocate (m : SourceMap) (dir : Path) :
    (m.relocate dir).sources.map (·.path) =
      (m.sources.map (·.path)).map (Source.relocated m.root dir) := by
  refine List.ext_getElem? fun k => ?_
  rw [← path?_eq_getElem?, path?_relocate, path?_eq_getElem?, ← List.getElem?_map]

instance (m : SourceMap) (dir : Path) : Decidable (m.KeepsApart dir) :=
  inferInstanceAs (Decidable (∀ s ∈ m.sources, ∀ t ∈ m.sources, _ → _))

theorem ListsOnce.nodup_relocate_iff (h : m.ListsOnce) (dir : Path) :
    ((m.relocate dir).sources.map (·.path)).Nodup ↔ m.KeepsApart dir := by
  rw [map_path_relocate, List.nodup_map_iff_inj_on h.paths, KeepsApart, List.forall_mem_map]
  exact forall₂_congr fun s _ => List.forall_mem_map

/-- Relocation keeps sources listed once if it keeps them apart. -/
theorem ListsOnce.relocate (h : m.ListsOnce) {dir : Path} (hapart : m.KeepsApart dir) :
    (m.relocate dir).ListsOnce := by
  refine ⟨(h.nodup_relocate_iff dir).2 hapart, ?_⟩
  have hall : ∀ path ∈ (m.relocate dir).sources.map (·.path),
      Source.relativePath m.root path = path := by
    rw [map_path_relocate, List.map_map]
    exact List.forall_mem_map.2 fun s hs => Source.relativePath_relocated (h.relative s hs)
  exact List.forall_mem_map.1 hall

/-- For a plain root directory, sources fall together exactly if they mean the same file, seen from
the directory that they were relative to. -/
theorem ListsOnce.keepsApart_iff (h : m.ListsOnce) (hroot : m.root.IsPlain) (dir : Path) :
    m.KeepsApart dir ↔ ∀ s ∈ m.sources, ∀ t ∈ m.sources,
      Text.contains s.path "://" = false → Text.contains t.path "://" = false →
        Source.seenFrom dir s.path = Source.seenFrom dir t.path → s.path = t.path := by
  have hrelative : ∀ s ∈ m.sources, Text.contains s.path "://" = false →
      (Path.mk s.path).isAbsolute = false := fun s hs hcontains =>
    Source.isAbsolute_of_relativePath_eq hroot hcontains (h.relative s hs)
  have hplain : m.root.isAbsolute → m.root.IsPlain := fun _ => hroot
  refine forall₂_congr fun s hs => forall₂_congr fun t ht => ?_
  cases hsource : Text.contains s.path "://" with
  | false =>
    have hsrel := hrelative s hs hsource
    cases htarget : Text.contains t.path "://" with
    | false =>
      have hmeans : Source.relocated m.root dir s.path = Source.relocated m.root dir t.path ↔ _ :=
        Source.relocated_eq_relocated_iff hplain hsource hsrel htarget (hrelative t ht htarget)
      simp [hmeans]
    | true =>
      have hmoved : Text.contains (Source.relocated m.root dir s.path) "://" = false :=
        Source.contains_relocated hplain hsource hsrel
      have hne : Source.relocated m.root dir s.path ≠ Source.relocated m.root dir t.path := by
        rw [Source.relocated_of_contains htarget]
        exact fun heq => Bool.false_ne_true (hmoved.symm.trans (heq ▸ htarget))
      simp [hne]
  | true =>
    cases htarget : Text.contains t.path "://" with
    | false =>
      have hmoved : Text.contains (Source.relocated m.root dir t.path) "://" = false :=
        Source.contains_relocated hplain htarget (hrelative t ht htarget)
      have hne : Source.relocated m.root dir s.path ≠ Source.relocated m.root dir t.path := by
        rw [Source.relocated_of_contains hsource]
        exact fun heq => Bool.false_ne_true (hmoved.symm.trans (heq ▸ hsource))
      simp [hne]
    | true => simp [Source.relocated_of_contains hsource, Source.relocated_of_contains htarget]

/-! ## What the operations make -/

/-- What can be made of maps by the operations on them, with relocations that keep sources apart. -/
inductive Handled : SourceMap → Prop
  | empty (root : Path) : Handled (.empty root)
  | ofJson {root : Path} {text : String} {m : SourceMap} (h : ofJson root text = .ok m) : Handled m
  | addSource {m : SourceMap} (source : String) (h : Handled m) : Handled (m.addSource source).2
  | setContent {m m' : SourceMap} {k : Nat} {content : String} (h : Handled m)
    (hset : m.setContent k content = .ok m') : Handled m'
  | addMapping {m : SourceMap} (line column : Nat) (location : Option Location) (h : Handled m) :
    Handled (m.addMapping line column location)
  | append {m other : SourceMap} (offset : Nat) (h : Handled m) (hother : Handled other) :
    Handled (m.append other offset).1
  | compose {upper lower m : SourceMap} (hupper : Handled upper) (hlower : Handled lower)
    (h : upper.compose lower = .ok m) : Handled m
  | relocate {m : SourceMap} {dir : Path} (h : Handled m) (hapart : m.KeepsApart dir) :
    Handled (m.relocate dir)

theorem tables_addMappings (r : Reindexing) (offset : Nat) (m : SourceMap) (ss : List Mapping) :
    (m.addMappings r offset ss).1.root = m.root ∧
      (m.addMappings r offset ss).1.sources = m.sources := by
  induction ss generalizing m with
  | nil => exact ⟨rfl, rfl⟩
  | cons s ss ih =>
    rw [addMappings]
    split
    · exact ⟨rfl, rfl⟩
    · exact ih _

theorem listsOnce_of_ofFields {root : Path} {f : Fields} (h : ofFields root f = .ok m) :
    m.ListsOnce := by
  obtain ⟨ss, -, -, rfl⟩ := ofFields_eq_ok_iff.1 h
  have htable : (f.table root).ListsOnce := by
    have hbare : ({ root, file := f.file } : SourceMap).ListsOnce := ⟨List.nodup_nil, nofun⟩
    exact (hbare.addSources f.sourceList).mergeNames f.names
  rw [addAll_eq]
  exact htable.of_sources_eq rfl rfl

theorem Handled.listsOnce (h : m.Handled) : m.ListsOnce := by
  induction h with
  | empty root => exact .empty root
  | ofJson h =>
    obtain ⟨f, -, hf⟩ := ofJson_eq_ok_iff.1 h
    exact listsOnce_of_ofFields hf
  | addSource source _ ih => exact ih.addSource source
  | setContent _ hset ih =>
    obtain ⟨sources, hpaths, rfl⟩ := exists_of_setContent hset
    exact ih.of_map_path_eq hpaths
  | addMapping line column location _ ih => exact ih.of_sources_eq rfl rfl
  | @append m other offset _ _ ih _ =>
    obtain ⟨hroot, hsources⟩ :=
      tables_addMappings (m.mergeTables other).1 offset (m.mergeTables other).2 other.mappings
    exact (ih.mergeTables other).of_sources_eq hroot hsources
  | @compose upper lower m _ _ h ih _ =>
    obtain ⟨lines, -, hm⟩ := exists_of_bind_eq_ok h
    cases hm
    exact (ih.mergeTables lower).of_sources_eq rfl rfl
  | relocate _ hapart ih => exact ih.relocate hapart

/-! ## The table of a map -/

/-- What the table of a map is for: its file lists a content for each source, a source is at one
index only and is found there, and contents are kept when the map is written and read. -/
structure IsTabled (m : SourceMap) : Prop where
  contents : m.fields.contents.length = m.fields.sources.length
  distinct : (m.sources.map (·.path)).Nodup
  index : ∀ k s, m.source k = .ok s → m.sourceIndex? s.path = some k
  kept : ∀ m', SourceMap.ofJson m.root m.toJson = .ok m' → m'.sources = m.sources
  isRead : m.IsIndexed → (∀ s ∈ m.mappings, s.segment.IsBounded) →
    ∃ m', SourceMap.ofJson m.root m.toJson = .ok m'

theorem ListsOnce.toIsTabled (h : m.ListsOnce) : m.IsTabled where
  contents := by simp [fields]
  distinct := h.paths
  index k s hs := by
    refine h.sourceIndex?_eq ?_
    unfold source at hs
    cases hk : m.sources[k]? with
    | none =>
      rw [hk] at hs
      cases hs
    | some t =>
      rw [hk] at hs
      exact congrArg some (Except.ok.inj hs)
  kept m' hread := by
    rw [ofJson_toJson] at hread
    exact h.sources_of_ofFields hread
  isRead hindexed hbounded := ⟨_, ofJson_toJson_eq hindexed hbounded m.root⟩

/-- The table of a map that was made by the operations on maps is in order, and stays so under a
relocation exactly if no two sources fall together. From a plain root directory, these are the ones
that mean the same file, seen from the directory that they were relative to. -/
theorem Handled.isTabled (h : m.Handled) :
    m.IsTabled ∧ ∀ dir : Path, ((m.relocate dir).IsTabled ↔ m.KeepsApart dir) ∧
      (m.root.IsPlain → (m.KeepsApart dir ↔ ∀ s ∈ m.sources, ∀ t ∈ m.sources,
        Text.contains s.path "://" = false → Text.contains t.path "://" = false →
          Source.seenFrom dir s.path = Source.seenFrom dir t.path → s.path = t.path)) := by
  have hlists := h.listsOnce
  refine ⟨hlists.toIsTabled, fun dir => ⟨⟨fun htabled => ?_, fun hapart => ?_⟩, fun hroot => ?_⟩⟩
  · exact (hlists.nodup_relocate_iff dir).1 htabled.distinct
  · exact (hlists.relocate hapart).toIsTabled
  · exact hlists.keepsApart_iff hroot dir

/-- A map of two sources that are written relative to the directory of the map, where the content of
the first one is known. -/
def authored (first second : String) : SourceMap :=
  let m := (((SourceMap.empty ⟨"/app"⟩).addSource first).2.addSource second).2
  { m with sources := m.sources.set 0 ⟨first, "1"⟩ }

theorem handled_authored {first second : String}
    (h : (((SourceMap.empty ⟨"/app"⟩).addSource first).2.addSource second).2.sources[0]? =
      some ⟨first, ""⟩) : (authored first second).Handled := by
  have hadded := (Handled.empty ⟨"/app"⟩).addSource first |>.addSource second
  have hset : (((SourceMap.empty ⟨"/app"⟩).addSource first).2.addSource second).2.setContent 0 "1" =
      .ok (authored first second) := by
    rw [setContent, source, h]
    rfl
  exact .setContent hadded hset

/-- Two files next to each other stay apart. -/
theorem isTabled_authored :
    ((authored "a.ts" "../b.ts").relocate ⟨"/app/src"⟩).Handled ∧
      ((authored "a.ts" "../b.ts").relocate ⟨"/app/src"⟩).sources =
        [⟨"src/a.ts", "1"⟩, ⟨"b.ts", ""⟩] ∧
      ((authored "a.ts" "../b.ts").relocate ⟨"/app/src"⟩).IsTabled := by
  have hhandled : ((authored "a.ts" "../b.ts").relocate ⟨"/app/src"⟩).Handled :=
    .relocate (handled_authored (by decide +kernel)) (by decide +kernel)
  exact ⟨hhandled, by decide +kernel, hhandled.isTabled.1⟩

/-- Two spellings of one file fall together: its second index is not found, and its content is lost
when the map is written and read. -/
theorem not_isTabled_spelled :
    (authored "a.ts" "./a.ts").Handled ∧
      ((authored "a.ts" "./a.ts").relocate ⟨"/app/src"⟩).sources =
        [⟨"src/a.ts", "1"⟩, ⟨"src/a.ts", ""⟩] ∧
      ((authored "a.ts" "./a.ts").relocate ⟨"/app/src"⟩).sourceIndex? "src/a.ts" = some 0 ∧
      (∃ m', SourceMap.ofJson ⟨"/app"⟩
          ((authored "a.ts" "./a.ts").relocate ⟨"/app/src"⟩).toJson = .ok m' ∧
        m'.sources = [⟨"src/a.ts", ""⟩]) ∧
      ¬ ((authored "a.ts" "./a.ts").relocate ⟨"/app/src"⟩).IsTabled := by
  have hsources : ((authored "a.ts" "./a.ts").relocate ⟨"/app/src"⟩).sources =
      [⟨"src/a.ts", "1"⟩, ⟨"src/a.ts", ""⟩] := by decide +kernel
  have hmappings : ((authored "a.ts" "./a.ts").relocate ⟨"/app/src"⟩).mappings = [] := by
    decide +kernel
  have hread := ofJson_toJson_eq (m := (authored "a.ts" "./a.ts").relocate ⟨"/app/src"⟩)
    (by rw [IsIndexed, hmappings]; exact nofun) (by rw [hmappings]; exact nofun) ⟨"/app"⟩
  refine ⟨handled_authored (by decide +kernel), hsources, by decide +kernel, ⟨_, hread, ?_⟩, ?_⟩
  · rw [addAll_eq]
    decide +kernel
  · intro htabled
    have hdistinct := htabled.distinct
    rw [hsources] at hdistinct
    exact absurd hdistinct (by decide)

end SourceMap

end ModuleWorkers
