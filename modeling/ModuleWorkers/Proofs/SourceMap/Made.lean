import ModuleWorkers.Proofs.SourceMap.Invariant

/-!
# All maps that can be made

`SourceMap.Made` holds of whatever the operations on maps make, with segments that may have any
indexes. The segments of such a map are in order (`Made.isSorted`), and its sources are as they are
seen from its root directory (`Made.isRelative`). `SourceMap.WF` says more of maps whose indexes were
in the tables all along.
-/

namespace ModuleWorkers.SourceMap

variable {m other : SourceMap}

/-- Whether the sources are as they are seen from the root directory. -/
def IsRelative (m : SourceMap) : Prop := ∀ s ∈ m.sources, Source.relativePath m.root s.path = s.path

theorem isRelative_iff : m.IsRelative ↔
    ∀ path ∈ m.sources.map (·.path), Source.relativePath m.root path = path := by
  rw [List.forall_mem_map]
  rfl

/-! ## Tables -/

theorem IsRelative.addSource (h : m.IsRelative) (source : String) :
    (m.addSource source).2.IsRelative := by
  unfold SourceMap.addSource
  split
  · exact h
  · intro s hs
    rcases List.mem_append.1 hs with hs | hs
    · exact h s hs
    · cases List.mem_singleton.1 hs
      exact Source.relativePath_relativePath m.root source

theorem IsRelative.withContent (h : m.IsRelative) (k : Nat) (content : String) :
    (m.withContent k content).IsRelative := by
  rw [isRelative_iff, map_path_withContent]
  exact isRelative_iff.1 h

theorem getElem?_of_source {k : Nat} {s : Source} (h : m.source k = .ok s) :
    m.sources[k]? = some s := by
  unfold source at h
  split at h
  · cases h
    assumption
  · cases h

theorem IsRelative.set (h : m.IsRelative) {k : Nat} {s : Source} (hs : m.sources[k]? = some s)
    (content : String) : IsRelative { m with sources := m.sources.set k { s with content } } := by
  intro t ht
  rcases List.mem_or_eq_of_mem_set ht with ht | rfl
  · exact h t ht
  · exact h s (List.mem_of_getElem? hs)

theorem IsRelative.mergeSources (h : m.IsRelative) (ss : List Source) :
    (m.mergeSources ss).2.IsRelative := by
  induction ss generalizing m with
  | nil => exact h
  | cons s ss ih =>
    refine ih ?_
    split
    · exact h.addSource s.path
    · exact (h.addSource s.path).withContent _ _

theorem IsRelative.mergeTables (h : m.IsRelative) (other : SourceMap) :
    (m.mergeTables other).2.IsRelative := by
  have hroot : (m.mergeTables other).2.root = (m.mergeSources other.sources).2.root :=
    (extends_mergeNames _ other.names).root
  have hsources : (m.mergeTables other).2.sources = (m.mergeSources other.sources).2.sources :=
    sources_mergeNames _ other.names
  unfold IsRelative
  rw [hroot, hsources]
  exact h.mergeSources other.sources

theorem IsRelative.relocate (h : m.IsRelative) (dir : Path) : (m.relocate dir).IsRelative := by
  intro s hs
  obtain ⟨s₀, hs₀, rfl⟩ := List.mem_map.1 hs
  split
  · exact h s₀ hs₀
  · exact Source.relativePath_relativePath m.root _

/-! ## Segments -/

/-- Segments are added up to one with an index that cannot be moved. -/
theorem exists_addAll_eq (r : Reindexing) (offset : Nat) (m : SourceMap) (ss : List Mapping) :
    ∃ ts, (m.addMappings r offset ss).1 = m.addAll ts := by
  induction ss generalizing m with
  | nil => exact ⟨[], rfl⟩
  | cons s ss ih =>
    rw [addMappings]
    split
    · exact ⟨[], rfl⟩
    · rename_i location _
      obtain ⟨ts, hts⟩ := ih (m.addMapping (s.line + offset) s.column location)
      exact ⟨⟨s.line + offset, s.column, location⟩ :: ts, hts⟩

theorem isSorted_of_lines_eq (h : m.IsSorted) (hlines : other.lines = m.lines) :
    other.IsSorted := by
  intro k
  rw [lineAt, hlines]
  exact h k

theorem IsSorted.append (h : m.IsSorted) (other : SourceMap) (offset : Nat) :
    (m.append other offset).1.IsSorted := by
  obtain ⟨ts, hts⟩ := exists_addAll_eq (m.mergeTables other).1 offset (m.mergeTables other).2
    other.mappings
  unfold SourceMap.append
  rw [hts]
  exact isSorted_addAll (isSorted_of_lines_eq h (extends_mergeTables m other).lines) ts

theorem IsRelative.append (h : m.IsRelative) (other : SourceMap) (offset : Nat) :
    (m.append other offset).1.IsRelative := by
  obtain ⟨ts, hts⟩ := exists_addAll_eq (m.mergeTables other).1 offset (m.mergeTables other).2
    other.mappings
  unfold SourceMap.append
  rw [hts, addAll_eq]
  exact h.mergeTables other

/-! ## Composed maps -/

theorem column_of_traceSegment {r : Reindexing} {s t : Segment}
    (h : traceSegment other r s = .ok t) : t.column = s.column := by
  unfold traceSegment at h
  split at h
  · cases h
    rfl
  · obtain ⟨location, -, h⟩ := exists_of_bind_eq_ok h
    cases h
    rfl

theorem forall₂_of_mapM_array {α β ε : Type} {f : α → Except ε β} {xs : Array α} {ys : Array β}
    (h : xs.mapM f = .ok ys) : List.Forall₂ (fun x y => f x = .ok y) xs.toList ys.toList := by
  rw [Array.mapM_eq_mapM_toList] at h
  obtain ⟨zs, hzs, h⟩ := exists_of_bind_eq_ok h
  cases h
  exact forall₂_of_mapM hzs

theorem isSorted_of_traceSegments {r : Reindexing} {l : Line} {ss : Array Segment}
    (hl : l.IsSorted) (h : l.segments.mapM (traceSegment other r) = .ok ss) :
    Line.IsSorted ⟨ss⟩ := by
  have hcolumns : l.segments.toList.map (·.column) = ss.toList.map (·.column) := by
    rw [← List.forall₂_eq_eq_eq, List.forall₂_map_left_iff, List.forall₂_map_right_iff]
    exact (forall₂_of_mapM_array h).imp fun s t hst => (column_of_traceSegment hst).symm
  have hl' : (l.segments.toList.map (·.column)).Pairwise (· ≤ ·) := List.pairwise_map.2 hl
  rw [hcolumns] at hl'
  exact List.pairwise_map.1 hl'

/-- Segments stay where they start, and only the tables of the upper map grow. -/
theorem exists_lines_of_compose {upper lower : SourceMap} (h : upper.compose lower = .ok m) :
    ∃ lines, m = { (upper.mergeTables lower).2 with lines } ∧
      (upper.IsSorted → ∀ l ∈ lines, l.IsSorted) := by
  obtain ⟨lines, hlines, h⟩ := exists_of_bind_eq_ok h
  cases h
  refine ⟨lines, rfl, fun hsorted l hl => ?_⟩
  obtain ⟨k, hk⟩ := List.getElem?_of_mem (Array.mem_toList_iff.2 hl)
  obtain ⟨l₀, hl₀, htraced⟩ := exists_getElem?_left (forall₂_of_mapM_array hlines) hk
  obtain ⟨ss, hss, htraced⟩ := exists_of_bind_eq_ok htraced
  cases htraced
  refine isSorted_of_traceSegments ?_ hss
  have hline : upper.lineAt k = l₀ := by
    rw [Array.getElem?_toList] at hl₀
    rw [lineAt, ← (extends_mergeTables upper lower).lines]
    exact congrArg (·.getD ⟨#[]⟩) hl₀
  exact hline ▸ hsorted k

/-! ## What can be made -/

/-- What can be made of empty maps and maps that were read. -/
inductive Made : SourceMap → Prop
  | empty (root : Path) : Made (.empty root)
  | ofJson {root : Path} {text : String} {m : SourceMap} (h : ofJson root text = .ok m) : Made m
  | addSource {m : SourceMap} (source : String) (h : Made m) : Made (m.addSource source).2
  | setFile {m : SourceMap} (file : String) (h : Made m) : Made { m with file := some file }
  | setContent {m m' : SourceMap} {k : Nat} {content : String} (h : Made m)
    (hset : m.setContent k content = .ok m') : Made m'
  | addMapping {m : SourceMap} (line column : Nat) (location : Option Location) (h : Made m) :
    Made (m.addMapping line column location)
  | append {m other : SourceMap} (offset : Nat) (h : Made m) (hother : Made other) :
    Made (m.append other offset).1
  | compose {upper lower m : SourceMap} (hupper : Made upper) (hlower : Made lower)
    (h : upper.compose lower = .ok m) : Made m
  | relocate {m : SourceMap} (dir : Path) (h : Made m) : Made (m.relocate dir)

theorem Made.addAll (h : m.Made) (ss : List Mapping) : (m.addAll ss).Made := by
  induction ss generalizing m with
  | nil => exact h
  | cons s ss ih => exact ih (h.addMapping s.line s.column s.location)

theorem Made.isSorted (h : m.Made) : m.IsSorted := by
  induction h with
  | empty root => exact isSorted_of_lines_eq_empty rfl
  | ofJson h => exact (wf_of_ofJson h).sorted
  | addSource source _ ih => exact isSorted_of_lines_eq ih (extends_addSource _ source).lines
  | setFile file _ ih => exact ih
  | setContent _ hset ih =>
    obtain ⟨s, -, hset⟩ := exists_of_bind_eq_ok hset
    cases hset
    exact ih
  | addMapping line column location _ ih => exact ih.addMapping line column location
  | append offset _ _ ih _ => exact ih.append _ offset
  | compose _ _ h ih _ =>
    obtain ⟨lines, rfl, hlines⟩ := exists_lines_of_compose h
    intro k
    rw [lineAt]
    cases hk : lines[k]? with
    | none => exact Line.IsSorted.empty
    | some l => exact hlines ih l (Array.mem_of_getElem? hk)
  | relocate dir _ ih => exact ih

theorem Made.isRelative (h : m.Made) : m.IsRelative := by
  induction h with
  | empty root => exact nofun
  | ofJson h => exact (wf_of_ofJson h).relative
  | addSource source _ ih => exact ih.addSource source
  | setFile file _ ih => exact ih
  | @setContent m _ k content _ hset ih =>
    obtain ⟨s, hs, hset⟩ := exists_of_bind_eq_ok hset
    cases hset
    exact ih.set (getElem?_of_source hs) content
  | addMapping line column location _ ih => exact ih
  | append offset _ _ ih _ => exact ih.append _ offset
  | compose _ _ h ih _ =>
    obtain ⟨lines, rfl, -⟩ := exists_lines_of_compose h
    exact ih.mergeTables _
  | relocate dir _ ih => exact ih.relocate dir

end ModuleWorkers.SourceMap
