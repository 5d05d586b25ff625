import ModuleWorkers.Proofs.SourceMap.Composition
import ModuleWorkers.Proofs.SourceMap.Listed

/-!
# What the operations on maps keep

`SourceMap.WF` holds of an empty map and of each map that was read (`SourceMap.wf_of_ofJson`), and
what adds to a map, merges maps or composes them keeps it: sources and names are listed once, sources
as they are seen from the root directory, segments are in order with indexes in the tables and numbers
of 32 bits, and no lines without segments come last.
-/

namespace ModuleWorkers

/-! ## Numbers that were read -/

/-- Whether the numbers of a place in a source fit 32 bits. -/
structure Location.Fits (o : Location) : Prop where
  line : o.line ≤ Mappings.maxNumber
  column : o.column ≤ Mappings.maxNumber

/-- Whether the numbers of a segment fit 32 bits, its indexes left out. -/
structure Mapping.Fits (s : Mapping) : Prop where
  column : s.column ≤ Mappings.maxNumber
  location : ∀ o ∈ s.location, o.Fits

theorem Mappings.fits_of_decodeFrom {line column : Nat} {p : Previous} {cs : List Char}
    {ss : List Mapping} (h : decodeFrom line column p cs = .ok ss) : ∀ s ∈ ss, s.Fits := by
  intro s hs
  have hbounded := bounded_of_decodeFrom h s hs
  refine ⟨hbounded.column, fun o ho => ?_⟩
  exact ⟨(hbounded.location o ho).line, (hbounded.location o ho).column⟩

namespace SourceMap

variable {m other : SourceMap}

/-! ## The invariant -/

/-- What all operations on maps keep. -/
structure WF (m : SourceMap) : Prop where
  paths : (m.sources.map (·.path)).Nodup
  /-- Sources are as they are seen from the root directory. -/
  relative : ∀ s ∈ m.sources, Source.relativePath m.root s.path = s.path
  names : m.names.Nodup
  sorted : m.IsSorted
  indexed : m.IsIndexed
  fits : ∀ s ∈ m.mappings, s.Fits
  ends : m.EndsInSegment

theorem WF.empty (root : Path) : (SourceMap.empty root).WF where
  paths := List.nodup_nil
  relative := nofun
  names := List.nodup_nil
  sorted := isSorted_of_lines_eq_empty rfl
  indexed := nofun
  fits := nofun
  ends := nofun

theorem WF.listsOnce (h : m.WF) : m.ListsOnce := ⟨h.paths, h.relative⟩

/-- Tables may grow as long as what they list stays apart. -/
theorem WF.of_extends (h : m.WF) {m' : SourceMap} (hm : m'.Extends m) (hsources : m'.ListsOnce)
    (hnames : m'.names.Nodup) : m'.WF where
  paths := hsources.paths
  relative := hsources.relative
  names := hnames
  sorted k := by
    rw [lineAt, hm.lines]
    exact h.sorted k
  indexed s hs o ho := by
    rw [hm.mappings_eq] at hs
    obtain ⟨x, hx⟩ := (h.indexed s hs o ho).exists_origin?
    exact locates_of_origin? (hm.origin?_eq hx)
  fits s hs := h.fits s (hm.mappings_eq ▸ hs)
  ends := by
    unfold EndsInSegment lineAt
    rw [hm.lines]
    exact h.ends

theorem WF.setFile (h : m.WF) (file : Option String) : WF { m with file } :=
  ⟨h.paths, h.relative, h.names, h.sorted, h.indexed, h.fits, h.ends⟩

/-! ## Tables -/

theorem WF.addSource (h : m.WF) (source : String) : (m.addSource source).2.WF := by
  refine h.of_extends (extends_addSource m source) (h.listsOnce.addSource source) ?_
  unfold SourceMap.addSource
  split <;> exact h.names

/-- Contents do not matter. -/
theorem WF.of_map_path_eq (h : m.WF) {sources : List Source}
    (hpaths : sources.map (·.path) = m.sources.map (·.path)) : WF { m with sources } :=
  h.of_extends ⟨rfl, rfl, rfl, hpaths ▸ List.prefix_refl _, List.prefix_refl _⟩
    (h.listsOnce.of_map_path_eq hpaths) h.names

theorem WF.withContent (h : m.WF) (k : Nat) (content : String) : (m.withContent k content).WF :=
  h.of_map_path_eq (m.map_path_withContent k content)

theorem WF.setContent (h : m.WF) {k : Nat} {content : String} {m' : SourceMap}
    (hm : m.setContent k content = .ok m') : m'.WF := by
  obtain ⟨sources, hpaths, rfl⟩ := exists_of_setContent hm
  exact h.of_map_path_eq hpaths

theorem WF.addKnownSource (h : m.WF) (s : String × Option String) : (m.addKnownSource s).WF := by
  unfold SourceMap.addKnownSource
  split
  · exact (h.addSource s.1).withContent _ _
  · exact h.addSource s.1

theorem WF.addSources (h : m.WF) (ss : List (String × Option String)) :
    (m.addSources ss).2.WF := by
  induction ss generalizing m with
  | nil => exact h
  | cons s ss ih =>
    rw [addSources_cons]
    exact ih (h.addKnownSource s)

theorem WF.addName (h : m.WF) (name : String) : (m.addName name).2.WF := by
  refine h.of_extends (extends_addName m name) (h.listsOnce.mergeNames [name]) ?_
  unfold SourceMap.addName
  split
  · exact h.names
  · rename_i hnone
    rw [List.findIdx?_eq_none_iff] at hnone
    refine List.nodup_append.2 ⟨h.names, by simp, fun n hn n' hn' heq => ?_⟩
    exact absurd (hnone n hn) (by simp [heq, List.mem_singleton.1 hn'])

theorem WF.mergeNames (h : m.WF) (ns : List String) : (m.mergeNames ns).2.WF := by
  induction ns generalizing m with
  | nil => exact h
  | cons n ns ih => exact ih (h.addName n)

theorem WF.mergeTables (h : m.WF) (other : SourceMap) : (m.mergeTables other).2.WF := by
  refine WF.mergeNames ?_ other.names
  rw [mergeSources_eq_addSources]
  exact h.addSources _

/-! ## Segments -/

/-- A location that may be added: its indexes are in the tables, and its numbers fit. -/
structure Admits (m : SourceMap) (o : Location) : Prop where
  locates : m.Locates o
  fits : o.Fits

theorem EndsInSegment.addMapping (h : m.EndsInSegment) (hsorted : m.IsSorted) (line column : Nat)
    (location : Option Location) : (m.addMapping line column location).EndsInSegment := by
  intro k hk
  rw [size_addMapping] at hk
  rw [lineAt_addMapping]
  split
  · have hmem := ((hsorted k).mem_add (s := ⟨column, location⟩)).2 (.inl rfl)
    intro hempty
    rw [hempty] at hmem
    exact Array.not_mem_empty _ hmem
  · exact h k (by omega)

theorem WF.addMapping (h : m.WF) (line : Nat) {column : Nat} {location : Option Location}
    (hcolumn : column ≤ Mappings.maxNumber) (hlocation : ∀ o ∈ location, m.Admits o) :
    (m.addMapping line column location).WF where
  paths := h.paths
  relative := h.relative
  names := h.names
  sorted := h.sorted.addMapping line column location
  indexed s hs o ho := by
    rcases h.sorted.mem_mappings_addMapping (t := ⟨line, column, location⟩).1 hs with rfl | hs
    · exact (hlocation o ho).locates
    · exact h.indexed s hs o ho
  fits s hs := by
    rcases h.sorted.mem_mappings_addMapping (t := ⟨line, column, location⟩).1 hs with rfl | hs
    · exact ⟨hcolumn, fun o ho => (hlocation o ho).fits⟩
    · exact h.fits s hs
  ends := h.ends.addMapping h.sorted line column location

theorem Reindexing.line_column_of_apply {r : Reindexing} {o o' : Location}
    (h : r.apply o = .ok o') : o'.line = o.line ∧ o'.column = o.column := by
  unfold apply at h
  split at h
  · cases h
  · cases h
    exact ⟨rfl, rfl⟩
  · split at h
    · cases h
      exact ⟨rfl, rfl⟩
    · cases h

/-- What an index of another map becomes is one of the table that it leads to. -/
theorem Reindexing.Leads.admits {r : Reindexing} (hr : r.Leads other m) {o o' : Location}
    (ho : o.Fits) (h : r.apply o = .ok o') : m.Admits o' := by
  obtain ⟨x, hx⟩ := (hr.locates_of_apply h).exists_origin?
  obtain ⟨o'', happly, horigin⟩ := hr.exists_apply hx
  cases happly.symm.trans h
  obtain ⟨hline, hcolumn⟩ := line_column_of_apply h
  exact ⟨locates_of_origin? horigin, hline ▸ ho.line, hcolumn ▸ ho.column⟩

theorem WF.addMappings {r : Reindexing} (h : m.WF) (hr : r.Leads other m) (offset : Nat)
    {ss : List Mapping} (hss : ∀ s ∈ ss, s.Fits) : (m.addMappings r offset ss).1.WF := by
  induction ss generalizing m with
  | nil => exact h
  | cons s ss ih =>
    obtain ⟨hs, hss⟩ := List.forall_mem_cons.1 hss
    rw [SourceMap.addMappings]
    split
    · exact h
    · rename_i location hlocation
      refine ih (h.addMapping _ hs.column fun o' ho' => ?_) ⟨hr.sources, hr.names⟩ hss
      cases ho : s.location with
      | none =>
        rw [ho] at hlocation
        cases hlocation
        cases ho'
      | some o =>
        rw [ho, Option.mapM_some] at hlocation
        cases happly : r.apply o with
        | error e =>
          rw [happly] at hlocation
          cases hlocation
        | ok moved =>
          rw [happly] at hlocation
          cases hlocation
          cases ho'
          exact hr.admits (hs.location o ho) happly

theorem WF.append (h : m.WF) (hother : other.WF) (offset : Nat) : (m.append other offset).1.WF :=
  (h.mergeTables other).addMappings (leads_mergeTables m other) offset hother.fits

/-! ## Composed maps -/

theorem fits_of_traceLocation {r : Reindexing} (hother : other.WF) {o o' : Location}
    (ho : o.Fits) (h : traceLocation other r (some o) = some o') : o'.Fits := by
  rw [traceLocation, Option.bind_some] at h
  unfold trace at h
  cases hfound : other.closest? o.line o.column with
  | none =>
    rw [hfound] at h
    cases h
    exact ho
  | some found =>
    rw [hfound] at h
    dsimp only at h
    cases hlocation : found.location with
    | none =>
      rw [hlocation] at h
      cases h
    | some below =>
      rw [hlocation] at h
      dsimp only at h
      have hbelow := (hother.fits found (mem_mappings_of_closest? hfound)).location below hlocation
      cases happly : r.apply below with
      | error e =>
        rw [happly] at h
        cases h
        exact ho
      | ok moved =>
        rw [happly] at h
        cases h
        obtain ⟨hline, hcolumn⟩ := Reindexing.line_column_of_apply happly
        exact ⟨hline ▸ hbelow.line, hcolumn ▸ hbelow.column⟩

theorem WF.compose (h : m.WF) (hother : other.WF) {m' : SourceMap}
    (hm : m.compose other = .ok m') : m'.WF := by
  have hsorted := isSorted_compose h.indexed hother.indexed h.sorted hm
  have hindexed := isIndexed_compose h.indexed hother.indexed hm
  cases (compose_eq h.indexed hother.indexed).symm.trans hm
  have htables := h.mergeTables other
  refine ⟨htables.paths, htables.relative, htables.names, hsorted, hindexed, fun t ht => ?_, ?_⟩
  · rw [mappings_mapLocations] at ht
    obtain ⟨s, hs, rfl⟩ := List.mem_map.1 ht
    have hfits := htables.fits s hs
    refine ⟨hfits.column, fun o' ho' => ?_⟩
    cases ho : s.location with
    | none =>
      rw [ho] at ho'
      cases ho'
    | some o =>
      rw [ho] at ho'
      exact fits_of_traceLocation hother (hfits.location o ho) ho'
  · intro k hk
    rw [lineAt_mapLocations]
    have hsize : ((m.mergeTables other).2.mapLocations
        (traceLocation other (m.mergeTables other).1)).lines.size =
          (m.mergeTables other).2.lines.size := Array.size_map
    rw [hsize] at hk
    intro hempty
    exact htables.ends k hk (Array.map_eq_empty_iff.1 hempty)

/-! ## Maps that are read -/

theorem wf_of_ofFields {root : Path} {f : Fields} (h : ofFields root f = .ok m) : m.WF := by
  obtain ⟨ss, hss, hall, rfl⟩ := ofFields_eq_ok_iff.1 h
  have htable : (f.table root).WF := ((WF.empty root).setFile f.file |>.addSources _).mergeNames _
  have hadd := htable.addMappings (f.leads_listed root) 0 (Mappings.fits_of_decodeFrom hss)
  rwa [addMappings_of_forall hall] at hadd

theorem wf_of_ofJson {root : Path} {text : String} (h : ofJson root text = .ok m) : m.WF := by
  obtain ⟨f, -, hf⟩ := ofJson_eq_ok_iff.1 h
  exact wf_of_ofFields hf

end SourceMap

end ModuleWorkers
