import ModuleWorkers.Proofs.SourceMap.Sources

/-!
# Sources that are listed once

The sources that a map adds to its table are all different, and written as they are seen from its
root directory (`SourceMap.ListsOnce`). So each source is found at its own index
(`ListsOnce.sourceIndex?_eq`), and a table that is listed again is the same table
(`ListsOnce.addSources_fields`).
-/

namespace ModuleWorkers

/-- What is seen from the root directory stays as it is. -/
theorem Source.relativePath_relativePath (root : Path) (source : String) :
    relativePath root (relativePath root source) = relativePath root source := by
  cases hroot : root.isAbsolute with
  | false => simp only [relativePath_of_root hroot]
  | true =>
    by_cases hsame : relativePath root source = source
    · rw [hsame, hsame]
    · have h := hsame
      unfold relativePath at h
      split at h
      · exact absurd rfl h
      · rename_i hcond
        have habsolute : (Path.mk source).isAbsolute := by
          simpa using (Bool.or_eq_false_iff.1 (Bool.eq_false_iff.2 hcond)).2
        split at h
        · rename_i q hq
          have htext : relativePath root source = q.text := by
            rw [relativePath, if_neg hcond, hq]
          have hrelative := Path.isAbsolute_of_relativeTo? habsolute hroot hq
          rw [htext]
          exact relativePath_of_isAbsolute_eq_false root hrelative
        · exact absurd rfl h

namespace SourceMap

variable {m : SourceMap}

/-- Whether all sources are different, and written as they are seen from the root directory. -/
structure ListsOnce (m : SourceMap) : Prop where
  paths : (m.sources.map (·.path)).Nodup
  relative : ∀ s ∈ m.sources, Source.relativePath m.root s.path = s.path

namespace ListsOnce

theorem empty (root : Path) : (SourceMap.empty root).ListsOnce := ⟨List.nodup_nil, nofun⟩

/-- A map with the same table. -/
theorem of_sources_eq (h : m.ListsOnce) {m' : SourceMap} (hroot : m'.root = m.root)
    (hsources : m'.sources = m.sources) : m'.ListsOnce :=
  ⟨hsources ▸ h.paths, hroot ▸ hsources ▸ h.relative⟩

/-- Contents do not matter. -/
theorem of_map_path_eq (h : m.ListsOnce) {sources : List Source}
    (hpaths : sources.map (·.path) = m.sources.map (·.path)) :
    ListsOnce { m with sources } := by
  refine ⟨hpaths ▸ h.paths, ?_⟩
  have hall : ∀ path ∈ m.sources.map (·.path), Source.relativePath m.root path = path :=
    List.forall_mem_map.2 h.relative
  rw [← hpaths] at hall
  exact List.forall_mem_map.1 hall

/-- Each source is found at its own index. -/
theorem sourceIndex?_eq (h : m.ListsOnce) {k : Nat} {s : Source} (hk : m.sources[k]? = some s) :
    m.sourceIndex? s.path = some k := by
  obtain ⟨hlt, rfl⟩ := List.getElem?_eq_some_iff.1 hk
  have hk' : k < (m.sources.map (·.path)).length := by rwa [List.length_map]
  rw [sourceIndex?_eq_findIdx?, h.relative _ (List.getElem_mem hlt),
    List.findIdx?_eq_some_iff_getElem]
  refine ⟨hk', by simp, fun j hj => ?_⟩
  have hne := List.pairwise_iff_getElem.1 h.paths j k (hj.trans hk') hk' hj
  simpa using hne

/-! ## Tables that grow -/

theorem addSource (h : m.ListsOnce) (source : String) : (m.addSource source).2.ListsOnce := by
  unfold SourceMap.addSource
  split
  · exact h
  rename_i hnone
  rw [sourceIndex?_eq_findIdx?, List.findIdx?_eq_none_iff] at hnone
  constructor
  · rw [List.map_append, List.nodup_append]
    refine ⟨h.paths, by simp, fun path hpath path' hpath' heq => ?_⟩
    have hnew : path' = Source.relativePath m.root source := by simpa using hpath'
    exact absurd (hnone path hpath) (by simp [heq, hnew])
  · intro s hs
    rcases List.mem_append.1 hs with hs | hs
    · exact h.relative s hs
    · rw [List.mem_singleton.1 hs]
      exact Source.relativePath_relativePath m.root source

theorem withContent (h : m.ListsOnce) (k : Nat) (content : String) :
    (m.withContent k content).ListsOnce :=
  h.of_map_path_eq (m.map_path_withContent k content)

theorem addKnownSource (h : m.ListsOnce) (s : String × Option String) :
    (m.addKnownSource s).ListsOnce := by
  unfold SourceMap.addKnownSource
  split
  · exact (h.addSource s.1).withContent _ _
  · exact h.addSource s.1

theorem addSources (h : m.ListsOnce) (ss : List (String × Option String)) :
    (m.addSources ss).2.ListsOnce := by
  induction ss generalizing m with
  | nil => exact h
  | cons s ss ih =>
    rw [addSources_cons]
    exact ih (h.addKnownSource s)

theorem mergeNames (h : m.ListsOnce) (ns : List String) : (m.mergeNames ns).2.ListsOnce :=
  h.of_sources_eq (extends_mergeNames m ns).root (sources_mergeNames m ns)

theorem mergeTables (h : m.ListsOnce) (other : SourceMap) : (m.mergeTables other).2.ListsOnce := by
  refine ListsOnce.mergeNames ?_ other.names
  rw [mergeSources_eq_addSources]
  exact h.addSources _

end ListsOnce

/-- A content that is set leaves all paths. -/
theorem exists_of_setContent {k : Nat} {content : String} {m' : SourceMap}
    (h : m.setContent k content = .ok m') :
    ∃ sources : List Source, sources.map (·.path) = m.sources.map (·.path) ∧
      m' = { m with sources } := by
  unfold setContent source at h
  cases hs : m.sources[k]? with
  | none =>
    rw [hs] at h
    cases h
  | some s =>
    rw [hs] at h
    cases h
    obtain ⟨hk, rfl⟩ := List.getElem?_eq_some_iff.1 hs
    refine ⟨_, ?_, rfl⟩
    have hk' : k < (m.sources.map (·.path)).length := by rwa [List.length_map]
    have hpath : m.sources[k].path = (m.sources.map (·.path))[k] := by simp
    rw [List.map_set, hpath, List.set_getElem_self]

/-! ## Tables that are listed again -/

/-- A source that is not in the table comes last. -/
theorem addKnownSource_of_not_mem {s : Source}
    (hrelative : Source.relativePath m.root s.path = s.path)
    (hs : s.path ∉ m.sources.map (·.path)) :
    (m.addSource s.path).1 = m.sources.length ∧
      m.addKnownSource (s.path, some s.content) = { m with sources := m.sources ++ [s] } := by
  have hnone : m.sourceIndex? s.path = none := by
    rw [sourceIndex?_eq_findIdx?, List.findIdx?_eq_none_iff, hrelative]
    exact fun path hpath => beq_eq_false_iff_ne.2 fun heq => hs (heq ▸ hpath)
  have hadd : m.addSource s.path =
      (m.sources.length, { m with sources := m.sources ++ [⟨s.path, ""⟩] }) := by
    rw [addSource, hnone, hrelative]
  refine ⟨congrArg Prod.fst hadd, ?_⟩
  have hlast : (m.sources ++ [(⟨s.path, ""⟩ : Source)]).modify m.sources.length
      (fun t => { t with content := s.content }) = m.sources ++ [s] := by
    refine List.ext_getElem? fun k => ?_
    rw [List.getElem?_modify]
    rcases Nat.lt_trichotomy k m.sources.length with hlt | rfl | hlt
    · simp [List.getElem?_append_left, hlt, Nat.ne_of_gt hlt]
    · simp
    · rw [List.getElem?_eq_none (by simp; omega), List.getElem?_eq_none (by simp; omega)]
      rfl
  unfold addKnownSource
  simp only [hadd, withContent, hlast]

/-- Sources that are listed once get indexes in their order. -/
theorem addSources_of_nodup {ss : List Source}
    (hrelative : ∀ s ∈ ss, Source.relativePath m.root s.path = s.path)
    (hnodup : ((m.sources ++ ss).map (·.path)).Nodup) :
    m.addSources (ss.map fun s => (s.path, some s.content)) =
      (List.range' m.sources.length ss.length, { m with sources := m.sources ++ ss }) := by
  induction ss generalizing m with
  | nil => simp [addSources]
  | cons s ss ih =>
    obtain ⟨hs, hss⟩ := List.forall_mem_cons.1 hrelative
    have hmem : s.path ∉ m.sources.map (·.path) := by
      rw [List.map_append, List.nodup_append] at hnodup
      exact fun h => hnodup.2.2 _ h _ List.mem_cons_self rfl
    obtain ⟨hindex, hadd⟩ := addKnownSource_of_not_mem hs hmem
    have hnext := ih (m := { m with sources := m.sources ++ [s] }) hss (by simpa using hnodup)
    rw [List.map_cons, addSources_cons, hindex, hadd, hnext]
    simp [List.range'_succ]

/-- The sources that are read are those that were written, each one at its own index. -/
theorem ListsOnce.addSources_fields (h : m.ListsOnce) :
    ({ root := m.root, file := m.file } : SourceMap).addSources m.fields.sourceList =
      (List.range m.sources.length,
        { root := m.root, file := m.file, sources := m.sources }) := by
  rw [sourceList_fields, List.range_eq_range']
  exact addSources_of_nodup (m := { root := m.root, file := m.file }) h.relative h.paths

/-- The table that is read is the one that was written. -/
theorem ListsOnce.sources_of_ofFields (h : m.ListsOnce) {m' : SourceMap}
    (hread : ofFields m.root m.fields = .ok m') : m'.sources = m.sources := by
  obtain ⟨ss, -, -, rfl⟩ := ofFields_eq_ok_iff.1 hread
  rw [addAll_eq]
  change (m.fields.table m.root).sources = m.sources
  rw [Fields.table, sources_mergeNames]
  exact congrArg (fun r => r.2.sources) h.addSources_fields

end SourceMap

end ModuleWorkers
