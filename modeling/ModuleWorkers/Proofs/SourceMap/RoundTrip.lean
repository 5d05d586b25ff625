import ModuleWorkers.Proofs.Encoding.DataUrl
import ModuleWorkers.Proofs.SourceMap.Invariant

/-!
# Maps that read back as they were

A map that was made by the operations on maps is read from its JSON, and from its address, as
exactly the map it was: the tables list everything once, so reading them finds each entry at its own
index (`SourceMap.WF.table_fields`), and the segments that are read make the same lines
(`SourceMap.Reachable.reads_back`).
-/

namespace ModuleWorkers.SourceMap

/-- What can be made of empty maps and maps that were read, with locations in the tables and numbers
of 32 bits. -/
inductive Reachable : SourceMap → Prop
  | empty (root : Path) : Reachable (.empty root)
  | ofJson {root : Path} {text : String} {m : SourceMap} (h : ofJson root text = .ok m) :
    Reachable m
  | addSource {m : SourceMap} (source : String) (h : Reachable m) : Reachable (m.addSource source).2
  | setFile {m : SourceMap} (file : String) (h : Reachable m) :
    Reachable { m with file := some file }
  | setContent {m m' : SourceMap} {k : Nat} {content : String} (h : Reachable m)
    (hset : m.setContent k content = .ok m') : Reachable m'
  | addMapping {m : SourceMap} (line : Nat) {column : Nat} {location : Option Location}
    (h : Reachable m) (hcolumn : column ≤ Mappings.maxNumber)
    (hlocation : ∀ o ∈ location, m.Admits o) : Reachable (m.addMapping line column location)
  | append {m other : SourceMap} (offset : Nat) (h : Reachable m) (hother : Reachable other) :
    Reachable (m.append other offset).1
  | compose {upper lower m : SourceMap} (hupper : Reachable upper) (hlower : Reachable lower)
    (h : upper.compose lower = .ok m) : Reachable m

theorem Reachable.wf {m : SourceMap} (h : m.Reachable) : m.WF := by
  induction h with
  | empty root => exact .empty root
  | ofJson h => exact wf_of_ofJson h
  | addSource source _ ih => exact ih.addSource source
  | setFile file _ ih => exact ih.setFile (some file)
  | setContent _ hset ih => exact ih.setContent hset
  | addMapping line _ hcolumn hlocation ih => exact ih.addMapping line hcolumn hlocation
  | append offset _ _ ih ihother => exact ih.append ihother offset
  | compose _ _ h ihupper ihlower => exact ihupper.compose ihlower h

variable {m : SourceMap}

/-! ## Tables that are listed again -/

theorem mergeNames_of_nodup {ns : List String} (hnodup : (m.names ++ ns).Nodup) :
    m.mergeNames ns =
      (List.range' m.names.length ns.length, { m with names := m.names ++ ns }) := by
  induction ns generalizing m with
  | nil => simp [mergeNames]
  | cons n ns ih =>
    have hnone : m.names.findIdx? (· == n) = none := by
      rw [List.findIdx?_eq_none_iff]
      refine fun n' hn' => beq_eq_false_iff_ne.2 fun heq => ?_
      exact (List.nodup_append.1 hnodup).2.2 _ hn' _ List.mem_cons_self heq
    have hadd : m.addName n = (m.names.length, { m with names := m.names ++ [n] }) := by
      rw [addName, hnone]
    have hnext := ih (m := { m with names := m.names ++ [n] }) (by simpa using hnodup)
    rw [mergeNames_cons, hadd, hnext]
    simp [List.range'_succ]

/-- The tables that are read are those that were written, each entry at its own index. -/
theorem WF.table_fields (h : m.WF) :
    m.fields.table m.root = { m with lines := #[] } ∧
      m.fields.reindexing m.root = ⟨List.range m.sources.length, List.range m.names.length⟩ := by
  let bare : SourceMap := { root := m.root, file := m.file }
  let listed : SourceMap := { bare with sources := m.sources }
  have hsources : bare.addSources m.fields.sourceList = (List.range m.sources.length, listed) :=
    h.listsOnce.addSources_fields
  have hnames : listed.mergeNames m.names =
      (List.range' 0 m.names.length, { m with lines := #[] }) :=
    mergeNames_of_nodup (m := listed) h.names
  have htable : m.fields.table m.root = ((bare.addSources m.fields.sourceList).2.mergeNames m.names).2 :=
    rfl
  have hreindexing : m.fields.reindexing m.root = ⟨(bare.addSources m.fields.sourceList).1,
      ((bare.addSources m.fields.sourceList).2.mergeNames m.names).1⟩ := rfl
  rw [htable, hreindexing, hsources]
  simp only [hnames, List.range_eq_range', true_and]

/-! ## Segments that are read again -/

/-- An index of the tables stays. -/
theorem apply_range {o : Location} (h : m.Locates o) :
    Reindexing.apply ⟨List.range m.sources.length, List.range m.names.length⟩ o = .ok o := by
  obtain ⟨source, line, column, name⟩ := o
  obtain ⟨hsource, hname⟩ := h
  unfold Reindexing.apply
  rw [List.getElem?_range hsource]
  cases name with
  | none => rfl
  | some k => simp only [List.getElem?_range (hname k rfl)]

/-- Whether the indexes of all segments fit 32 bits. -/
def HasSmallIndexes (m : SourceMap) : Prop :=
  ∀ s ∈ m.mappings, ∀ o ∈ s.location, o.source ≤ Mappings.maxNumber ∧
    ∀ k ∈ o.name, k ≤ Mappings.maxNumber

theorem WF.isBounded (h : m.WF) (hindexes : m.HasSmallIndexes) :
    ∀ s ∈ m.mappings, s.segment.IsBounded := by
  intro s hs
  have hfits := h.fits s hs
  refine ⟨hfits.column, fun o ho => ?_⟩
  obtain ⟨hsource, hname⟩ := hindexes s hs o ho
  exact ⟨hsource, (hfits.location o ho).line, (hfits.location o ho).column, hname⟩

theorem WF.ofFields_fields (h : m.WF) (hindexes : m.HasSmallIndexes) :
    ofFields m.root m.fields = .ok m := by
  obtain ⟨htable, hreindexing⟩ := h.table_fields
  have happly : ∀ s ∈ m.mappings, ∀ o ∈ s.location,
      (m.fields.reindexing m.root).apply o = .ok o :=
    fun s hs o ho => hreindexing ▸ apply_range (h.indexed s hs o ho)
  have hmove : m.mappings.map
      (fun s => { s with location := (m.fields.reindexing m.root).move s.location }) =
        m.mappings := by
    refine (List.map_congr_left fun s hs => ?_).trans (List.map_id _)
    have hlocation : (m.fields.reindexing m.root).move s.location = s.location := by
      unfold Reindexing.move
      cases ho : s.location with
      | none => rfl
      | some o => rw [Option.map_some, happly s hs o ho]; rfl
    rw [hlocation]
    rfl
  refine ofFields_eq_ok_iff.2 ⟨m.mappings, decode_fields (h.isBounded hindexes),
    fun s hs o ho => ⟨o, happly s hs o ho⟩, ?_⟩
  rw [hmove, htable, addAll_eq, h.sorted.lines_addAll_mappings h.ends rfl]

/-! ## The main result -/

/-- An address of a map is read as its JSON. -/
theorem ofDataUrl_toDataUrl (root : Path) (m : SourceMap) :
    ofDataUrl root m.toDataUrl = ofJson root m.toJson := by
  unfold ofDataUrl toDataUrl
  rw [DataUrl.parse?_json, Option.filter_some, if_pos (beq_self_eq_true _)]
  simp only [DataUrl.text?_encode]

/-- A map that was made by the operations on maps reads back as it was: with its file, its sources
and their contents, its names and its segments, and so with the same JSON. -/
theorem Reachable.reads_back (h : m.Reachable) (hindexes : m.HasSmallIndexes) :
    SourceMap.ofJson m.root m.toJson = .ok m ∧ ofDataUrl m.root m.toDataUrl = .ok m := by
  have hjson : SourceMap.ofJson m.root m.toJson = .ok m := by
    rw [ofJson_toJson, h.wf.ofFields_fields hindexes]
  exact ⟨hjson, (ofDataUrl_toDataUrl m.root m).trans hjson⟩

/-- A compiled file whose second line comes from a source below the root directory. -/
def compiledFile : SourceMap :=
  SourceMap.addMapping { ((SourceMap.empty ⟨"/app"⟩).addSource "/app/src/a.ts").2 with
    file := some "a.js" } 1 4 (some ⟨0, 7, 2, none⟩)

theorem reads_back_compiledFile : compiledFile.Reachable ∧ compiledFile.HasSmallIndexes ∧
    compiledFile.sources = [⟨"src/a.ts", ""⟩] ∧
    compiledFile.mappings = [⟨1, 4, some ⟨0, 7, 2, none⟩⟩] ∧
    SourceMap.ofJson ⟨"/app"⟩ compiledFile.toJson = .ok compiledFile ∧
    ofDataUrl ⟨"/app"⟩ compiledFile.toDataUrl = .ok compiledFile := by
  have hsources : compiledFile.sources = [⟨"src/a.ts", ""⟩] := by decide +kernel
  have hmappings : compiledFile.mappings = [⟨1, 4, some ⟨0, 7, 2, none⟩⟩] := by decide +kernel
  have hroot : compiledFile.root.text = "/app" := by decide +kernel
  have hreachable : compiledFile.Reachable := by
    refine .addMapping 1 (.setFile "a.js" (.addSource "/app/src/a.ts" (.empty ⟨"/app"⟩)))
      (by decide) fun o ho => ?_
    cases ho
    have hlocates : compiledFile.Locates ⟨0, 7, 2, none⟩ := by
      unfold Locates
      rw [hsources]
      decide
    exact ⟨hlocates, by decide, by decide⟩
  have hindexes : compiledFile.HasSmallIndexes := by
    unfold HasSmallIndexes
    rw [hmappings]
    decide
  obtain ⟨hjson, haddress⟩ := hreachable.reads_back hindexes
  rw [show compiledFile.root = ⟨"/app"⟩ from congrArg Path.mk hroot] at hjson haddress
  exact ⟨hreachable, hindexes, hsources, hmappings, hjson, haddress⟩

end ModuleWorkers.SourceMap
