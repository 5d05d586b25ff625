import ModuleWorkers.Proofs.Json.Reading
import ModuleWorkers.Proofs.SourceMap.Mappings
import ModuleWorkers.Proofs.SourceMap.Tables
import ModuleWorkers.SourceMap.Reference

/-!
# Maps that were written read back

The JSON of a map is an object with its fields (`SourceMap.parse?_toJson`), which are read as they
were written (`SourceMap.ofValue?_members`). The map that is read has other tables, but the same
segments with the same origins (`SourceMap.exists_ofJson_toJson`). The indexes of a map that could
be loaded are in its tables (`SourceMap.isIndexed_of_ofFields`), and its segments are in order
(`SourceMap.isSorted_of_ofFields`).
-/

namespace ModuleWorkers.SourceMap

open Json

/-! ## The text -/

/-- The version, which comes first. -/
def versionMember : Member := ⟨"version", [.num "3"], .num "3"⟩

/-- A member that is a text. -/
def textMember (key text : String) : Member := ⟨key, [.str (some text)], .str (some text)⟩

/-- A member that is a list of texts. -/
def textsMember (key : String) (texts : List String) : Member :=
  ⟨key, textTokens texts, .arr (texts.map fun t => .str (some t))⟩

/-- The members of the JSON of a map behind the version. -/
def members (m : SourceMap) : List Member :=
  (m.file.map (textMember "file")).toList ++
    [textMember "mappings" m.mappingsText, textsMember "sources" (m.sources.map (·.path)),
      textsMember "sourcesContent" (m.sources.map (·.content)), textsMember "names" m.names]

theorem builds_members (m : SourceMap) :
    ∀ n ∈ versionMember :: m.members, Builds n.tokens n.value := by
  intro n hn
  have htext : ∀ key text, Builds (textMember key text).tokens (textMember key text).value :=
    fun _ text => builds_str text
  have htexts : ∀ key texts, Builds (textsMember key texts).tokens (textsMember key texts).value :=
    fun _ texts => builds_texts texts
  rcases List.mem_cons.1 hn with rfl | hn
  · exact builds_num "3"
  · rcases List.mem_append.1 hn with hn | hn
    · obtain ⟨f, -, rfl⟩ := Option.map_eq_some_iff.1 (Option.mem_toList.1 hn)
      exact htext _ f
    · simp only [List.mem_cons, List.not_mem_nil, or_false] at hn
      rcases hn with rfl | rfl | rfl | rfl
      · exact htext _ _
      · exact htexts _ _
      · exact htexts _ _
      · exact htexts _ _

theorem scans_key (key : String) :
    Scans ((Quoted.quote key).toList ++ [':']) [.str (some key), .colon] :=
  (scans_quote key).append (scans_punctuation rfl)

/-- The key of a member behind another one. -/
theorem scans_next_key (key : String) :
    Scans ([','] ++ ((Quoted.quote key).toList ++ [':'])) [.comma, .str (some key), .colon] :=
  Scans.append (scans_punctuation rfl) (scans_key key)

theorem scans_start :
    Scans "\x7b\"version\":3,".toList
      [.openObject, .str (some "version"), .colon, .num "3", .comma] := by
  have hopen : Scans ['{'] [.openObject] := scans_punctuation rfl
  have h := hopen.append ((scans_key "version").append scans_three)
  have htext : "\x7b\"version\":3,".toList =
      ['{'] ++ ((Quoted.quote "version").toList ++ [':'] ++ ['3', ',']) := by decide
  rw [htext]
  exact h

/-- The text of the field that may be missing. -/
def fileText (m : SourceMap) : String :=
  match m.file with
  | some f => "\"file\":" ++ Quoted.quote f ++ ","
  | none => ""

theorem scans_fileText (m : SourceMap) :
    Scans m.fileText.toList
      (m.file.elim [] fun f => [.str (some "file"), .colon, .str (some f), .comma]) := by
  unfold fileText
  cases m.file with
  | none => exact scans_nil
  | some f =>
    have hcomma : Scans [','] [.comma] := scans_punctuation rfl
    have hkey : "\"file\":".toList = (Quoted.quote "file").toList ++ [':'] := by decide
    rw [String.toList_append, String.toList_append, hkey]
    exact ((scans_key "file").append (scans_quote f)).append hcomma

theorem scans_toJson (m : SourceMap) :
    Scans m.toJson.toList (.openObject :: versionMember.allTokens ++
      (m.members.flatMap (fun n => Token.comma :: n.allTokens) ++ [Token.closeObject])) := by
  have hclose : Scans ['}'] [.closeObject] := scans_punctuation rfl
  have hmappings : "\"mappings\":".toList = (Quoted.quote "mappings").toList ++ [':'] := by decide
  have hsources : ",\"sources\":".toList = [','] ++ ((Quoted.quote "sources").toList ++ [':']) := by
    decide
  have hcontents : ",\"sourcesContent\":".toList =
      [','] ++ ((Quoted.quote "sourcesContent").toList ++ [':']) := by decide
  have hnames : ",\"names\":".toList = [','] ++ ((Quoted.quote "names").toList ++ [':']) := by
    decide
  have h := ((((((((((scans_start.append m.scans_fileText).append (scans_key "mappings")).append
    (scans_quote m.mappingsText)).append (scans_next_key "sources")).append
    (scans_texts (m.sources.map (·.path)))).append (scans_next_key "sourcesContent")).append
    (scans_texts (m.sources.map (·.content)))).append (scans_next_key "names")).append
    (scans_texts m.names)).append hclose)
  have htext : m.toJson = "\x7b\"version\":3," ++ m.fileText ++ "\"mappings\":" ++
      Quoted.quote m.mappingsText ++ ",\"sources\":" ++ quotedList (m.sources.map (·.path)) ++
      ",\"sourcesContent\":" ++ quotedList (m.sources.map (·.content)) ++
      ",\"names\":" ++ quotedList m.names ++ "\x7d" := rfl
  rw [htext]
  simp only [String.toList_append, hmappings, hsources, hcontents, hnames]
  refine Eq.mp (congrArg (Scans _) ?_) h
  unfold members
  cases m.file <;> simp [versionMember, textMember, textsMember, Member.allTokens]

/-- The JSON of a map is an object with its members. -/
theorem parse?_toJson (m : SourceMap) :
    parse? m.toJson =
      some (.obj ((versionMember :: m.members).map fun n => (some n.key, n.value))) := by
  rw [parse?, m.scans_toJson.scan?_eq]
  exact (builds_object m.builds_members).build?_eq

/-! ## The fields -/

theorem listOf?_texts (texts : List String) :
    Value.listOf? Value.text? (.arr (texts.map fun t => .str (some t))) = some texts := by
  change (texts.map fun t => Value.str (some t)).mapM Value.text? = some texts
  rw [List.mapM_map]
  exact (List.mapM_pure (f := id)).trans (congrArg some (List.map_id texts))

theorem listOf?_orNull?_texts (texts : List String) :
    Value.listOf? (Value.orNull? Value.text?) (.arr (texts.map fun t => .str (some t))) =
      some (texts.map some) := by
  change (texts.map fun t => Value.str (some t)).mapM (Value.orNull? Value.text?) = _
  rw [List.mapM_map]
  exact List.mapM_pure (f := some)

/-- The fields of a map as they are written. -/
def fields (m : SourceMap) : Fields where
  file := m.file
  mappings := m.mappingsText
  sourceRoot := none
  sources := (m.sources.map (·.path)).map some
  contents := (m.sources.map (·.content)).map some
  names := m.names

theorem ofValue?_members (m : SourceMap) :
    Fields.ofValue? (.obj ((versionMember :: m.members).map fun n => (some n.key, n.value))) =
      some m.fields := by
  have hrecord : Value.record? Fields.keys
      (.obj ((versionMember :: m.members).map fun n => (some n.key, n.value))) =
      some [m.file.map fun f => .str (some f), some (.str (some m.mappingsText)), none,
        some (.arr ((m.sources.map (·.path)).map fun t => .str (some t))),
        some (.arr ((m.sources.map (·.content)).map fun t => .str (some t))),
        some (.arr (m.names.map fun t => .str (some t)))] := by
    unfold members
    cases m.file <;> rfl
  rw [Fields.ofValue?, hrecord]
  simp only [Option.bind_eq_bind, Option.bind_some, Value.orAbsent?, listOf?_texts,
    listOf?_orNull?_texts]
  unfold fields
  cases m.file <;> rfl

theorem sourceList_fields (m : SourceMap) :
    m.fields.sourceList = m.sources.map fun s => (s.path, some s.content) := by
  refine List.ext_getElem? fun k => ?_
  rw [Fields.sourceList, fields]
  simp only [List.getElem?_map, List.getElem?_zipIdx]
  cases hs : m.sources[k]? with
  | none => rfl
  | some s => simp [Fields.sourcePrefix, hs]

theorem ofJson_toJson (m : SourceMap) (root : Path) :
    ofJson root m.toJson = ofFields root m.fields := by
  rw [ofJson, parse?_toJson]
  simp only [Option.bind_some, ofValue?_members]

/-! ## Segments that are added again -/

/-- A location with its indexes moved as far as that is possible. -/
def Reindexing.move (r : Reindexing) (o : Option Location) : Option Location :=
  o.map fun o => ((r.apply o).toOption).getD o

theorem mapM_apply_of_forall {r : Reindexing} {o : Option Location}
    (h : ∀ x ∈ o, ∃ y, r.apply x = .ok y) : o.mapM r.apply = .ok (r.move o) := by
  cases o with
  | none => rfl
  | some x =>
    obtain ⟨y, hy⟩ := h x rfl
    rw [Option.mapM_some, hy, Reindexing.move, Option.map_some, hy]
    rfl

/-- If all segments could be added, the indexes of all could be moved. -/
theorem forall_of_addMappings {r : Reindexing} {m m' : SourceMap} {ss : List Mapping}
    (h : addMappings r 0 m ss = (m', .ok ())) :
    ∀ s ∈ ss, ∀ o ∈ s.location, ∃ o', r.apply o = .ok o' := by
  induction ss generalizing m with
  | nil => simp
  | cons s ss ih =>
    rw [addMappings] at h
    split at h
    · cases h
    · rename_i location hlocation
      intro t ht o ho
      rcases List.mem_cons.1 ht with rfl | ht
      · rw [Option.mem_def.1 ho, Option.mapM_some] at hlocation
        cases hr : r.apply o with
        | error e =>
          rw [hr] at hlocation
          cases hlocation
        | ok o' => exact ⟨o', rfl⟩
      · exact ih h t ht o ho

/-- A segment with its indexes moved, some lines further down. -/
def Reindexing.moveDown (r : Reindexing) (offset : Nat) (s : Mapping) : Mapping :=
  ⟨s.line + offset, s.column, r.move s.location⟩

theorem addMappings_eq_addAll {r : Reindexing} {m : SourceMap} {offset : Nat} {ss : List Mapping}
    (h : ∀ s ∈ ss, ∀ o ∈ s.location, ∃ o', r.apply o = .ok o') :
    addMappings r offset m ss = (m.addAll (ss.map (r.moveDown offset)), .ok ()) := by
  induction ss generalizing m with
  | nil => rfl
  | cons s ss ih =>
    rw [addMappings, mapM_apply_of_forall (h s List.mem_cons_self)]
    exact ih fun t ht => h t (List.mem_cons_of_mem s ht)

theorem addMappings_of_forall {r : Reindexing} {m : SourceMap} {ss : List Mapping}
    (h : ∀ s ∈ ss, ∀ o ∈ s.location, ∃ o', r.apply o = .ok o') :
    addMappings r 0 m ss =
      (m.addAll (ss.map fun s => { s with location := r.move s.location }), .ok ()) :=
  addMappings_eq_addAll h

/-! ## Maps that are read -/

namespace Fields

variable (root : Path) (f : Fields)

/-- The sources and names as they are listed. -/
def listed : SourceMap :=
  { root, sources := f.sourceList.map fun s => ⟨s.1, ""⟩, names := f.names }

/-- The tables of the map, with all sources once. -/
def table : SourceMap :=
  ((({ root, file := f.file } : SourceMap).addSources f.sourceList).2.mergeNames f.names).2

/-- Where what is listed is in the tables. -/
def reindexing : Reindexing :=
  let m := ({ root, file := f.file } : SourceMap).addSources f.sourceList
  ⟨m.1, (m.2.mergeNames f.names).1⟩

theorem extends_table : (f.table root).Extends { root, file := f.file } :=
  (extends_mergeNames _ _).trans (extends_addSources _ _)

variable {f}

theorem leads_reindexing {m : SourceMap}
    (hsources : f.sourceList.map (·.1) = m.sources.map (·.path)) (hnames : f.names = m.names) :
    (f.reindexing root).Leads m (f.table root) := by
  unfold reindexing table
  rw [hnames]
  exact leads_of_addSources _ m hsources

theorem leads_listed (f : Fields) : (f.reindexing root).Leads (f.listed root) (f.table root) :=
  leads_reindexing root (by rw [listed, List.map_map]; rfl) rfl

end Fields

section

variable {root : Path} {f : Fields} {m : SourceMap}

/-- What is made of fields: their segments, with indexes of the tables. -/
theorem ofFields_eq_ok_iff :
    ofFields root f = .ok m ↔ ∃ ss, Mappings.decode f.mappings.toList = .ok ss ∧
      (∀ s ∈ ss, ∀ o ∈ s.location, ∃ o', (f.reindexing root).apply o = .ok o') ∧
      m = (f.table root).addAll
        (ss.map fun s => { s with location := (f.reindexing root).move s.location }) := by
  have hread : ofFields root f = Mappings.decode f.mappings.toList >>= fun ss =>
      ((f.table root).addMappings (f.reindexing root) 0 ss).2.map fun _ =>
        ((f.table root).addMappings (f.reindexing root) 0 ss).1 := by
    refine bind_congr fun ss => ?_
    unfold Fields.table Fields.reindexing
    dsimp only
    split
    · rename_i heq
      rw [heq]
      rfl
    · rename_i heq
      rw [heq]
      rfl
  rw [hread]
  cases hdecode : Mappings.decode f.mappings.toList with
  | error e =>
    constructor
    · intro h
      cases h
    · rintro ⟨ss, hss, -⟩
      cases hss
  | ok ss =>
    change (((f.table root).addMappings (f.reindexing root) 0 ss).2.map fun _ =>
      ((f.table root).addMappings (f.reindexing root) 0 ss).1) = .ok m ↔ _
    constructor
    · intro h
      cases hadd : (f.table root).addMappings (f.reindexing root) 0 ss with
      | mk m' outcome =>
        rw [hadd] at h
        cases outcome with
        | error e => cases h
        | ok u =>
          have hall := forall_of_addMappings hadd
          rw [addMappings_of_forall hall] at hadd
          cases hadd
          exact ⟨ss, rfl, hall, (Except.ok.inj h).symm⟩
    · rintro ⟨ss', hss', hall, rfl⟩
      cases hss'
      rw [addMappings_of_forall hall]
      rfl

/-- The indexes of a map that could be read are in its tables. -/
theorem isIndexed_of_ofFields (h : ofFields root f = .ok m) : m.IsIndexed := by
  obtain ⟨ss, -, hall, rfl⟩ := ofFields_eq_ok_iff.1 h
  have hleads := f.leads_listed root
  have hlines : (f.table root).lines = #[] := (f.extends_table root).lines
  intro s hs o ho
  rw [mem_mappings_addAll hlines] at hs
  obtain ⟨t, ht, rfl⟩ := List.mem_map.1 hs
  obtain ⟨o₀, ho₀, rfl⟩ := Option.map_eq_some_iff.1 ho
  obtain ⟨o', ho'⟩ := hall t ht o₀ ho₀
  obtain ⟨x, hx⟩ := (hleads.locates_of_apply ho').exists_origin?
  obtain ⟨o'', happly, horigin⟩ := hleads.exists_apply hx
  rw [happly, addAll_eq]
  exact locates_of_origin? horigin

theorem isSorted_of_ofFields (h : ofFields root f = .ok m) : m.IsSorted := by
  obtain ⟨ss, -, -, rfl⟩ := ofFields_eq_ok_iff.1 h
  exact isSorted_addAll (isSorted_of_lines_eq_empty (f.extends_table root).lines) _

end

theorem ofJson_eq_ok_iff {root : Path} {text : String} {m : SourceMap} :
    ofJson root text = .ok m ↔
      ∃ f, (Json.parse? text).bind Fields.ofValue? = some f ∧ ofFields root f = .ok m := by
  unfold ofJson
  cases (Json.parse? text).bind Fields.ofValue? <;> simp

/-- The text of the map that a reference of a file means. -/
def referencedText? (fs : FileSystem) (file : Path) (url : String) : Option String :=
  match referencedFile? file url with
  | none => ((DataUrl.parse? url).filter (·.mediaType == "application/json")).bind (·.text?)
  | some p => (fs.readText p).toOption

/-- The fields of the map that a reference of a file means. -/
def referencedFields? (fs : FileSystem) (file : Path) (url : String) : Option Fields :=
  (referencedText? fs file url).bind fun text => (Json.parse? text).bind Fields.ofValue?

/-- A map that could be loaded has fields, wherever they are written. -/
theorem load_eq_ok_iff {fs : FileSystem} {root file : Path} {url : String} {m : SourceMap} :
    load fs root file url = .ok m ↔
      ∃ f, referencedFields? fs file url = some f ∧ ofFields root f = .ok m := by
  have hload : load fs root file url = .ok m ↔
      ∃ text, referencedText? fs file url = some text ∧ ofJson root text = .ok m := by
    unfold load referencedText? ofDataUrl
    cases referencedFile? file url with
    | some p => cases hread : fs.readText p <;> simp [hread, Except.toOption]
    | none =>
      cases (DataUrl.parse? url).filter (·.mediaType == "application/json") with
      | none => simp
      | some d => cases htext : d.text? <;> simp [htext]
  rw [hload, referencedFields?]
  simp only [ofJson_eq_ok_iff, Option.bind_eq_some_iff]
  constructor
  · rintro ⟨text, htext, f, hf, hm⟩
    exact ⟨f, ⟨text, htext, hf⟩, hm⟩
  · rintro ⟨f, ⟨text, htext, hf⟩, hm⟩
    exact ⟨text, htext, f, hf, hm⟩

/-- Mappings whose numbers fit are read as they were written. -/
theorem decode_fields {m : SourceMap} (hbounded : ∀ s ∈ m.mappings, s.segment.IsBounded) :
    Mappings.decode m.fields.mappings.toList = .ok m.mappings := by
  have htext : m.fields.mappings.toList = Mappings.encode m.lines.toList := String.toList_ofList
  rw [htext]
  refine Mappings.decode_encode fun l hl s hs => ?_
  obtain ⟨k, hk⟩ := exists_onLine_mem_mappings (Array.mem_toList_iff.1 hl)
    (Array.mem_toList_iff.1 hs)
  exact hbounded (s.onLine k) hk

/-- The entries of the tables that are read are those that were written, wherever they are now. -/
theorem leads_fields (m : SourceMap) (root : Path) :
    (m.fields.reindexing root).Leads m (m.fields.table root) := by
  refine Fields.leads_reindexing root ?_ rfl
  rw [sourceList_fields, List.map_map]
  rfl

/-- A map whose indexes are in its tables and whose numbers fit is read. -/
theorem ofJson_toJson_eq {m : SourceMap} (hindexed : m.IsIndexed)
    (hbounded : ∀ s ∈ m.mappings, s.segment.IsBounded) (root : Path) :
    ofJson root m.toJson = .ok ((m.fields.table root).addAll (m.mappings.map fun s =>
      { s with location := (m.fields.reindexing root).move s.location })) := by
  rw [ofJson_toJson]
  refine ofFields_eq_ok_iff.2 ⟨m.mappings, decode_fields hbounded, fun s hs o ho => ?_, rfl⟩
  obtain ⟨x, hx⟩ := (hindexed s hs o ho).exists_origin?
  obtain ⟨o', happly, -⟩ := (m.leads_fields root).exists_apply hx
  exact ⟨o', happly⟩

/-- A map whose numbers fit is read as one that says the same of all places, from the root directory
that it is read for. -/
theorem exists_ofJson_toJson {m : SourceMap} (hsorted : m.IsSorted) (hindexed : m.IsIndexed)
    (hbounded : ∀ s ∈ m.mappings, s.segment.IsBounded) (root : Path) :
    ∃ m', ofJson root m.toJson = .ok m' ∧ m'.file = m.file ∧
      ∀ line column, m'.originAt? line column =
        (m.originAt? line column).map (Option.map (Origin.relativeTo root)) := by
  have hextends := m.fields.extends_table root
  have hmove : ∀ s ∈ m.mappings, ∀ o ∈ s.location, ∃ o',
      (m.fields.reindexing root).apply o = .ok o' ∧
      (m.fields.table root).origin? o' = (m.origin? o).map (Origin.relativeTo root) := by
    intro s hs o ho
    obtain ⟨x, hx⟩ := (hindexed s hs o ho).exists_origin?
    obtain ⟨o', happly, horigin⟩ := (m.leads_fields root).exists_apply hx
    rw [hextends.root] at horigin
    exact ⟨o', happly, by rw [horigin, hx, Option.map_some]⟩
  refine ⟨_, ofJson_toJson_eq hindexed hbounded root, ?_, ?_⟩
  · rw [addAll_eq]
    exact hextends.file
  · intro line column
    have hclosest : ((m.fields.table root).addAll (m.mappings.map fun s =>
        { s with location := (m.fields.reindexing root).move s.location })).closest? line column =
        (m.closest? line column).map fun s =>
          { s with location := (m.fields.reindexing root).move s.location } := by
      rw [← mappings_mapLocations, (hsorted.mapLocations _).closest?_addAll_mappings hextends.lines,
        closest?_mapLocations]
    unfold originAt?
    rw [hclosest]
    cases hs : m.closest? line column with
    | none => rfl
    | some s =>
      simp only [Option.map_some]
      cases ho : s.location with
      | none => rfl
      | some o =>
        obtain ⟨o', happly, horigin⟩ := hmove s (mem_mappings_of_closest? hs) o ho
        rw [addAll_eq]
        simp only [Reindexing.move, Option.map_some, Option.bind_some, happly]
        exact congrArg some horigin

end ModuleWorkers.SourceMap
