import ModuleWorkers.Proofs.Edits.Provenance
import ModuleWorkers.Proofs.Path.Url
import ModuleWorkers.Proofs.Plugin.Builds
import ModuleWorkers.Proofs.Plugin.Response
import ModuleWorkers.Proofs.SourceMap.Composition
import ModuleWorkers.Proofs.SourceMap.Json
import ModuleWorkers.Proofs.Text.Search
import ModuleWorkers.Proofs.Worker.Construction

/-!
# Served maps lead back

A script that gets a map refers to the path that the map is stored at, unless a kept reference was
cut by an edit (`ServedScript.exists_reference`). The map says of each character that was kept what
the original map has for its place, or else that place of the requested file
(`ServedScript.servedMap_spec`), and so does the map that a client reads.
`PluginState.respond_servesMap` puts this together.
-/

namespace ModuleWorkers

open Text SourceMap

/-! ## Maps of edits -/

namespace EditBuffer

theorem exists_link_of_mem_keptMappings {new old : TextPosition} {cs : List Char} {s : Mapping}
    (h : s ∈ keptMappings new old cs) : ∃ p q, s = link p q := by
  induction cs generalizing new old with
  | nil => cases h
  | cons c cs ih =>
    rw [keptMappings] at h
    split at h
    · exact ih h
    · rcases List.mem_cons.1 h with rfl | h
      · exact ⟨_, _, rfl⟩
      · exact ih h

theorem exists_link_of_mem_pieceMappings {new old : TextPosition} {ps : List Piece} {s : Mapping}
    (h : s ∈ pieceMappings new old ps) : ∃ p q, s = link p q := by
  induction ps generalizing new old with
  | nil => cases h
  | cons p ps ih =>
    cases p with
    | kept text =>
      rcases List.mem_append.1 h with h | h
      · exact exists_link_of_mem_keptMappings h
      · exact ih h
    | edited before after =>
      rw [pieceMappings] at h
      split at h
      · exact ih h
      · rcases List.mem_cons.1 h with rfl | h
        · exact ⟨_, _, rfl⟩
        · exact ih h

variable (b : EditBuffer) (root : Path) (source : String) (withContent : Bool)

theorem isSorted_sourceMap : (b.sourceMap root source withContent).IsSorted := by
  rw [sourceMap_eq]
  exact isSorted_addAll (isSorted_of_lines_eq_empty rfl) _

theorem isIndexed_sourceMap : (b.sourceMap root source withContent).IsIndexed := by
  intro s hs o ho
  rw [sourceMap_eq, mem_mappings_addAll rfl] at hs
  obtain ⟨p, q, rfl⟩ := exists_link_of_mem_pieceMappings hs
  cases ho
  rw [sourceMap_eq, addAll_eq]
  exact ⟨Nat.zero_lt_one, by simp⟩

theorem origin?_sourceMap (line column : Nat) :
    (b.sourceMap root source withContent).origin? ⟨0, line, column, none⟩ =
      some ⟨Source.relativePath root source, line, column, none⟩ := by
  rw [sourceMap_eq, addAll_eq]
  rfl

theorem closest?_sourceMap {new old : TextPosition}
    (h : link new old ∈ pieceMappings {} {} b.pieces) :
    (b.sourceMap root source withContent).closest? new.line new.column = some (link new old) := by
  rw [sourceMap_eq]
  exact closest?_addAll rfl (pairwise_pieceMappings {} {} b.pieces) h

theorem root_sourceMap : (b.sourceMap root source withContent).root = root := by
  rw [sourceMap_eq, addAll_eq]
  rfl

end EditBuffer

namespace ServedScript

/-! ## Placements -/

theorem exists_placeMap {s : ServedScript} {fs : FileSystem} {b b' : EditBuffer} {key : String}
    {m : SourceMap} (h : s.attachMap fs b = (b', some (key, m))) :
    ∃ p, s.placeMap fs b = .ok p ∧ s.servedMap p = .ok m ∧ p.buffer = b' ∧ p.path = key := by
  unfold attachMap at h
  split at h
  · cases h
  · rename_i p hp
    split at h
    · cases h
    · rename_i m' hm
      cases h
      exact ⟨p, hp, hm, rfl, rfl⟩

/-- The path of the map beside a script. -/
def ownPath (s : ServedScript) : String := s.path ++ ".map"

/-- The map that a script refers to, if it can be read. -/
def original? (s : ServedScript) (fs : FileSystem) (text : String) : Option SourceMap :=
  (Reference.find? text).bind fun r => s.loadMap? fs r.url

/-- Where a map goes: beside the script, which gets a reference or another one, or where the script
refers to. -/
inductive Puts (s : ServedScript) (fs : FileSystem) (b : EditBuffer) (p : MapPlacement) : Prop
  | line (find : Reference.find? b.base = none)
    (append : b.append ("\n" ++ comment s.basename) = .ok p.buffer) (path : p.path = s.ownPath)
  | kept {r : Reference} (find : Reference.find? b.base = some r) (keeps : s.Keeps fs r)
    (buffer : p.buffer = b) (path : s.mapPath? r.url = some p.path)
  | replaced {r : Reference} (find : Reference.find? b.base = some r)
    (overwrite : b.overwrite r.start r.stop (comment s.basename) = .ok p.buffer)
    (path : p.path = s.ownPath)

theorem puts_placeMap {s : ServedScript} {fs : FileSystem} {b : EditBuffer} {p : MapPlacement}
    (h : s.placeMap fs b = .ok p) :
    s.Puts fs b p ∧ p.inner = s.original? fs b.base := by
  unfold placeMap at h
  unfold original?
  cases hfind : Reference.find? b.base with
  | none =>
    rw [hfind] at h
    simp only at h
    cases happend : b.append ("\n" ++ comment s.basename) with
    | error e =>
      rw [happend] at h
      cases h
    | ok b' =>
      rw [happend] at h
      cases h
      exact ⟨.line hfind happend rfl, rfl⟩
  | some r =>
    rw [hfind] at h
    simp only at h
    split at h
    · rename_i inner path hinner hpath
      cases h
      refine ⟨.kept hfind ⟨?_, ?_⟩ rfl ?_, rfl⟩
      · rw [hinner]
        rfl
      · rw [hpath]
        rfl
      · unfold keptPath? at hpath
        split at hpath
        · cases hpath
        · exact hpath
    · cases hoverwrite : b.overwrite r.start r.stop (comment s.basename) with
      | error e =>
        rw [hoverwrite] at h
        cases h
      | ok b' =>
        rw [hoverwrite] at h
        cases h
        exact ⟨.replaced hfind hoverwrite rfl, rfl⟩

/-! ## References -/

/-- The address that is written means the path beside the script. -/
theorem mapPath?_basename (root : Path) (path : String) :
    (ofPath root path).mapPath? ((ofPath root path).basename ++ ".map") =
      some (ofPath root path).ownPath := by
  have hslash : '/' ∉ ((ofPath root path).basename ++ ".map").toList := by
    rw [String.toList_append, List.mem_append, not_or]
    exact ⟨fun h => (UrlPath.mem_of_mem_basename h).2 rfl, by decide⟩
  have hcontains : Text.contains ((ofPath root path).basename ++ ".map") "://" = false :=
    Text.contains_eq_false (c := '/') (by decide) hslash
  have hstarts : ((ofPath root path).basename ++ ".map").startsWith "/" = false := by
    rw [Bool.eq_false_iff]
    intro h
    exact hslash ((String.startsWith_string_iff.1 h).subset (by decide))
  rw [mapPath?, hcontains, hstarts]
  simp only [Bool.false_eq_true, if_false]
  exact congrArg some (UrlPath.normalize_beside path (by decide) (by decide))

section

variable {root : Path} {path : String} {fs : FileSystem} {b : EditBuffer} {p : MapPlacement}

/-- Whether all edits of a script end in front of its reference, if that stays where it is. -/
def IsIntact (s : ServedScript) (fs : FileSystem) (b : EditBuffer) : Prop :=
  ∀ r, Reference.find? b.base = some r → s.Keeps fs r → ∀ e ∈ b.edits, e.stop ≤ r.start

theorem toList_comment (basename : String) :
    (comment basename).toList = "//# sourceMappingURL=".toList ++ (basename ++ ".map").toList := by
  have happend : ∀ a b c : String, (a ++ b ++ c).toList = a.toList ++ (b ++ c).toList := by
    intro a b c
    rw [String.append_assoc, String.toList_append]
  exact happend "//# sourceMappingURL=" basename ".map"

theorem here?_comment (hpath : ∀ c ∈ path.toList, isBlank c = false) {blanks : List Char}
    (hblanks : blanks.all isBlank) :
    Reference.here? ((comment (ofPath root path).basename).toList ++ blanks) =
      some ((ofPath root path).basename ++ ".map").toList := by
  have hname : ∀ c ∈ (ofPath root path).basename.toList, isBlank c = false ∧ c ≠ '/' := by
    intro c hc
    obtain ⟨hmem, hslash⟩ := UrlPath.mem_of_mem_basename hc
    exact ⟨(UrlPath.mem_of_mem_normalize hmem).elim (fun h => absurd h hslash) (hpath c), hslash⟩
  have hext : ".map".toList.all (fun c => isBlank c == false && c != '/') := by decide +kernel
  have hurl : ∀ c ∈ ((ofPath root path).basename ++ ".map").toList,
      isBlank c = false ∧ c ≠ '/' := by
    intro c hc
    rw [String.toList_append] at hc
    rcases List.mem_append.1 hc with hc | hc
    · exact hname c hc
    · simpa using List.all_eq_true.1 hext c hc
  rw [toList_comment, List.append_assoc]
  refine Reference.here?_append ?_ (fun c hc => (hurl c hc).1) (fun h => (hurl _ h).2 rfl) hblanks
  rw [String.toList_append]
  exact List.append_ne_nil_of_right_ne_nil _ (by decide)

/-- A script refers to the path where its map goes. -/
theorem exists_reference (hpath : ∀ c ∈ path.toList, isBlank c = false) (hb : b.WF)
    (hclosed : ∀ e ∈ b.edits, ∃ before behind, b.base.toList = before ++ ')' :: behind ∧
      e.stop = byteLength before)
    (hputs : (ofPath root path).Puts fs b p) (hintact : (ofPath root path).IsIntact fs b) :
    ∃ front back url, p.buffer.text.toList = front ++ back ∧
      Reference.here? back = some url.toList ∧ (ofPath root path).mapPath? url = some p.path := by
  have hown := mapPath?_basename root path
  cases hputs with
  | line find append hkey =>
    have hwf := hb.overwrite append
    rw [hb.append_eq_ok] at append
    have hedits := congrArg EditBuffer.edits (Except.ok.inj append).symm
    have hbase := congrArg EditBuffer.base (Except.ok.inj append).symm
    have hend : p.buffer.base.toList = b.base.toList ++ ([] ++ []) := by simp [hbase]
    obtain ⟨cs, hcs⟩ := EditBuffer.exists_text_eq_of_last hwf hedits hend rfl (by simp)
    have hhere : Reference.here? ((comment (ofPath root path).basename).toList ++ []) = _ :=
      here?_comment hpath rfl
    refine ⟨cs ++ ['\n'], _, _, ?_, hhere, hkey ▸ hown⟩
    rw [hcs]
    simp
  | @kept r find keeps hbuffer hkey =>
    obtain ⟨front, back, hbase, hhere, hstart, -⟩ := Reference.exists_here?_of_find? find
    obtain ⟨cs, hcs⟩ := EditBuffer.exists_text_eq hb front back hbase
      (hstart ▸ hintact r find keeps)
    exact ⟨cs, back, r.url, hbuffer ▸ hcs, hhere, hkey⟩
  | @replaced r find overwrite hkey =>
    have hwf := hb.overwrite overwrite
    obtain ⟨front, reference, blanks, hbase, -, hblanks, hstart, hstop⟩ :=
      Reference.find?_eq_some find
    obtain ⟨-, hfree, hbuffer⟩ := EditBuffer.overwrite_eq_ok overwrite
    -- What is behind the reference is blank, so no argument list ends there.
    have hbefore : ∀ d ∈ b.edits, d.stop ≤ r.start := by
      intro d hd
      have hle := (hb.fits d hd).le
      rcases Edit.stop_le_or_le_start (Reference.start_lt_stop find) (hfree d hd) with h | h
      · exact h
      · exfalso
        obtain ⟨before, behind, hbase', hdstop⟩ := hclosed d hd
        have hsplit : (front ++ reference) ++ blanks = before ++ ')' :: behind := by
          rw [← hbase', hbase, List.append_assoc]
        have hlength : byteLength (front ++ reference) ≤ byteLength before := by
          have : r.stop ≤ d.start := h
          omega
        obtain ⟨rest, -, hrest⟩ := exists_append_of_byteLength_le hsplit hlength
        have hblank : isBlank ')' := List.all_eq_true.1 hblanks _ (by simp [hrest])
        exact absurd hblank (by decide)
    rw [EditBuffer.insert_of_forall_stop_le (fun d hd => (hb.fits d hd).le) hbefore] at hbuffer
    obtain ⟨cs, hcs⟩ := EditBuffer.exists_text_eq_of_last hwf (congrArg EditBuffer.edits hbuffer)
      ((congrArg (·.base.toList) hbuffer).trans hbase) hstart hstop
    exact ⟨cs, _, _, hcs, here?_comment hpath hblanks, hkey ▸ hown⟩

end

/-! ## Maps -/

/-- Where a place of a script comes from, seen from the directory of its map: what the original map
has for it, or else the place itself. -/
def authored? (s : ServedScript) (original : Option SourceMap) (dir : Path) (q : TextPosition) :
    Option Origin :=
  match original.bind (·.originAt? q.line q.column) with
  | some x => x.map (Origin.relativeTo dir)
  | none => some ⟨Source.relativePath dir s.file.text, q.line, q.column, none⟩

/-- The directory of a map. -/
def mapDir (s : ServedScript) (key : String) : Path := s.root.ofUrl (UrlPath.dirname key)

/-- The map of the edits of a script alone. -/
def editMap (s : ServedScript) (p : MapPlacement) : SourceMap :=
  p.buffer.sourceMap (s.mapDir p.path) s.file.text true

section

variable {s : ServedScript} {p : MapPlacement} {m : SourceMap}

theorem tracedOrigin?_editMap (lower : SourceMap) (q : TextPosition) :
    tracedOrigin? (s.editMap p) lower ⟨0, q.line, q.column, none⟩ =
      s.authored? (some lower) (s.mapDir p.path) q := by
  have horigin : (s.editMap p).origin? ⟨0, q.line, q.column, none⟩ =
      some ⟨Source.relativePath (s.mapDir p.path) s.file.text, q.line, q.column, none⟩ :=
    EditBuffer.origin?_sourceMap ..
  have hroot : (s.editMap p).root = s.mapDir p.path := EditBuffer.root_sourceMap ..
  unfold tracedOrigin? authored? originAt?
  simp only [Option.bind_some, horigin, hroot]
  cases lower.closest? q.line q.column with
  | none => rfl
  | some found =>
    simp only [Option.map_some, Option.bind_eq_bind, Option.pure_def]
    cases found.location with
    | none => rfl
    | some o =>
      simp only [Option.bind_some]
      cases lower.origin? o with
      | none => rfl
      | some x => simp [Origin.relativeTo]

theorem exists_servedMap (h : s.servedMap p = .ok m) :
    ∃ m₀, m = { m₀ with file := some s.basename } ∧
      (p.inner = none ∧ m₀ = s.editMap p ∨
        ∃ lower, p.inner = some lower ∧ (s.editMap p).compose lower = .ok m₀) := by
  unfold servedMap at h
  cases hp : p.inner with
  | none =>
    rw [hp] at h
    cases h
    exact ⟨s.editMap p, rfl, .inl ⟨rfl, rfl⟩⟩
  | some lower =>
    rw [hp] at h
    cases hm : (s.editMap p).compose lower with
    | error e =>
      change ((s.editMap p).compose lower >>= fun m => _) = _ at h
      rw [hm] at h
      cases h
    | ok m₀ =>
      change ((s.editMap p).compose lower >>= fun m => _) = _ at h
      rw [hm] at h
      cases h
      exact ⟨m₀, rfl, .inr ⟨lower, rfl, hm⟩⟩

/-- The served map has its segments and tables in order, and says of each character that was kept
where it was authored. -/
theorem servedMap_spec (hinner : ∀ lower ∈ p.inner, lower.IsIndexed) (h : s.servedMap p = .ok m) :
    m.IsSorted ∧ m.IsIndexed ∧ m.file = some s.basename ∧
      ∀ new old, EditBuffer.link new old ∈ EditBuffer.pieceMappings {} {} p.buffer.pieces →
        m.originAt? new.line new.column = some (s.authored? p.inner (s.mapDir p.path) old) := by
  have hindexed : (s.editMap p).IsIndexed := EditBuffer.isIndexed_sourceMap _ _ _ _
  have hsorted : (s.editMap p).IsSorted := EditBuffer.isSorted_sourceMap _ _ _ _
  have hclosest : ∀ new old,
      EditBuffer.link new old ∈ EditBuffer.pieceMappings {} {} p.buffer.pieces →
        (s.editMap p).closest? new.line new.column = some (EditBuffer.link new old) :=
    fun _ _ hlink => EditBuffer.closest?_sourceMap _ _ _ _ hlink
  obtain ⟨m₀, rfl, ⟨hp, rfl⟩ | ⟨lower, hp, hm₀⟩⟩ := exists_servedMap h
  · refine ⟨hsorted, hindexed, rfl, fun new old hlink => ?_⟩
    change (s.editMap p).originAt? new.line new.column = _
    rw [originAt?, hclosest new old hlink, hp]
    exact congrArg some (EditBuffer.origin?_sourceMap ..)
  · have hlower := hinner lower hp
    have hsorted₀ : m₀.IsSorted := isSorted_compose hindexed hlower hsorted hm₀
    have hindexed₀ : m₀.IsIndexed := isIndexed_compose hindexed hlower hm₀
    refine ⟨hsorted₀, hindexed₀, rfl, fun new old hlink => ?_⟩
    change m₀.originAt? new.line new.column = _
    rw [originAt?_compose hindexed hlower hm₀, hclosest new old hlink, hp]
    exact congrArg some (tracedOrigin?_editMap lower old)

end

theorem load_of_loadMap? {s : ServedScript} {fs : FileSystem} {url : String} {m : SourceMap}
    (h : s.loadMap? fs url = some m) : SourceMap.load fs s.root s.file url = .ok m := by
  unfold loadMap? at h
  split at h
  · cases h
  · exact eq_ok_of_toOption h

theorem original?_spec {s : ServedScript} {fs : FileSystem} {text : String} {m : SourceMap}
    (h : s.original? fs text = some m) : m.IsSorted ∧ m.IsIndexed := by
  obtain ⟨r, -, hload⟩ := Option.bind_eq_some_iff.1 h
  obtain ⟨f, -, hf⟩ := load_eq_ok_iff.1 (load_of_loadMap? hload)
  exact ⟨isSorted_of_ofFields hf, isIndexed_of_ofFields hf⟩

end ServedScript

/-! ## Responses -/

/-- Argument lists that were written end where the script closes them. -/
theorem CanonicalScript.exists_parenthesis {text path : String} {registry : WorkerRegistry}
    {script : CanonicalScript} (h : ofText text path registry = .ok (some script)) :
    ∀ e ∈ script.buffer.edits, ∃ before behind,
      script.buffer.base.toList = before ++ ')' :: behind ∧ e.stop = byteLength before := by
  obtain ⟨found, hfound, hr⟩ := rewrites_ofText h
  intro e he
  obtain ⟨w, hw, rfl⟩ := hr.exists_of_mem e he
  obtain ⟨c, hc, -, hstop⟩ := KnownWorker.exists_of_mem_among hw
  obtain ⟨before, behind, htext, hclose⟩ := ModuleWorkers.exists_parenthesis hfound hc
  exact ⟨before, behind, by rw [hr.base_eq, htext], hstop.trans hclose⟩

namespace PluginState

theorem respond_of_attachMap {s : PluginState} {fs : FileSystem} {path body : String}
    {script : CanonicalScript} {buffer : EditBuffer} {key : String} {m : SourceMap}
    (hscript : CanonicalScript.ofText body path s.registry = .ok (some script))
    (hattach : (ServedScript.ofPath s.root path).attachMap fs script.buffer =
      (buffer, some (key, m))) :
    s.respond fs path body true =
      (some buffer.text, { s with registry := script.registry }.storeMap key m) := by
  have hcanonical : s.canonicalize path body true =
      (some script, { s with registry := script.registry }) := by
    rw [canonicalize, if_pos rfl, hscript]
  rw [respond, hcanonical]
  simp only [hattach]

/-- The map of a script that is served is stored where the script refers to, unless the reference
was kept and an edit reaches into it. Wherever it is read, it leads from each character that was kept
to where the original map says that the character was authored, or else to the requested file. What
is read has numbers of 32 bits. -/
theorem respond_servesMap {s : PluginState} {fs : FileSystem} {path body : String}
    {script : CanonicalScript} {buffer : EditBuffer} {key : String} {m : SourceMap}
    (hpath : ∀ c ∈ path.toList, isBlank c = false)
    (hscript : CanonicalScript.ofText body path s.registry = .ok (some script))
    (hattach : (ServedScript.ofPath s.root path).attachMap fs script.buffer =
      (buffer, some (key, m))) :
    let served := ServedScript.ofPath s.root path
    (∃ s', s.respond fs path body true = (some buffer.text, s') ∧
      s'.virtualFiles.get? key = some ⟨key, .text m.toJson, false⟩) ∧
    (served.IsIntact fs script.buffer →
      ∃ front back url, buffer.text.toList = front ++ back ∧
        Reference.here? back = some url.toList ∧ served.mapPath? url = some key) ∧
    (∀ original ∈ served.original? fs body, original.IsSorted) ∧
    ((∀ t ∈ m.mappings, t.segment.IsBounded) → ∀ root, ∃ m',
      ofJson root m.toJson = .ok m' ∧ m'.file = some served.basename ∧
      ∀ front c back, body.toList = front ++ c :: back → ¬ buffer.Replaces (byteLength front) →
        ∃ newFront newBack, buffer.text.toList = newFront ++ c :: newBack ∧
          byteLength newFront = buffer.newOffset (byteLength front) ∧
          (c ≠ '\n' →
            let new := TextPosition.behind newFront
            let old := TextPosition.behind front
            m'.originAt? new.line new.column =
              some ((served.authored? (served.original? fs body) (served.mapDir key) old).map
                (Origin.relativeTo root)))) := by
  intro served
  obtain ⟨_, -, hr⟩ := CanonicalScript.rewrites_ofText hscript
  obtain ⟨p, hplace, hmap, rfl, rfl⟩ := ServedScript.exists_placeMap hattach
  obtain ⟨hputs, hinner⟩ := ServedScript.puts_placeMap hplace
  rw [hr.base_eq] at hinner
  have hbuffer : (served.attachMap fs script.buffer).1 = p.buffer := congrArg Prod.fst hattach
  have hplaced : served.Placed fs script.buffer p.buffer :=
    hbuffer ▸ ServedScript.placed_attachMap hr.wf
  have hbase : p.buffer.base = body := hplaced.base_eq.trans hr.base_eq
  obtain ⟨hsorted, hindexed, hfile, horigin⟩ := ServedScript.servedMap_spec
    (fun lower hlower => (ServedScript.original?_spec (hinner ▸ hlower)).2) hmap
  have hstored :
      ({ s with registry := script.registry }.storeMap p.path m).virtualFiles.get? p.path =
        some ⟨p.path, .text m.toJson, false⟩ := by
    rw [storeMap, VirtualFiles.get?_insert, if_pos rfl]
  refine ⟨⟨_, respond_of_attachMap hscript hattach, hstored⟩,
    ServedScript.exists_reference hpath hr.wf (CanonicalScript.exists_parenthesis hscript) hputs,
    fun original h => (ServedScript.original?_spec h).1, fun hbounded root => ?_⟩
  obtain ⟨m', hm', hfile', horigin'⟩ := exists_ofJson_toJson hsorted hindexed hbounded root
  refine ⟨m', hm', hfile'.trans hfile, fun front c back hfront hkept => ?_⟩
  obtain ⟨newFront, newBack, htext, hoffset, hlink⟩ :=
    (hplaced.wf hr.wf).exists_link (hbase ▸ hfront) hkept
  refine ⟨newFront, newBack, htext, hoffset, fun hc => ?_⟩
  simp only
  rw [horigin', horigin _ _ (hlink hc), hinner]
  rfl

/-- A compiled script that constructs a worker. -/
def compiledScript : String :=
  "new Worker(\"./w.js\", \x7btype: \"module\"\x7d)\n//# sourceMappingURL=a.js.map"

/-- The map of the compiled script: all of its first line comes from one place. -/
def compiledFiles : FileSystem :=
  FileSystem.writeText {} ⟨"/app/src/a.js.map"⟩
    "\x7b\"version\":3,\"sources\":[\"a.ts\"],\"mappings\":\"AACE\"\x7d"

/-- What the compiled script becomes. -/
def compiledResponse : String :=
  "new Worker(\"/src/w.js\", \x7b\"type\":\"module\"\x7d)\n//# sourceMappingURL=a.js.map"

/-- What is attached to the compiled script, behind its edits. -/
def compiledAttachment? : Option (List Edit × EditBuffer × Option (String × SourceMap)) :=
  match CanonicalScript.ofText compiledScript "/src/a.js" {} with
  | .ok (some script) =>
    some (script.buffer.edits,
      (ServedScript.ofPath ⟨"/app"⟩ "/src/a.js").attachMap compiledFiles script.buffer)
  | _ => none

/-- The map stays where it is, and leads from the parenthesis at the end of the line to the authored
script. -/
theorem respond_servesMap_compiled :
    ∃ (s' : PluginState) (m m' : SourceMap),
      respond { root := ⟨"/app"⟩ } compiledFiles "/src/a.js" compiledScript true =
        (some compiledResponse, s') ∧
      s'.virtualFiles.get? "/src/a.js.map" = some ⟨"/src/a.js.map", .text m.toJson, false⟩ ∧
      (∃ front back url, compiledResponse.toList = front ++ back ∧
        Reference.here? back = some url.toList ∧
        (ServedScript.ofPath ⟨"/app"⟩ "/src/a.js").mapPath? url = some "/src/a.js.map") ∧
      ofJson ⟨"/"⟩ m.toJson = .ok m' ∧ m'.file = some "a.js" ∧
      m'.originAt? 0 41 = some (some ⟨"a.ts", 1, 2, none⟩) := by
  let served := ServedScript.ofPath ⟨"/app"⟩ "/src/a.js"
  let front := "new Worker(\"./w.js\", \x7btype: \"module\"\x7d".toList
  let newFront := "new Worker(\"/src/w.js\", \x7b\"type\":\"module\"\x7d".toList
  have hfront : compiledScript.toList =
      front ++ ')' :: "\n//# sourceMappingURL=a.js.map".toList := by
    decide +kernel
  have hfrontLength : byteLength front = 37 := by decide +kernel
  have hnewFront : compiledResponse.toList =
      newFront ++ ')' :: "\n//# sourceMappingURL=a.js.map".toList := by
    decide +kernel
  have hnewLength : byteLength newFront = 41 := by decide +kernel
  have hblank : "/src/a.js".toList.all (isBlank · == false) := by decide +kernel
  have hpath : ∀ c ∈ "/src/a.js".toList, isBlank c = false := fun c hc =>
    beq_iff_eq.1 (List.all_eq_true.1 hblank c hc)
  have hcheck : compiledAttachment?.any (fun a => a.2.2.any fun stored =>
      stored.1 = "/src/a.js.map" ∧ (∀ t ∈ stored.2.mappings, t.segment.IsBounded) ∧
        (∀ e ∈ a.1, e.stop ≤ 39) ∧ a.2.1.text = compiledResponse ∧
        ¬ a.2.1.Replaces 37 ∧ a.2.1.newOffset 37 = 41) := by
    decide +kernel
  have hfind : Reference.find? compiledScript = some ⟨"a.js.map", 39, 68⟩ := by decide +kernel
  have hauthored : (served.authored? (served.original? compiledFiles compiledScript)
      (served.mapDir "/src/a.js.map") (.behind front)).map (Origin.relativeTo ⟨"/"⟩) =
        some ⟨"a.ts", 1, 2, none⟩ := by
    rw [ServedScript.original?, hfind]
    decide +kernel
  unfold compiledAttachment? at hcheck
  split at hcheck
  · rename_i script hscript
    cases hattach : served.attachMap compiledFiles script.buffer with
    | mk buffer stored =>
      change Option.any _ (some (script.buffer.edits,
        served.attachMap compiledFiles script.buffer)) = true at hcheck
      rw [hattach] at hcheck
      cases stored with
      | none => cases hcheck
      | some stored =>
        obtain ⟨key, m⟩ := stored
        obtain ⟨rfl, hbounded, hedits, htext, hkept, hoffset⟩ := of_decide_eq_true hcheck
        obtain ⟨_, -, hr⟩ := CanonicalScript.rewrites_ofText hscript
        obtain ⟨⟨s', hrespond, hstored⟩, hreference, -, hload⟩ :=
          respond_servesMap (s := { root := ⟨"/app"⟩ }) hpath hscript hattach
        have hintact : served.IsIntact compiledFiles script.buffer := by
          intro r hr' _ e he
          rw [hr.base_eq] at hr'
          cases hfind.symm.trans hr'
          exact hedits e he
        obtain ⟨m', hm', hfile, horigin⟩ := hload hbounded ⟨"/"⟩
        obtain ⟨newFront, newBack, hnew, hlength, hchar⟩ :=
          horigin front ')' "\n//# sourceMappingURL=a.js.map".toList hfront
            (hfrontLength.symm ▸ hkept)
        rw [htext] at hrespond hreference hnew
        rw [hfrontLength, hoffset] at hlength
        obtain ⟨rfl, -⟩ :=
          append_inj_of_byteLength_eq (hnew.symm.trans hnewFront) (hlength.trans hnewLength.symm)
        refine ⟨s', m, m', hrespond, hstored, hreference hintact, hm', hfile, ?_⟩
        exact (hchar (by decide)).trans (congrArg some hauthored)
  · cases hcheck

/-- A reference that begins in a comment among the arguments of a worker is kept, but goes with the
arguments: the map is stored, and nothing refers to it. -/
theorem respond_not_servesMap_comment :
    let s : PluginState := { root := ⟨"/app"⟩ }
    let fs := FileSystem.writeText {} ⟨"/app/a.js.map"⟩
      "\x7b\"version\":3,\"sources\":[],\"mappings\":\"\"\x7d"
    let body :=
      "new Worker(\"./w.js\",/*#sourceMappingURL=*/\x7btype:\"module\"\x7d)//../../a.js.map"
    ∃ text, (s.respond fs "/a.js" body true).1 = some text ∧
      (s.respond fs "/a.js" body true).2.virtualFiles.contains "/a.js.map" ∧
      ∀ front back, text.toList = front ++ back → Reference.here? back = none := by
  intro s fs body
  let text := "new Worker(\"/w.js\", \x7b\"type\":\"module\"\x7d)//../../a.js.map"
  have hresponse : (s.respond fs "/a.js" body true).1 = some text := by decide +kernel
  have hstored : (s.respond fs "/a.js" body true).2.virtualFiles.contains "/a.js.map" := by
    decide +kernel
  have hfind : Reference.find? text = none := by decide +kernel
  exact ⟨text, hresponse, hstored, fun front back h => Reference.here?_of_find?_eq_none hfind h⟩

end PluginState

end ModuleWorkers
