import ModuleWorkers.Bundle.Package
import ModuleWorkers.Proofs.SourceMap.Appended

/-!
# Maps of packaged scripts

A script is laid out in parts of whole lines: the loader, for each module its opening, its body and
its closing, and the call of the entry (`Package.parts`). A module's body is the only part that has a
map of its own, and the map of the script says of the lines of the body what that map says of them
(`Package.IsExact`). The line that the maps are moved to is counted along the way and is the number
of lines in front of the body (`Package.lineAfter_eq`); `Package.exists_addMaps` lays the modules out
one by one.
-/

namespace ModuleWorkers

namespace Package

/-! ## Counting lines -/

@[simp] theorem countLines_append (s t : String) :
    countLines (s ++ t) = countLines s + countLines t := by
  rw [countLines, String.toList_append, List.count_append]
  rfl

@[simp] theorem countLines_empty : countLines "" = 0 := rfl

/-- Line feeds are escaped between quotes. -/
theorem lineFeed_not_mem_encodeChar (c : Char) : '\n' ∉ Json.Quoted.encodeChar c := by
  have hdigit : ∀ n < 16, Json.hexDigit n ≠ '\n' := by decide
  unfold Json.Quoted.encodeChar
  cases hletter : Json.Quoted.escapeLetter? c with
  | some e =>
    have he : e ≠ '\n' := by
      unfold Json.Quoted.escapeLetter? at hletter
      split at hletter <;> cases hletter <;> decide
    simpa using he.symm
  | none =>
    dsimp only
    split
    · have hhigh := hdigit (c.toNat / 16) (by omega)
      have hlow := hdigit (c.toNat % 16) (Nat.mod_lt _ (by decide))
      simp [hhigh.symm, hlow.symm]
    · intro hmem
      cases List.mem_singleton.1 hmem
      cases hletter

theorem countLines_quote (s : String) : countLines (Json.Quoted.quote s) = 0 := by
  rw [countLines, Json.Quoted.quote, String.toList_ofList, List.count_eq_zero, Json.Quoted.encode]
  intro hmem
  rcases List.mem_append.1 hmem with hmem | hmem
  · rcases List.mem_cons.1 hmem with hquote | hmem
    · cases hquote
    · obtain ⟨c, -, hc⟩ := List.mem_flatMap.1 hmem
      exact lineFeed_not_mem_encodeChar c hc
  · cases List.mem_singleton.1 hmem

@[simp] theorem countLines_opening (id : String) : countLines (opening id) = 1 := by
  have hfront : countLines "__omt.define(" = 0 := by decide
  have hback : countLines ", function (require, module, exports) \x7b\n" = 1 := by decide
  rw [opening, countLines_append, countLines_append, countLines_quote, hfront, hback]

@[simp] theorem countLines_closing : countLines closing = 1 := by decide

theorem countLines_body (code : String) :
    countLines (body code) = countLines code + if code.endsWith "\n" then 0 else 1 := by
  unfold body
  split
  · rfl
  · exact countLines_append code "\n"

/-- The line that is counted is the one that the text gets to. -/
theorem lineAfter_eq (line : Nat) (m : PackagedModule) :
    lineAfter line m = line + countLines (wrapped m) := by
  have hbody := countLines_body m.code
  rw [wrapped, countLines_append, countLines_append, countLines_opening, countLines_closing, hbody]
  unfold lineAfter
  dsimp only
  split <;> omega

/-! ## Parts of a script -/

/-- Whole lines, and the map that they have of their own. -/
structure Part where
  text : String
  map : Option SourceMap

/-- The parts of a module. -/
def partsOf (m : PackagedModule) : List Part :=
  [⟨opening m.id, none⟩, ⟨body m.code, some m.map⟩, ⟨closing, none⟩]

/-- The parts of a script. -/
def parts (modules : List PackagedModule) (entry : Option String) : List Part :=
  ⟨lines loader, none⟩ :: modules.flatMap partsOf ++ entry.toList.map fun id => ⟨call id, none⟩

/-- The text of some parts. -/
def textOf (ps : List Part) : String := String.join (ps.map (·.text))

/-- Whether a map says of the lines of a part that starts at a line what the part's own map says of
them, and nothing if it has none. -/
def Part.IsShownAt (p : Part) (m : SourceMap) (start : Nat) : Prop :=
  ∀ l < countLines p.text, ∀ column, match p.map with
    | none => m.closest? (start + l) column = none
    | some own =>
      Option.Rel (own.Moved m start) (own.closest? l column) (m.closest? (start + l) column)

/-- Whether a map shows some parts from a line on, and nothing behind them. -/
def LaidOut (m : SourceMap) : Nat → List Part → Prop
  | line, [] => m.IsBlankFrom line
  | line, p :: ps => p.IsShownAt m line ∧ LaidOut m (line + countLines p.text) ps

theorem textOf_cons (p : Part) (ps : List Part) : textOf (p :: ps) = p.text ++ textOf ps := by
  rw [textOf, List.map_cons, String.join_cons, textOf]

theorem textOf_append (ps qs : List Part) : textOf (ps ++ qs) = textOf ps ++ textOf qs := by
  rw [textOf, List.map_append, String.join_append, textOf, textOf]

theorem textOf_partsOf (m : PackagedModule) : textOf (partsOf m) = wrapped m := by
  rw [partsOf, textOf_cons, textOf_cons, textOf_cons, wrapped, String.append_assoc]
  exact congrArg (fun s => opening m.id ++ (body m.code ++ s)) String.append_empty

theorem textOf_flatMap_partsOf (modules : List PackagedModule) :
    textOf (modules.flatMap partsOf) = String.join (modules.map wrapped) := by
  induction modules with
  | nil => rfl
  | cons m ms ih =>
    rw [List.flatMap_cons, textOf_append, textOf_partsOf, ih, List.map_cons, String.join_cons]

/-- The text of a script is that of its parts. -/
theorem textOf_parts (modules : List PackagedModule) (entry : Option String) :
    textOf (parts modules entry) = lines loader ++ String.join (modules.map wrapped) ++
      (entry.map call).getD "" := by
  rw [parts, List.cons_append, textOf_cons, textOf_append, textOf_flatMap_partsOf,
    String.append_assoc]
  cases entry with
  | none => rfl
  | some id =>
    have hcall : textOf ((some id).toList.map fun id => ⟨call id, none⟩) = call id :=
      (textOf_cons _ _).trans String.append_empty
    rw [hcall]
    rfl

theorem LaidOut.isShownAt {m : SourceMap} {line : Nat} {before after : List Part} {p : Part}
    (h : LaidOut m line (before ++ p :: after)) :
    p.IsShownAt m (line + countLines (textOf before)) := by
  induction before generalizing line with
  | nil => exact h.1
  | cons q before ih =>
    rw [textOf_cons, countLines_append, ← Nat.add_assoc]
    exact ih h.2

theorem LaidOut.isBlankFrom {m : SourceMap} {line : Nat} {ps : List Part} (h : LaidOut m line ps) :
    m.IsBlankFrom (line + countLines (textOf ps)) := by
  induction ps generalizing line with
  | nil => exact h
  | cons p ps ih =>
    rw [textOf_cons, countLines_append, ← Nat.add_assoc]
    exact ih h.2

/-- Lines without segments show parts without maps. -/
theorem LaidOut.append {m : SourceMap} {line : Nat} {ps qs : List Part} (h : LaidOut m line ps)
    (hqs : ∀ q ∈ qs, q.map = none) : LaidOut m line (ps ++ qs) := by
  induction ps generalizing line with
  | cons p ps ih => exact ⟨h.1, ih h.2⟩
  | nil =>
    have hblank : m.IsBlankFrom line := h
    rw [List.nil_append]
    clear h
    induction qs generalizing line with
    | nil => exact hblank
    | cons q qs ih =>
      obtain ⟨hq, hqs⟩ := List.forall_mem_cons.1 hqs
      refine ⟨fun l _ column => ?_, ih hqs (hblank.mono (Nat.le_add_right _ _))⟩
      rw [hq]
      exact hblank.closest?_eq_none (Nat.le_add_right _ _) column

/-! ## Maps of the modules -/

/-- Whether a module comes with a map of its code: one that the operations on maps made, relative to
a directory, with indexes in its tables and segments on the lines of the code. -/
structure IsMapped (m : PackagedModule) (mapDir : Path) : Prop where
  made : m.map.Made
  root : m.map.root = mapDir
  indexed : m.map.IsIndexed
  /-- A final line feed does not start another line. -/
  lines : ∀ s ∈ m.map.mappings, s.line < countLines (body m.code)

/-- The maps of mapped modules can be added to a map that is blank from a line on, and lay the
modules out from there. -/
theorem exists_addMaps {modules : List PackagedModule} {map : SourceMap} {line : Nat}
    (hmodules : ∀ m ∈ modules, IsMapped m map.root) (hblank : map.IsBlankFrom line) :
    ∃ map', addMaps map line modules = .ok map' ∧ map'.KeepsAbove map line ∧
      LaidOut map' line (modules.flatMap partsOf) := by
  induction modules generalizing map line with
  | nil => exact ⟨map, rfl, .refl map line, hblank⟩
  | cons m ms ih =>
    obtain ⟨hm, hms⟩ := List.forall_mem_cons.1 hmodules
    have hsorted := hm.made.isSorted
    have hbelow := hblank.mono (Nat.le_succ line)
    have hkeeps := SourceMap.keepsAbove_append hm.indexed hsorted hbelow
    have hblank₁ := SourceMap.isBlankFrom_append hm.indexed hsorted hbelow hm.lines
    have hnext : lineAfter line m = line + 1 + countLines (body m.code) + 1 := by
      rw [lineAfter_eq, wrapped, countLines_append, countLines_append, countLines_opening,
        countLines_closing]
      omega
    have hms' : ∀ m' ∈ ms, IsMapped m' (map.append m.map (line + 1)).1.root :=
      fun m' hm' => hkeeps.root ▸ hms m' hm'
    have hblank' : (map.append m.map (line + 1)).1.IsBlankFrom (lineAfter line m) :=
      hblank₁.mono (by omega)
    obtain ⟨map', hmap', hkeeps', hlaid⟩ := ih hms' hblank'
    refine ⟨map', ?_, ?_, ?_⟩
    · rw [addMaps, SourceMap.append_eq_addAll map hm.indexed]
      rw [SourceMap.append_eq_addAll map hm.indexed] at hmap'
      exact hmap'
    · exact hkeeps'.trans (hkeeps.trans (.refl map line) (Nat.le_succ line)) (by omega)
    · have hbody : line + countLines (opening m.id) = line + 1 := by rw [countLines_opening]
      have hafter : line + countLines (opening m.id) + countLines (body m.code) +
          countLines closing = lineAfter line m := by
        rw [countLines_opening, countLines_closing, hnext]
      refine ⟨fun l hl column => ?_, fun l hl column => ?_, fun l hl column => ?_, hafter ▸ hlaid⟩
      · have hl : l < 1 := countLines_opening m.id ▸ hl
        dsimp only
        rw [hkeeps'.closest?_eq (by omega), hkeeps.closest?_eq (by omega)]
        exact hblank.closest?_eq_none (Nat.le_add_right _ _) column
      · have hl : l < countLines (body m.code) := hl
        dsimp only
        rw [hbody]
        exact hkeeps'.rel_closest? hm.indexed (by omega)
          (SourceMap.rel_closest?_append hm.indexed hsorted hbelow hm.made.isRelative hm.root l
            column)
      · have hl : l < 1 := countLines_closing ▸ hl
        dsimp only
        rw [hbody, hkeeps'.closest?_eq (by omega)]
        exact hblank₁.closest?_eq_none (Nat.le_add_right _ _) column

/-! ## Scripts -/

/-- The text in front of the body of a module that follows others. -/
def front (before : List PackagedModule) (m : PackagedModule) : String :=
  lines loader ++ String.join (before.map wrapped) ++ opening m.id

/-- Whether the map of a script says exactly what the maps of its modules say. -/
structure IsExact (modules : List PackagedModule) (entry : Option String) (p : Package) : Prop where
  code : p.code = textOf (parts modules entry)
  /-- The body of each module stands behind its front, and its map holds that many lines further
  down. -/
  body : ∀ before m after, modules = before ++ m :: after →
    (∃ back, p.code = front before m ++ body m.code ++ back) ∧
      ∀ l < countLines (body m.code), ∀ column,
        Option.Rel (m.map.Moved p.map (countLines (front before m))) (m.map.closest? l column)
          (p.map.closest? (countLines (front before m) + l) column)
  /-- There are no segments on the lines of the loader, around the bodies, and of the call. -/
  around : ∀ before part after, parts modules entry = before ++ part :: after → part.map = none →
    ∀ l < countLines part.text, ∀ column,
      p.map.closest? (countLines (textOf before) + l) column = none
  behind : p.map.IsBlankFrom (countLines p.code)

theorem laidOut_parts {modules : List PackagedModule} {mapDir : Path} {map : SourceMap}
    (hkeeps : map.KeepsAbove (.empty mapDir) (countLines (lines loader)))
    (hlaid : LaidOut map (countLines (lines loader)) (modules.flatMap partsOf))
    (entry : Option String) : LaidOut map 0 (parts modules entry) := by
  refine ⟨fun l hl column => ?_, ?_⟩
  · have hl : l < countLines (lines loader) := hl
    dsimp only
    rw [Nat.zero_add, hkeeps.closest?_eq hl]
    rfl
  · rw [Nat.zero_add]
    refine hlaid.append fun q hq => ?_
    obtain ⟨id, -, rfl⟩ := List.mem_map.1 hq
    rfl

/-- The parts up to the body of a module, and those behind it. -/
theorem parts_eq (before : List PackagedModule) (m : PackagedModule)
    (after : List PackagedModule) (entry : Option String) :
    ∃ front' back', parts (before ++ m :: after) entry =
      front' ++ ⟨body m.code, some m.map⟩ :: back' ∧ textOf front' = front before m := by
  refine ⟨⟨lines loader, none⟩ :: (before.flatMap partsOf ++ [⟨opening m.id, none⟩]),
    ⟨closing, none⟩ :: (after.flatMap partsOf ++ entry.toList.map fun id => ⟨call id, none⟩),
    ?_, ?_⟩
  · rw [parts, List.flatMap_append, List.flatMap_cons, partsOf]
    simp only [List.cons_append, List.append_assoc, List.nil_append]
  · have hopening : textOf [⟨opening m.id, none⟩] = opening m.id :=
      (textOf_cons _ _).trans String.append_empty
    rw [textOf_cons, textOf_append, textOf_flatMap_partsOf, hopening, front, String.append_assoc]

/-- Mapped modules can be packaged, with or without an entry, and the map of the script is exact. -/
theorem exists_ofModules_isExact {modules : List PackagedModule} {mapDir : Path}
    (h : ∀ m ∈ modules, IsMapped m mapDir) (entry : Option String) :
    ∃ p, ofModules modules entry mapDir = .ok p ∧ IsExact modules entry p := by
  have hmapped : ∀ m ∈ modules, IsMapped m (SourceMap.empty mapDir).root := h
  have hblank : (SourceMap.empty mapDir).IsBlankFrom (countLines (lines loader)) := fun k _ => rfl
  obtain ⟨map, hmap, hkeeps, hlaid⟩ := exists_addMaps hmapped hblank
  have hparts := laidOut_parts hkeeps hlaid entry
  refine ⟨⟨lines loader ++ String.join (modules.map wrapped) ++ (entry.map call).getD "", map⟩, ?_,
    (textOf_parts modules entry).symm, ?_, ?_, ?_⟩
  · rw [ofModules, hmap]
    rfl
  · rintro before m after rfl
    obtain ⟨front', back', hsplit, hfront⟩ := parts_eq before m after entry
    refine ⟨⟨textOf back', ?_⟩, fun l hl column => ?_⟩
    · dsimp only
      rw [← textOf_parts, hsplit, textOf_append, textOf_cons, hfront, String.append_assoc]
    · rw [hsplit] at hparts
      have hshown := hparts.isShownAt l hl column
      rwa [Nat.zero_add, hfront] at hshown
  · intro before part after hsplit hnone l hl column
    rw [hsplit] at hparts
    have hshown := hparts.isShownAt l hl column
    rwa [Nat.zero_add, hnone] at hshown
  · have := hparts.isBlankFrom
    rwa [Nat.zero_add, textOf_parts] at this

/-- A module of the directory `/app` with segments at some places, which come from there. -/
def mappedModule (path code : String) (places : List (Nat × Nat)) : PackagedModule where
  id := path
  code
  map := (((SourceMap.empty ⟨"/app"⟩).addSource ("/app/" ++ path)).2).addAll
    (places.map fun place => ⟨place.1, place.2, some ⟨0, place.1, place.2, none⟩⟩)

def withoutLineFeed : PackagedModule := mappedModule "dep.js" "exports.x = 1;" [(0, 8)]

def withoutCode : PackagedModule := mappedModule "empty.js" "" []

def withLineFeed : PackagedModule := mappedModule "main.js" "a;\nb;\n" [(0, 0), (1, 0)]

def threeModules : List PackagedModule := [withoutLineFeed, withoutCode, withLineFeed]

theorem isMapped_mappedModule {path code : String} {places : List (Nat × Nat)}
    (hindexed : (mappedModule path code places).map.IsIndexed)
    (hlines : ∀ s ∈ (mappedModule path code places).map.mappings, s.line < countLines (body code)) :
    IsMapped (mappedModule path code places) ⟨"/app"⟩ where
  made := (SourceMap.Made.addSource _ (.empty _)).addAll _
  root := by
    rw [mappedModule, SourceMap.addAll_eq]
    exact (SourceMap.extends_addSource _ _).root
  indexed := hindexed
  lines := hlines

/-- The last module, whose second line is that much further down in the script. -/
theorem exists_ofModules_isExact_threeModules :
    (∀ m ∈ threeModules, IsMapped m ⟨"/app"⟩) ∧
      ∃ p, ofModules threeModules (some "main.js") ⟨"/app"⟩ = .ok p ∧
        (p.map.closest? (countLines (front [withoutLineFeed, withoutCode] withLineFeed) + 1) 1).map
            (fun t => (t.column, t.location.map p.map.origin?)) =
          some (0, some (some ⟨"main.js", 1, 0, none⟩)) := by
  have hmapped : ∀ m ∈ threeModules, IsMapped m ⟨"/app"⟩ := by
    intro m hm
    simp only [threeModules, List.mem_cons, List.not_mem_nil, or_false] at hm
    rcases hm with rfl | rfl | rfl
    · exact isMapped_mappedModule (by decide +kernel) (by decide +kernel)
    · exact isMapped_mappedModule (by decide +kernel) (by decide +kernel)
    · exact isMapped_mappedModule (by decide +kernel) (by decide +kernel)
  obtain ⟨p, hp, hexact⟩ := exists_ofModules_isExact hmapped (some "main.js")
  refine ⟨hmapped, p, hp, ?_⟩
  have hown : withLineFeed.map.closest? 1 1 = some ⟨1, 0, some ⟨0, 1, 0, none⟩⟩ := by
    decide +kernel
  have horigin : withLineFeed.map.origin? ⟨0, 1, 0, none⟩ = some ⟨"main.js", 1, 0, none⟩ := by
    decide +kernel
  have hrel := (hexact.body [withoutLineFeed, withoutCode] withLineFeed [] rfl).2 1
    (by decide +kernel) 1
  rw [hown] at hrel
  generalize p.map.closest? _ 1 = found at hrel ⊢
  cases hrel with
  | some hmoved => rw [Option.map_some, hmoved.column, hmoved.origin, Option.map_some, horigin]

end Package

end ModuleWorkers
