import ModuleWorkers.Proofs.SourceMap.Made

/-!
# Maps below each other

A map that is appended behind the last line of another one says there what it said on its own
(`SourceMap.rel_closest?_append`): the closest segment of a line that was moved down starts at the
same column and stands for the same place. What the map above had stays as it was
(`SourceMap.keepsAbove_append`), its lines and what its locations stand for.
-/

namespace ModuleWorkers.SourceMap

variable {m other : SourceMap} {offset : Nat}

/-- Whether there are no segments on a line and those that follow it. -/
def IsBlankFrom (m : SourceMap) (line : Nat) : Prop := ∀ k, line ≤ k → (m.lineAt k).segments = #[]

/-- Whether a segment is one of another map, on a line further down. -/
structure Moved (other m : SourceMap) (offset : Nat) (s t : Mapping) : Prop where
  line : t.line = offset + s.line
  column : t.column = s.column
  origin : t.location.map m.origin? = s.location.map other.origin?

/-- Whether all that a map has above a line stays as it is in another one. -/
structure KeepsAbove (m' m : SourceMap) (line : Nat) : Prop where
  root : m'.root = m.root
  lineAt : ∀ k < line, m'.lineAt k = m.lineAt k
  origin? : ∀ o x, m.origin? o = some x → m'.origin? o = some x

theorem KeepsAbove.refl (m : SourceMap) (line : Nat) : m.KeepsAbove m line :=
  ⟨rfl, fun _ _ => rfl, fun _ _ => id⟩

theorem KeepsAbove.trans {m'' m' m : SourceMap} {line line' : Nat} (h' : m''.KeepsAbove m' line')
    (h : m'.KeepsAbove m line) (hle : line ≤ line') : m''.KeepsAbove m line where
  root := h'.root.trans h.root
  lineAt k hk := (h'.lineAt k (Nat.lt_of_lt_of_le hk hle)).trans (h.lineAt k hk)
  origin? o x ho := h'.origin? o x (h.origin? o x ho)

theorem KeepsAbove.closest?_eq {m' m : SourceMap} {line : Nat} (h : m'.KeepsAbove m line) {k : Nat}
    (hk : k < line) (column : Nat) : m'.closest? k column = m.closest? k column := by
  rw [closest?_eq_map_lineAt, closest?_eq_map_lineAt, h.lineAt k hk]

/-- A segment that was moved still stands for the same place when more is added. -/
theorem Moved.mono {m' : SourceMap} {line : Nat} {s t : Mapping} (h : Moved other m offset s t)
    (hs : ∀ o ∈ s.location, other.Locates o) (hm : m'.KeepsAbove m line) :
    Moved other m' offset s t := by
  refine ⟨h.line, h.column, ?_⟩
  have horigin := h.origin
  cases hsome : s.location with
  | none =>
    rw [hsome] at horigin
    rw [Option.map_eq_none_iff.1 horigin]
    rfl
  | some o =>
    obtain ⟨x, hx⟩ := (hs o hsome).exists_origin?
    rw [hsome, Option.map_some, hx] at horigin
    obtain ⟨o', ho', hx'⟩ := Option.map_eq_some_iff.1 horigin
    rw [ho', Option.map_some, Option.map_some, hm.origin? o' x hx', hx]

/-- What a line says that was moved it still says when more is added below it. -/
theorem KeepsAbove.rel_closest? {m' : SourceMap} {line : Nat} (hm : m'.KeepsAbove m line)
    (hother : other.IsIndexed) {l : Nat} (hl : offset + l < line) {column : Nat}
    (h : Option.Rel (Moved other m offset) (other.closest? l column)
      (m.closest? (offset + l) column)) :
    Option.Rel (Moved other m' offset) (other.closest? l column)
      (m'.closest? (offset + l) column) := by
  rw [hm.closest?_eq hl]
  generalize m.closest? (offset + l) column = found at h ⊢
  cases hs : other.closest? l column with
  | none =>
    rw [hs] at h
    cases h
    exact .none
  | some s =>
    rw [hs] at h
    cases h with
    | some hst => exact .some (hst.mono (hother s (mem_mappings_of_closest? hs)) hm)

theorem IsBlankFrom.mono {line line' : Nat} (h : m.IsBlankFrom line) (hle : line ≤ line') :
    m.IsBlankFrom line' := fun k hk => h k (Nat.le_trans hle hk)

theorem IsBlankFrom.closest?_eq_none {line k : Nat} (h : m.IsBlankFrom line) (hk : line ≤ k)
    (column : Nat) : m.closest? k column = none := by
  have hline : m.lineAt k = ⟨#[]⟩ := congrArg Line.mk (h k hk)
  rw [closest?_eq_map_lineAt, hline, Line.closest?_empty]
  rfl

theorem origin?_addAll (m : SourceMap) (ss : List Mapping) (o : Location) :
    (m.addAll ss).origin? o = m.origin? o := by
  rw [addAll_eq]
  rfl

/-! ## Tables -/

theorem append_eq_addAll (m : SourceMap) (hother : other.IsIndexed) (offset : Nat) :
    m.append other offset = ((m.mergeTables other).2.addAll
      (other.mappings.map ((m.mergeTables other).1.moveDown offset)), .ok ()) := by
  refine addMappings_eq_addAll fun s hs o ho => ?_
  obtain ⟨x, hx⟩ := (hother s hs o ho).exists_origin?
  obtain ⟨o', ho', -⟩ := (leads_mergeTables m other).exists_apply hx
  exact ⟨o', ho'⟩

/-- A source of a map of the same root directory keeps its path. -/
theorem relativeTo_of_origin? (hrelative : other.IsRelative) (hroot : other.root = m.root)
    {o : Location} {x : Origin} (h : other.origin? o = some x) : x.relativeTo m.root = x := by
  obtain ⟨hsource, -⟩ := origin?_eq_some_iff.1 h
  obtain ⟨s, hs, hpath⟩ := Option.map_eq_some_iff.1 hsource
  have := hrelative s (List.mem_of_getElem? hs)
  rw [hroot, hpath] at this
  rw [Origin.relativeTo, this]

/-- A location with its indexes moved stands for the same place. -/
theorem map_origin?_move (hrelative : other.IsRelative) (hroot : other.root = m.root)
    {o : Option Location} (ho : ∀ x ∈ o, other.Locates x) :
    ((m.mergeTables other).1.move o).map (m.mergeTables other).2.origin? =
      o.map other.origin? := by
  cases o with
  | none => rfl
  | some o =>
    obtain ⟨x, hx⟩ := (ho o rfl).exists_origin?
    obtain ⟨o', happly, ho'⟩ := (leads_mergeTables m other).exists_apply hx
    rw [(extends_mergeTables m other).root, relativeTo_of_origin? hrelative hroot hx] at ho'
    simp only [Reindexing.move, Option.map_some, happly, hx]
    exact congrArg some ho'

/-! ## Lines -/

section

variable (hother : other.IsIndexed) (hsorted : other.IsSorted) (hblank : m.IsBlankFrom offset)

include hother hsorted hblank

/-- The lines of the map above, and those of the map below moved down. -/
theorem toList_lineAt_append (k : Nat) :
    ((m.append other offset).1.lineAt k).segments.toList = (m.lineAt k).segments.toList ++
      (other.mappings.filter (·.line + offset = k)).map
        fun s => ((m.mergeTables other).1.moveDown offset s).segment := by
  have hlines : ∀ j, (m.mergeTables other).2.lineAt j = m.lineAt j := by
    intro j
    rw [lineAt, (extends_mergeTables m other).lines, lineAt]
  rw [append_eq_addAll m hother, toList_lineAt_addAll, hlines, List.filter_map, List.map_map]
  · rfl
  · refine List.pairwise_map.2 (pairwise_mappings (fun j => (hsorted j).imp ?_) ?_)
    · exact fun hst _ => hst
    · intro s t hst heq
      have : s.line + offset = t.line + offset := heq
      omega
  · intro s hs t ht
    obtain ⟨s₀, -, rfl⟩ := List.mem_map.1 hs
    have hempty := hblank (s₀.line + offset) (Nat.le_add_left _ _)
    rw [hlines] at ht
    have ht' : t ∈ (m.lineAt (s₀.line + offset)).segments.toList := ht
    rw [hempty] at ht'
    cases ht'

theorem lineAt_append_of_lt {k : Nat} (hk : k < offset) :
    (m.append other offset).1.lineAt k = m.lineAt k := by
  have hnone : other.mappings.filter (·.line + offset = k) = [] := by
    rw [List.filter_eq_nil_iff]
    intro s _ hs
    have := of_decide_eq_true hs
    omega
  have := toList_lineAt_append hother hsorted hblank k
  rw [hnone, List.map_nil, List.append_nil] at this
  exact congrArg Line.mk (Array.toList_inj.1 this)

theorem keepsAbove_append : (m.append other offset).1.KeepsAbove m offset where
  root := by
    rw [append_eq_addAll m hother, addAll_eq]
    exact (extends_mergeTables m other).root
  lineAt k hk := lineAt_append_of_lt hother hsorted hblank hk
  origin? o x ho := by
    rw [append_eq_addAll m hother, origin?_addAll]
    exact (extends_mergeTables m other).origin?_eq ho

theorem segments_lineAt_append (l : Nat) :
    ((m.append other offset).1.lineAt (offset + l)).segments =
      (other.lineAt l).segments.map
        fun s => { s with location := (m.mergeTables other).1.move s.location } := by
  have hline : other.mappings.filter (·.line + offset = offset + l) =
      other.mappings.filter (·.line = l) := by
    refine List.filter_congr fun s _ => decide_eq_decide.2 ?_
    omega
  rw [← Array.toList_inj, toList_lineAt_append hother hsorted hblank,
    hblank (offset + l) (Nat.le_add_right _ _), hline, Array.toList_map,
    ← map_segment_filter_mappings, List.map_map]
  rfl

theorem isBlankFrom_append {n : Nat} (hn : ∀ s ∈ other.mappings, s.line < n) :
    (m.append other offset).1.IsBlankFrom (offset + n) := by
  intro k hk
  obtain ⟨l, rfl⟩ := Nat.exists_eq_add_of_le (Nat.le_of_add_right_le hk)
  rw [segments_lineAt_append hother hsorted hblank, Array.map_eq_empty_iff]
  refine Array.eq_empty_iff_forall_not_mem.2 fun s hs => ?_
  have := hn (s.onLine l) (mem_mappings.2 hs)
  have hline : (s.onLine l).line = l := rfl
  omega

/-- A line that was moved down says what it said. -/
theorem rel_closest?_append (hrelative : other.IsRelative) (hroot : other.root = m.root)
    (l column : Nat) :
    Option.Rel (Moved other (m.append other offset).1 offset) (other.closest? l column)
      ((m.append other offset).1.closest? (offset + l) column) := by
  let f : Segment → Segment := fun s =>
    { s with location := (m.mergeTables other).1.move s.location }
  have hcolumn : ∀ s, (f s).column = s.column := fun _ => rfl
  have hline : (m.append other offset).1.closest? (offset + l) column =
      (((other.lineAt l).closest? column).map f).map (·.onLine (offset + l)) := by
    rw [closest?_eq_map_lineAt,
      Line.closest?_map hcolumn (segments_lineAt_append hother hsorted hblank l)]
  rw [hline, closest?_eq_map_lineAt]
  cases hs : (other.lineAt l).closest? column with
  | none => exact .none
  | some s =>
    refine .some ⟨rfl, rfl, ?_⟩
    have hmem : s.onLine l ∈ other.mappings := mem_mappings.2 (Line.mem_of_closest? hs)
    have horigin := map_origin?_move hrelative hroot (hother _ hmem)
    have horigins : (m.append other offset).1.origin? = (m.mergeTables other).2.origin? := by
      rw [append_eq_addAll m hother]
      exact funext (origin?_addAll _ _)
    rw [horigins]
    exact horigin

end

end ModuleWorkers.SourceMap
