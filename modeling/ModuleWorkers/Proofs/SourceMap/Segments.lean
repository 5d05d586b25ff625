import ModuleWorkers.Proofs.SourceMap.Lines
import ModuleWorkers.SourceMap.Basic

/-!
# Segments of a map

A map is read line by line: `SourceMap.lineAt` is a line with its segments, an empty one where the
map ends before. `lineAt_addMapping` says what one added segment changes, and `toList_lineAt_addAll`
what many do that come in the order of their columns. The segments of a sorted map make the same lines
again (`IsSorted.lines_addAll_mappings`). On a sorted map `closest?` is the last segment at or before
a column (`IsSorted.closest?_eq`), and where no other segment starts at the same place
it is the one that starts there (`IsSorted.closest?_of_mem`).
-/

namespace ModuleWorkers

/-- A segment without its line. -/
def Mapping.segment (s : Mapping) : Segment := ⟨s.column, s.location⟩

/-- Whether a segment starts in front of another one. -/
def Mapping.Before (s t : Mapping) : Prop := s.line < t.line ∨ s.line = t.line ∧ s.column < t.column

/-- A segment of a line. -/
def Segment.onLine (line : Nat) (s : Segment) : Mapping := ⟨line, s.column, s.location⟩

namespace SourceMap

/-- The line of a number, which is empty if the map ends before it. -/
def lineAt (m : SourceMap) (k : Nat) : Line := m.lines[k]?.getD ⟨#[]⟩

/-- Whether the segments of each line are in the order of their columns. -/
def IsSorted (m : SourceMap) : Prop := ∀ k, (m.lineAt k).IsSorted

/-- Adds segments one after the other. -/
def addAll (m : SourceMap) (ss : List Mapping) : SourceMap :=
  ss.foldl (fun m s => m.addMapping s.line s.column s.location) m

theorem closest?_eq_map_lineAt (m : SourceMap) (line column : Nat) :
    m.closest? line column = ((m.lineAt line).closest? column).map (·.onLine line) := by
  unfold closest? lineAt
  cases m.lines[line]? with
  | none =>
    rw [Option.getD_none, Line.closest?_empty]
    rfl
  | some l =>
    simp only [Option.bind_eq_bind, Option.bind_some, Option.getD_some, Option.pure_def]
    cases l.closest? column <;> rfl

/-- The closest segment is the last one of those that start at or before the column. -/
theorem IsSorted.closest?_eq {m : SourceMap} (h : m.IsSorted) (line column : Nat) :
    m.closest? line column =
      ((m.lineAt line).segments.toList.filter (·.column ≤ column)).getLast?.map (·.onLine line) := by
  rw [closest?_eq_map_lineAt, (h line).closest?_eq_closestByScan? column, Line.closestByScan?]

/-! ## All segments -/

theorem mappings_eq_flatMap (m : SourceMap) :
    m.mappings = (List.range m.lines.size).flatMap fun k =>
      (m.lineAt k).segments.toList.map (·.onLine k) := by
  have hlines : m.lines.toList.zipIdx =
      (List.range m.lines.size).map fun k => (m.lineAt k, k) := by
    refine List.ext_getElem (by simp) ?_
    intro k hk hk'
    have hsize : k < m.lines.size := by simpa using hk
    simp [lineAt, hsize]
  rw [mappings, hlines, List.flatMap_map]
  rfl

/-- The segments of one line. -/
theorem map_segment_filter_mappings (m : SourceMap) (k : Nat) :
    (m.mappings.filter (·.line = k)).map Mapping.segment = (m.lineAt k).segments.toList := by
  have hlines : ∀ (ls : List Line) (start : Nat),
      (((ls.zipIdx start).flatMap fun p => p.1.segments.toList.map (·.onLine p.2)).filter
        (·.line = k)).map Mapping.segment =
        if k < start then [] else (ls[k - start]?.getD ⟨#[]⟩).segments.toList := by
    intro ls
    induction ls with
    | nil => simp
    | cons l ls ih =>
      intro start
      rw [List.zipIdx_cons, List.flatMap_cons, List.filter_append, List.map_append, ih]
      rcases Nat.lt_trichotomy k start with hlt | rfl | hlt
      · have hne : start ≠ k := by omega
        rw [if_pos (by omega), if_pos hlt]
        simp [Segment.onLine, hne]
      · simp [Segment.onLine, Mapping.segment, Function.comp_def, List.filter_map]
      · have hne : start ≠ k := by omega
        have hnext : k - start = k - (start + 1) + 1 := by omega
        rw [if_neg (by omega), if_neg (by omega), hnext, List.getElem?_cons_succ]
        simp [Segment.onLine, hne]
  have := hlines m.lines.toList 0
  rw [if_neg (Nat.not_lt_zero k), Nat.sub_zero, Array.getElem?_toList] at this
  exact this

theorem mem_mappings {m : SourceMap} {s : Mapping} :
    s ∈ m.mappings ↔ s.segment ∈ (m.lineAt s.line).segments := by
  rw [mappings_eq_flatMap, List.mem_flatMap]
  constructor
  · rintro ⟨k, -, hk⟩
    obtain ⟨t, ht, rfl⟩ := List.mem_map.1 hk
    exact Array.mem_toList_iff.1 ht
  · intro hs
    have hline : s.line < m.lines.size := by
      by_contra hle
      rw [lineAt, Array.getElem?_eq_none (Nat.le_of_not_lt hle)] at hs
      exact absurd hs (Array.not_mem_empty _)
    exact ⟨s.line, List.mem_range.2 hline, List.mem_map.2 ⟨_, Array.mem_toList_iff.2 hs, rfl⟩⟩

theorem exists_onLine_mem_mappings {m : SourceMap} {l : Line} (hl : l ∈ m.lines) {s : Segment}
    (hs : s ∈ l.segments) : ∃ k, s.onLine k ∈ m.mappings := by
  obtain ⟨k, hk, hline⟩ := Array.mem_iff_getElem.1 hl
  have hlineAt : m.lineAt k = l := by
    rw [lineAt, Array.getElem?_eq_getElem hk, hline, Option.getD_some]
  refine ⟨k, mem_mappings.2 ?_⟩
  rw [Segment.onLine, hlineAt]
  exact hs

theorem mem_mappings_of_closest? {m : SourceMap} {line column : Nat} {s : Mapping}
    (h : m.closest? line column = some s) : s ∈ m.mappings := by
  rw [closest?_eq_map_lineAt] at h
  obtain ⟨t, ht, rfl⟩ := Option.map_eq_some_iff.1 h
  exact mem_mappings.2 (Line.mem_of_closest? ht)

/-- There is no closest segment exactly if all segments of the line start behind the column. -/
theorem IsSorted.closest?_eq_none_iff {m : SourceMap} (h : m.IsSorted) {line column : Nat} :
    m.closest? line column = none ↔ ∀ s ∈ m.mappings, s.line = line → column < s.column := by
  rw [h.closest?_eq, Option.map_eq_none_iff, List.getLast?_eq_none_iff, List.filter_eq_nil_iff]
  constructor
  · rintro hnone s hs rfl
    have := hnone s.segment (Array.mem_toList_iff.2 (mem_mappings.1 hs))
    exact Nat.lt_of_not_le fun hle => this (decide_eq_true hle)
  · intro hall s hs
    have hlt : column < s.column :=
      hall (s.onLine line) (mem_mappings.2 (Array.mem_toList_iff.1 hs)) rfl
    exact fun hle => Nat.not_le_of_lt hlt (of_decide_eq_true hle)

/-- Segments are listed from line to line. -/
theorem pairwise_mappings {m : SourceMap} {r : Mapping → Mapping → Prop}
    (hline : ∀ k, (m.lineAt k).segments.toList.Pairwise fun s t => r (s.onLine k) (t.onLine k))
    (hlines : ∀ s t : Mapping, s.line < t.line → r s t) : m.mappings.Pairwise r := by
  rw [mappings_eq_flatMap, List.pairwise_flatMap]
  refine ⟨fun k _ => List.pairwise_map.2 (hline k), ?_⟩
  refine List.pairwise_lt_range.imp fun {j k} hjk s hs t ht => hlines s t ?_
  obtain ⟨_, -, rfl⟩ := List.mem_map.1 hs
  obtain ⟨_, -, rfl⟩ := List.mem_map.1 ht
  exact hjk

/-! ## Changing locations -/

/-- Changes the locations of all segments. -/
def mapLocations (m : SourceMap) (f : Option Location → Option Location) : SourceMap :=
  { m with
    lines := m.lines.map fun l => ⟨l.segments.map fun s => { s with location := f s.location }⟩ }

theorem lineAt_mapLocations (m : SourceMap) (f : Option Location → Option Location) (k : Nat) :
    (m.mapLocations f).lineAt k =
      ⟨(m.lineAt k).segments.map fun s => { s with location := f s.location }⟩ := by
  unfold lineAt mapLocations
  simp only [Array.getElem?_map]
  cases m.lines[k]? with
  | none => rw [Option.map_none, Option.getD_none, Array.map_empty]
  | some l => rfl

theorem closest?_mapLocations (m : SourceMap) (f : Option Location → Option Location)
    (line column : Nat) :
    (m.mapLocations f).closest? line column =
      (m.closest? line column).map fun s => { s with location := f s.location } := by
  let g : Segment → Segment := fun s => { s with location := f s.location }
  have hl : ((m.mapLocations f).lineAt line).segments = (m.lineAt line).segments.map g := by
    rw [lineAt_mapLocations]
  have hcolumn : ∀ s, (g s).column = s.column := fun _ => rfl
  rw [closest?_eq_map_lineAt, closest?_eq_map_lineAt, Line.closest?_map hcolumn hl, Option.map_map,
    Option.map_map]
  rfl

theorem IsSorted.mapLocations {m : SourceMap} (h : m.IsSorted)
    (f : Option Location → Option Location) : (m.mapLocations f).IsSorted := by
  intro k
  rw [lineAt_mapLocations, Line.IsSorted, Array.toList_map, List.pairwise_map]
  exact h k

theorem mappings_mapLocations (m : SourceMap) (f : Option Location → Option Location) :
    (m.mapLocations f).mappings = m.mappings.map fun s => { s with location := f s.location } := by
  unfold mappings mapLocations
  simp only [Array.toList_map, List.zipIdx_map, List.flatMap_map, List.map_flatMap]
  refine congrArg (List.flatMap · _) (funext fun l => ?_)
  simp only [Prod.map_fst, Prod.map_snd, Array.toList_map, List.map_map]
  rfl

/-! ## Adding segments -/

theorem lineAt_addMapping (m : SourceMap) (line column : Nat) (location : Option Location)
    (k : Nat) :
    (m.addMapping line column location).lineAt k =
      if line = k then (m.lineAt k).add ⟨column, location⟩ else m.lineAt k := by
  have hfilled : (m.lines ++ Array.replicate (line + 1 - m.lines.size) (⟨#[]⟩ : Line))[k]?.getD ⟨#[]⟩
      = m.lineAt k := by
    unfold lineAt
    rw [Array.getElem?_append, Array.getElem?_replicate]
    split
    · rfl
    · rename_i hk
      rw [Array.getElem?_eq_none (Nat.le_of_not_lt hk)]
      split <;> rfl
  rw [← hfilled]
  unfold lineAt addMapping
  simp only
  rw [Array.getElem?_modify]
  split
  · rename_i hk
    subst hk
    rw [Array.getElem?_eq_getElem (by rw [Array.size_append, Array.size_replicate]; omega)]
    rfl
  · rfl

theorem IsSorted.addMapping {m : SourceMap} (h : m.IsSorted) (line column : Nat)
    (location : Option Location) : (m.addMapping line column location).IsSorted := by
  intro k
  rw [lineAt_addMapping]
  split
  · exact (h k).add _
  · exact h k

theorem isSorted_of_lines_eq_empty {m : SourceMap} (h : m.lines = #[]) : m.IsSorted := by
  intro k
  rw [lineAt, h]
  exact Line.IsSorted.empty

/-- Segments change nothing but lines. -/
theorem addAll_eq (m : SourceMap) (ss : List Mapping) :
    m.addAll ss = { m with lines := (m.addAll ss).lines } := by
  induction ss generalizing m with
  | nil => rfl
  | cons s ss ih => exact ih (m.addMapping s.line s.column s.location)

/-- Segments that come in the order of their columns are appended to their lines. -/
theorem toList_lineAt_addAll {ss : List Mapping} {m : SourceMap}
    (hss : ss.Pairwise fun s t => s.line = t.line → s.column ≤ t.column)
    (hm : ∀ s ∈ ss, ∀ t ∈ (m.lineAt s.line).segments.toList, t.column ≤ s.column) (k : Nat) :
    ((m.addAll ss).lineAt k).segments.toList =
      (m.lineAt k).segments.toList ++ (ss.filter (·.line = k)).map Mapping.segment := by
  induction ss generalizing m with
  | nil => simp [addAll]
  | cons s ss ih =>
    obtain ⟨hs, hss⟩ := List.pairwise_cons.1 hss
    have hline : ∀ j, ((m.addMapping s.line s.column s.location).lineAt j).segments.toList =
        (m.lineAt j).segments.toList ++ if s.line = j then [s.segment] else [] := by
      intro j
      rw [lineAt_addMapping]
      split
      · rename_i hj
        subst hj
        exact Line.toList_add_of_forall_le (hm s List.mem_cons_self)
      · rw [List.append_nil]
    have hm' : ∀ t ∈ ss,
        ∀ u ∈ ((m.addMapping s.line s.column s.location).lineAt t.line).segments.toList,
          u.column ≤ t.column := by
      intro t ht u hu
      rw [hline, List.mem_append] at hu
      rcases hu with hu | hu
      · exact hm t (List.mem_cons_of_mem _ ht) u hu
      · split at hu
        · rename_i hst
          cases List.mem_singleton.1 hu
          exact hs t ht hst
        · cases hu
    change ((addAll _ ss).lineAt k).segments.toList = _
    rw [ih hss hm', hline, List.append_assoc, List.filter_cons]
    split <;> simp_all

/-- A segment that starts at a place is the closest one if no two start at one place of its line. -/
theorem IsSorted.closest?_of_mem {m : SourceMap} (h : m.IsSorted) {s : Mapping}
    (hs : s ∈ m.mappings)
    (hline : (m.lineAt s.line).segments.toList.Pairwise (·.column < ·.column)) :
    m.closest? s.line s.column = some s := by
  obtain ⟨front, back, hsplit⟩ :=
    List.append_of_mem (Array.mem_toList_iff.2 (mem_mappings.1 hs))
  rw [h.closest?_eq, hsplit]
  rw [hsplit, List.pairwise_append, List.pairwise_cons] at hline
  obtain ⟨-, ⟨hback, -⟩, hfront⟩ := hline
  have hfilter : (front ++ s.segment :: back).filter (·.column ≤ s.column) =
      front ++ [s.segment] := by
    have hself : decide (s.segment.column ≤ s.column) = true :=
      decide_eq_true (Nat.le_refl s.column)
    rw [List.filter_append, List.filter_cons, if_pos hself, List.filter_eq_self.2,
      List.filter_eq_nil_iff.2]
    · intro t ht
      have hlt : s.column < t.column := hback t ht
      simp only [decide_eq_true_eq]
      omega
    · intro t ht
      exact decide_eq_true (Nat.le_of_lt (hfront t ht _ List.mem_cons_self))
  rw [hfilter, List.getLast?_concat]
  rfl

theorem isSorted_addAll {m : SourceMap} (h : m.IsSorted) (ss : List Mapping) :
    (m.addAll ss).IsSorted := by
  induction ss generalizing m with
  | nil => exact h
  | cons s ss ih => exact ih (h.addMapping s.line s.column s.location)

theorem IsSorted.mem_mappings_addMapping {m : SourceMap} (h : m.IsSorted) {s t : Mapping} :
    s ∈ (m.addMapping t.line t.column t.location).mappings ↔ s = t ∨ s ∈ m.mappings := by
  rw [mem_mappings, mem_mappings, lineAt_addMapping]
  by_cases hline : t.line = s.line
  · have heq : s.segment = ⟨t.column, t.location⟩ ↔ s = t := by
      cases s
      cases t
      simp_all [Mapping.segment]
    rw [if_pos hline, (h s.line).mem_add, heq]
  · have hne : s ≠ t := fun hst => hline (congrArg Mapping.line hst.symm)
    rw [if_neg hline]
    simp [hne]

theorem IsSorted.mem_mappings_addAll {m : SourceMap} (h : m.IsSorted) {ss : List Mapping}
    {s : Mapping} : s ∈ (m.addAll ss).mappings ↔ s ∈ m.mappings ∨ s ∈ ss := by
  induction ss generalizing m with
  | nil => simp [addAll]
  | cons t ss ih =>
    have hadd := ih (h.addMapping t.line t.column t.location)
    rw [h.mem_mappings_addMapping] at hadd
    change s ∈ ((m.addMapping t.line t.column t.location).addAll ss).mappings ↔ _
    rw [hadd, List.mem_cons]
    tauto

/-- The segments of a sorted map make the same lines again. -/
theorem IsSorted.lineAt_addAll_mappings {m : SourceMap} (h : m.IsSorted) {m₀ : SourceMap}
    (hm₀ : m₀.lines = #[]) (k : Nat) : (m₀.addAll m.mappings).lineAt k = m.lineAt k := by
  have hempty : ∀ j, (m₀.lineAt j).segments.toList = [] := by
    intro j
    rw [lineAt, hm₀]
    rfl
  have hordered : m.mappings.Pairwise fun s t => s.line = t.line → s.column ≤ t.column := by
    refine pairwise_mappings (fun k => (h k).imp fun {s t} hst _ => ?_) fun s t hst heq => ?_
    · exact hst
    · omega
  have hline : ((m₀.addAll m.mappings).lineAt k).segments.toList =
      (m.lineAt k).segments.toList := by
    rw [toList_lineAt_addAll hordered (fun s _ t ht => by rw [hempty] at ht; cases ht), hempty,
      List.nil_append, map_segment_filter_mappings]
  exact congrArg Line.mk (Array.toList_inj.1 hline)

theorem IsSorted.closest?_addAll_mappings {m : SourceMap} (h : m.IsSorted) {m₀ : SourceMap}
    (hm₀ : m₀.lines = #[]) (line column : Nat) :
    (m₀.addAll m.mappings).closest? line column = m.closest? line column := by
  rw [closest?_eq_map_lineAt, closest?_eq_map_lineAt, h.lineAt_addAll_mappings hm₀]

/-! ## How many lines there are -/

theorem size_addMapping (m : SourceMap) (line column : Nat) (location : Option Location) :
    (m.addMapping line column location).lines.size = max m.lines.size (line + 1) := by
  unfold addMapping
  simp only [Array.size_modify, Array.size_append, Array.size_replicate]
  omega

theorem size_addAll_le {m : SourceMap} {ss : List Mapping} {n : Nat} (hm : m.lines.size ≤ n)
    (hss : ∀ s ∈ ss, s.line < n) : (m.addAll ss).lines.size ≤ n := by
  induction ss generalizing m with
  | nil => exact hm
  | cons s ss ih =>
    obtain ⟨hs, hss⟩ := List.forall_mem_cons.1 hss
    refine ih ?_ hss
    rw [size_addMapping]
    omega

/-- A line with segments is one of the map. -/
theorem lt_size_of_lineAt {m : SourceMap} {k : Nat} (h : (m.lineAt k).segments ≠ #[]) :
    k < m.lines.size := by
  by_contra hle
  rw [lineAt, Array.getElem?_eq_none (Nat.le_of_not_lt hle)] at h
  exact h rfl

theorem lines_eq_of_lineAt_eq {m m' : SourceMap} (hsize : m.lines.size = m'.lines.size)
    (h : ∀ k, m.lineAt k = m'.lineAt k) : m.lines = m'.lines := by
  refine Array.ext hsize fun k hk hk' => ?_
  have := h k
  unfold lineAt at this
  rwa [Array.getElem?_eq_getElem hk, Array.getElem?_eq_getElem hk'] at this

/-- Whether the last line has segments. -/
def EndsInSegment (m : SourceMap) : Prop :=
  ∀ k, m.lines.size = k + 1 → (m.lineAt k).segments ≠ #[]

/-- The segments of a sorted map make it again, if no lines without segments come after them. -/
theorem IsSorted.lines_addAll_mappings {m : SourceMap} (h : m.IsSorted) (hends : m.EndsInSegment)
    {m₀ : SourceMap} (hm₀ : m₀.lines = #[]) : (m₀.addAll m.mappings).lines = m.lines := by
  have hlines := h.lineAt_addAll_mappings hm₀
  refine lines_eq_of_lineAt_eq (Nat.le_antisymm ?_ ?_) hlines
  · refine size_addAll_le (by simp [hm₀]) fun s hs => ?_
    refine lt_size_of_lineAt fun hempty => ?_
    have hmem := mem_mappings.1 hs
    rw [hempty] at hmem
    exact Array.not_mem_empty _ hmem
  · cases hsize : m.lines.size with
    | zero => exact Nat.zero_le _
    | succ k => exact lt_size_of_lineAt (hlines k ▸ hends k hsize)

/-! ## Maps of segments in their order -/

section

variable {m : SourceMap} {ss : List Mapping}

theorem toList_lineAt_addAll_of_before (hm : m.lines = #[]) (hss : ss.Pairwise Mapping.Before)
    (k : Nat) : ((m.addAll ss).lineAt k).segments.toList =
      (ss.filter (·.line = k)).map Mapping.segment := by
  have hempty : ∀ j, (m.lineAt j).segments.toList = [] := by
    intro j
    rw [lineAt, hm]
    rfl
  rw [toList_lineAt_addAll, hempty, List.nil_append]
  · refine hss.imp fun {s t} hst hline => ?_
    unfold Mapping.Before at hst
    omega
  · intro s _ t ht
    rw [hempty] at ht
    cases ht

theorem pairwise_lineAt_addAll (hm : m.lines = #[]) (hss : ss.Pairwise Mapping.Before) (k : Nat) :
    ((m.addAll ss).lineAt k).segments.toList.Pairwise (·.column < ·.column) := by
  rw [toList_lineAt_addAll_of_before hm hss, List.pairwise_map]
  refine (hss.filter _).imp_of_mem fun {s t} hs ht hst => ?_
  have hs' : s.line = k := of_decide_eq_true (List.mem_filter.1 hs).2
  have ht' : t.line = k := of_decide_eq_true (List.mem_filter.1 ht).2
  unfold Mapping.Before at hst
  change s.column < t.column
  omega

theorem mem_mappings_addAll (hm : m.lines = #[]) {s : Mapping} :
    s ∈ (m.addAll ss).mappings ↔ s ∈ ss := by
  have hempty : m.mappings = [] := by
    rw [mappings, hm]
    rfl
  rw [(isSorted_of_lines_eq_empty hm).mem_mappings_addAll, hempty]
  simp

theorem pairwise_mappings_addAll (hm : m.lines = #[]) (hss : ss.Pairwise Mapping.Before) :
    (m.addAll ss).mappings.Pairwise Mapping.Before := by
  refine pairwise_mappings (fun k => ?_) fun s t h => .inl h
  exact (pairwise_lineAt_addAll hm hss k).imp fun {s t} h => .inr ⟨rfl, h⟩

/-- Each segment is the closest one where it starts. -/
theorem closest?_addAll (hm : m.lines = #[]) (hss : ss.Pairwise Mapping.Before) {s : Mapping}
    (hs : s ∈ ss) : (m.addAll ss).closest? s.line s.column = some s :=
  (isSorted_addAll (isSorted_of_lines_eq_empty hm) ss).closest?_of_mem
    ((mem_mappings_addAll hm).2 hs) (pairwise_lineAt_addAll hm hss s.line)

end

end SourceMap

end ModuleWorkers
