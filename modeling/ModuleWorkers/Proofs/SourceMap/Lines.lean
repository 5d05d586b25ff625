import Mathlib.Data.List.Basic
import ModuleWorkers.SourceMap.Line

/-!
# Lines are searched right

On a sorted line the search by halves finds the border between the segments that start at or before
a column and those that start behind it (`Line.IsSorted.take_countUpTo`). So `add` puts a segment
right there (`Line.IsSorted.toList_add`) and keeps the line sorted (`Line.IsSorted.add`), and
`closest?` finds what a look at all segments finds (`Line.IsSorted.closest?_eq_closestByScan?`). The
search reads columns only, so it goes the same way when locations change (`Line.closest?_map`).
-/

namespace ModuleWorkers

namespace Line

theorem IsSorted.column_le {l : Line} (h : l.IsSorted) {i j : Nat} {s t : Segment} (hij : i ≤ j)
    (hs : l.segments[i]? = some s) (ht : l.segments[j]? = some t) : s.column ≤ t.column := by
  rcases Nat.lt_or_eq_of_le hij with hlt | rfl
  · rw [← Array.getElem?_toList] at hs ht
    obtain ⟨hi, rfl⟩ := List.getElem?_eq_some_iff.1 hs
    obtain ⟨hj, rfl⟩ := List.getElem?_eq_some_iff.1 ht
    exact List.pairwise_iff_getElem.1 h i j hi hj hlt
  · cases hs.symm.trans ht
    exact Nat.le_refl _

/-! ## The border -/

/-- Whether an index parts the segments that start at or before a column from the others. -/
structure Parts (l : Line) (column k : Nat) : Prop where
  le_size : k ≤ l.segments.size
  before : ∀ i s, i < k → l.segments[i]? = some s → s.column ≤ column
  behind : ∀ i s, k ≤ i → l.segments[i]? = some s → column < s.column

/-- What lies outside the bounds of the search is parted already. -/
theorem IsSorted.parts_searchIn {l : Line} (h : l.IsSorted) (column : Nat) {low high : Nat}
    (hle : low ≤ high) (hsize : high ≤ l.segments.size)
    (hbefore : ∀ i s, i < low → l.segments[i]? = some s → s.column ≤ column)
    (hbehind : ∀ i s, high ≤ i → l.segments[i]? = some s → column < s.column) :
    l.Parts column (l.searchIn column low high) := by
  fun_induction searchIn l column low high with
  | case1 low high hlt middle hmiddle ih =>
    have hmid : low ≤ middle ∧ middle < high := by omega
    have ht : l.segments[middle]? = some l.segments[middle] := Array.getElem?_eq_getElem (by omega)
    have hcolumn : l.segments[middle].column ≤ column := by simpa [ht] using hmiddle
    refine ih (by omega) hsize ?_ hbehind
    intro i s hi hs
    exact Nat.le_trans (h.column_le (by omega) hs ht) hcolumn
  | case2 low high hlt middle hmiddle ih =>
    have hmid : low ≤ middle ∧ middle < high := by omega
    have ht : l.segments[middle]? = some l.segments[middle] := Array.getElem?_eq_getElem (by omega)
    have hcolumn : column < l.segments[middle].column := by simpa [ht] using hmiddle
    refine ih (by omega) (by omega) hbefore ?_
    intro i s hi hs
    exact Nat.lt_of_lt_of_le hcolumn (h.column_le hi ht hs)
  | case3 low high hlt =>
    obtain rfl : low = high := by omega
    exact ⟨hsize, hbefore, hbehind⟩

theorem IsSorted.parts_countUpTo {l : Line} (h : l.IsSorted) (column : Nat) :
    l.Parts column (l.countUpTo column) := by
  refine h.parts_searchIn column (Nat.zero_le _) (Nat.le_refl _) ?_ ?_
  · intro i s hi
    omega
  · intro i s hi hs
    rw [Array.getElem?_eq_none hi] at hs
    cases hs

theorem Parts.le_of_mem_take {l : Line} {column k : Nat} (h : l.Parts column k) {s : Segment}
    (hs : s ∈ l.segments.toList.take k) : s.column ≤ column := by
  obtain ⟨i, hi, rfl⟩ := List.mem_take_iff_getElem.1 hs
  exact h.before i _ (by omega) (by rw [← Array.getElem?_toList, List.getElem?_eq_getElem])

theorem Parts.lt_of_mem_drop {l : Line} {column k : Nat} (h : l.Parts column k) {s : Segment}
    (hs : s ∈ l.segments.toList.drop k) : column < s.column := by
  obtain ⟨i, hi, rfl⟩ := List.mem_drop_iff_getElem.1 hs
  exact h.behind (k + i) _ (by omega) (by rw [← Array.getElem?_toList, List.getElem?_eq_getElem])

/-- The segments in front of the border are those that start at or before the column. -/
theorem IsSorted.take_countUpTo {l : Line} (h : l.IsSorted) (column : Nat) :
    l.segments.toList.take (l.countUpTo column) =
      l.segments.toList.filter (·.column ≤ column) := by
  have hparts := h.parts_countUpTo column
  conv_rhs =>
    rw [← List.take_append_drop (l.countUpTo column) l.segments.toList, List.filter_append]
  rw [List.filter_eq_self.2, List.filter_eq_nil_iff.2, List.append_nil]
  · intro s hs
    have := hparts.lt_of_mem_drop hs
    simp only [decide_eq_true_eq]
    omega
  · intro s hs
    exact decide_eq_true (hparts.le_of_mem_take hs)

/-- The last segment at or before a column is the last of all those at or before it. -/
theorem IsSorted.closest?_eq_closestByScan? {l : Line} (h : l.IsSorted) (column : Nat) :
    l.closest? column = l.closestByScan? column := by
  have hsize := (h.parts_countUpTo column).le_size
  rw [closestByScan?, ← h.take_countUpTo, closest?]
  cases hk : l.countUpTo column with
  | zero => rfl
  | succ k =>
    rw [hk] at hsize
    have hk' : k < l.segments.toList.length := hsize
    rw [List.getLast?_take, if_neg (Nat.succ_ne_zero k), Nat.add_sub_cancel,
      List.getElem?_eq_getElem hk', Option.some_or, ← List.getElem?_eq_getElem hk',
      Array.getElem?_toList]

theorem closest?_empty (column : Nat) : (⟨#[]⟩ : Line).closest? column = none := by
  rw [closest?, countUpTo, searchIn]
  rfl

theorem mem_of_closest? {l : Line} {column : Nat} {s : Segment} (h : l.closest? column = some s) :
    s ∈ l.segments := by
  unfold closest? at h
  split at h
  · cases h
  · exact Array.mem_of_getElem? h

/-! ## Adding a segment -/

/-- A segment that starts in front of no other one comes last. -/
theorem toList_add_of_forall_le {l : Line} {s : Segment}
    (h : ∀ t ∈ l.segments.toList, t.column ≤ s.column) :
    (l.add s).segments.toList = l.segments.toList ++ [s] := by
  have hback : l.segments.back?.any (s.column < ·.column) = false := by
    rw [Option.any_eq_false]
    intro t ht
    have := h t (List.mem_of_getLast? (by rwa [← Array.getLast?_toList] at ht))
    exact decide_eq_false (Nat.not_lt_of_le this)
  rw [add, hback]
  exact Array.toList_push

theorem toList_insertIdxIfInBounds (ss : Array Segment) (k : Nat) (s : Segment) :
    (ss.insertIdxIfInBounds k s).toList = ss.toList.insertIdx k s := by
  cases ss with
  | mk ss => rw [List.insertIdxIfInBounds_toArray]

/-- A segment is put behind those that start at or before its column. -/
theorem IsSorted.exists_toList_add {l : Line} (h : l.IsSorted) (s : Segment) :
    ∃ front back, l.segments.toList = front ++ back ∧
      (l.add s).segments.toList = front ++ s :: back ∧
      (∀ t ∈ front, t.column ≤ s.column) ∧ ∀ t ∈ back, s.column < t.column := by
  by_cases hback : l.segments.back?.any (s.column < ·.column)
  · have hparts := h.parts_countUpTo s.column
    obtain ⟨front, back, hl, hlength, hinsert⟩ := List.exists_of_modifyTailIdx (List.cons s)
      (i := l.countUpTo s.column) (l := l.segments.toList) hparts.le_size
    refine ⟨front, back, hl, ?_, ?_, ?_⟩
    · rw [add, if_pos hback, toList_insertIdxIfInBounds]
      exact hinsert
    · intro t ht
      refine hparts.le_of_mem_take ?_
      rwa [hl, ← hlength, List.take_left]
    · intro t ht
      refine hparts.lt_of_mem_drop ?_
      rwa [hl, ← hlength, List.drop_left]
  · have hle : ∀ t ∈ l.segments.toList, t.column ≤ s.column := by
      intro t ht
      rcases List.eq_nil_or_concat l.segments.toList with hnil | ⟨front, last, hl⟩
      · rw [hnil] at ht
        cases ht
      · rw [← Array.getLast?_toList, hl, List.concat_eq_append, List.getLast?_concat] at hback
        have hlast : last.column ≤ s.column := by simpa using hback
        unfold IsSorted at h
        rw [hl, List.concat_eq_append, List.pairwise_append] at h
        rw [hl, List.concat_eq_append, List.mem_append, List.mem_singleton] at ht
        rcases ht with ht | rfl
        · exact Nat.le_trans (h.2.2 t ht last (List.mem_singleton_self last)) hlast
        · exact hlast
    exact ⟨l.segments.toList, [], (List.append_nil _).symm, toList_add_of_forall_le hle, hle,
      by simp⟩

theorem IsSorted.mem_add {l : Line} (h : l.IsSorted) {s t : Segment} :
    t ∈ (l.add s).segments ↔ t = s ∨ t ∈ l.segments := by
  obtain ⟨front, back, hl, hadd, -, -⟩ := h.exists_toList_add s
  rw [← Array.mem_toList_iff, ← Array.mem_toList_iff, hadd, hl]
  simp only [List.mem_append, List.mem_cons]
  tauto

theorem IsSorted.empty : (⟨#[]⟩ : Line).IsSorted := List.Pairwise.nil

theorem IsSorted.add {l : Line} (h : l.IsSorted) (s : Segment) : (l.add s).IsSorted := by
  obtain ⟨front, back, hl, hadd, hfront, hback⟩ := h.exists_toList_add s
  unfold IsSorted at h ⊢
  rw [hl, List.pairwise_append] at h
  obtain ⟨hsfront, hsback, hcross⟩ := h
  rw [hadd, List.pairwise_append, List.pairwise_cons]
  refine ⟨hsfront, ⟨fun t ht => Nat.le_of_lt (hback t ht), hsback⟩, ?_⟩
  intro t ht u hu
  rcases List.mem_cons.1 hu with rfl | hu
  · exact hfront t ht
  · exact hcross t ht u hu

/-! ## Lines with other locations -/

theorem searchIn_map {l l' : Line} {f : Segment → Segment} (hf : ∀ s, (f s).column = s.column)
    (hl : l'.segments = l.segments.map f) (column low high : Nat) :
    l'.searchIn column low high = l.searchIn column low high := by
  have hmiddle : ∀ k : Nat, (l'.segments[k]?).any (·.column ≤ column) =
      (l.segments[k]?).any (·.column ≤ column) := by
    intro k
    rw [hl, Array.getElem?_map]
    cases l.segments[k]? with
    | none => rfl
    | some s => simp [hf]
  fun_induction searchIn l column low high with
  | case1 low high hlt middle hle ih =>
    rw [searchIn, if_pos hlt, if_pos (by rw [hmiddle]; exact hle), ih]
  | case2 low high hlt middle hle ih =>
    rw [searchIn, if_pos hlt, if_neg (by rw [hmiddle]; exact hle), ih]
  | case3 low high hlt => rw [searchIn, if_neg hlt]

theorem closest?_map {l l' : Line} {f : Segment → Segment} (hf : ∀ s, (f s).column = s.column)
    (hl : l'.segments = l.segments.map f) (column : Nat) :
    l'.closest? column = (l.closest? column).map f := by
  have hcount : l'.countUpTo column = l.countUpTo column := by
    rw [countUpTo, countUpTo, searchIn_map hf hl, hl, Array.size_map]
  rw [closest?, closest?, hcount]
  cases l.countUpTo column with
  | zero => rfl
  | succ k =>
    simp only
    rw [hl, Array.getElem?_map]

end Line

end ModuleWorkers
