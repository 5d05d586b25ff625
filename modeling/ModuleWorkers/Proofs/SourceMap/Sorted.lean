import Mathlib.Data.List.Induction
import ModuleWorkers.Proofs.SourceMap.Lines

/-!
# Lines are stable sorts

In whatever order segments are added to a line, the line is their stable sort by columns, and what
it finds for a column is the segment that was added last among those with the greatest column that
does not exceed it (`Line.closest?_ofAdded`). A stable sort is known by two properties: it is in
order, and of each column it has what was added in the order in which it was added
(`eq_of_filter_key_eq`). Both are kept when a segment is added, and so is what is found
(`Line.IsSorted.closest?_add`).
-/

namespace ModuleWorkers

/-! ## Stable sorts -/

section

variable {α : Type} {key : α → Nat} {as bs : List α}

theorem exists_eq_cons_of_filter_key_eq {a : α} (hbs : bs.Pairwise (key · ≤ key ·))
    (has : (a :: as).Pairwise (key · ≤ key ·))
    (h : ∀ k, (a :: as).filter (key · = k) = bs.filter (key · = k)) :
    ∃ bs', bs = a :: bs' := by
  have hmem : ∀ b, b ∈ a :: as ↔ b ∈ bs := by
    intro b
    have := congrArg (b ∈ ·) (h (key b))
    simpa only [List.mem_filter, decide_eq_true_eq, and_true, eq_iff_iff] using this
  cases bs with
  | nil => exact absurd ((hmem a).1 List.mem_cons_self) List.not_mem_nil
  | cons b bs =>
    have hab : key a ≤ key b := by
      rcases List.mem_cons.1 ((hmem b).2 List.mem_cons_self) with rfl | hb
      · exact Nat.le_refl _
      · exact (List.pairwise_cons.1 has).1 b hb
    have hba : key b ≤ key a := by
      rcases List.mem_cons.1 ((hmem a).1 List.mem_cons_self) with rfl | ha
      · exact Nat.le_refl _
      · exact (List.pairwise_cons.1 hbs).1 a ha
    have hkey : key b = key a := Nat.le_antisymm hba hab
    have hfirst := h (key a)
    rw [List.filter_cons_of_pos (by simp), List.filter_cons_of_pos (by simp [hkey])] at hfirst
    exact ⟨bs, by rw [(List.cons.inj hfirst).1]⟩

/-- Two lists in the order of keys are one if they have the same elements of each key, in the same
order. -/
theorem eq_of_filter_key_eq (has : as.Pairwise (key · ≤ key ·)) (hbs : bs.Pairwise (key · ≤ key ·))
    (h : ∀ k, as.filter (key · = k) = bs.filter (key · = k)) : as = bs := by
  induction as generalizing bs with
  | nil =>
    refine (List.eq_nil_iff_forall_not_mem.2 fun b hb => ?_).symm
    have hmem : b ∈ bs.filter (key · = key b) := List.mem_filter.2 ⟨hb, decide_eq_true rfl⟩
    rw [← h (key b)] at hmem
    cases hmem
  | cons a as ih =>
    obtain ⟨bs, rfl⟩ := exists_eq_cons_of_filter_key_eq hbs has h
    refine congrArg (a :: ·) (ih has.of_cons hbs.of_cons fun k => ?_)
    have hk := h k
    rw [List.filter_cons, List.filter_cons] at hk
    split at hk
    · exact (List.cons.inj hk).2
    · exact hk

/-- A stable sort keeps the order of elements that have one key. -/
theorem filter_key_mergeSort (as : List α) (k : Nat) :
    (as.mergeSort (key · ≤ key ·)).filter (key · = k) = as.filter (key · = k) := by
  have hsame : (as.filter (key · = k)).Pairwise fun a b => decide (key a ≤ key b) = true := by
    refine List.pairwise_of_forall_mem_list fun a ha b hb => ?_
    have ha := of_decide_eq_true (List.mem_filter.1 ha).2
    have hb := of_decide_eq_true (List.mem_filter.1 hb).2
    exact decide_eq_true (Nat.le_of_eq (ha.trans hb.symm))
  have hsublist := List.sublist_mergeSort (fun a b c => by simpa using Nat.le_trans)
    (fun a b => by simpa using Nat.le_total (key a) (key b)) hsame List.filter_sublist
  have hfilter := hsublist.filter (key · = k)
  rw [List.filter_filter] at hfilter
  refine (List.Sublist.eq_of_length (by simpa using hfilter) ?_).symm
  exact ((List.mergeSort_perm as _).filter _).length_eq.symm

end

namespace Line

variable {l : Line} {s t : Segment} {ss : List Segment} {column : Nat}

/-! ## Adding a segment -/

/-- Of each column a line has what it had, and behind it what is added. -/
theorem IsSorted.filter_add (h : l.IsSorted) (s : Segment) (k : Nat) :
    (l.add s).segments.toList.filter (·.column = k) =
      l.segments.toList.filter (·.column = k) ++ [s].filter (·.column = k) := by
  obtain ⟨front, back, hl, hadd, -, hback⟩ := h.exists_toList_add s
  rw [hadd, hl, List.append_cons, List.filter_append, List.filter_append, List.filter_append,
    List.append_assoc, List.append_assoc]
  refine congrArg _ ?_
  by_cases hs : s.column = k
  · have hnone : back.filter (·.column = k) = [] := by
      refine List.filter_eq_nil_iff.2 fun t ht heq => ?_
      have := hback t ht
      have := of_decide_eq_true heq
      omega
    rw [hnone, List.append_nil, List.nil_append]
  · rw [List.filter_cons_of_neg (by simpa using hs), List.filter_nil, List.append_nil,
      List.nil_append]

/-- A segment that is added is found from then on where it starts at or before a column and no
segment that was found there starts behind it. -/
theorem IsSorted.closest?_add (h : l.IsSorted) (s : Segment) (column : Nat) :
    (l.add s).closest? column =
      if s.column ≤ column ∧ ∀ t ∈ l.closest? column, t.column ≤ s.column then some s
      else l.closest? column := by
  obtain ⟨front, back, hl, hadd, hfront, hback⟩ := h.exists_toList_add s
  rw [(h.add s).closest?_eq_closestByScan?, h.closest?_eq_closestByScan?, closestByScan?,
    closestByScan?, hadd, hl, List.filter_append, List.filter_append]
  by_cases hs : s.column ≤ column
  · rw [List.filter_cons_of_pos (by simpa using hs)]
    cases hlast : (back.filter (·.column ≤ column)).getLast? with
    | none =>
      rw [List.getLast?_eq_none_iff.1 hlast, List.append_nil, List.getLast?_concat, if_pos]
      refine ⟨hs, fun t ht => hfront t ?_⟩
      exact (List.mem_filter.1 (List.mem_of_getLast? ht)).1
    | some t =>
      have hcons : (s :: back.filter (·.column ≤ column)).getLast? = some t := by
        rw [List.getLast?_cons, hlast, Option.getD_some]
      rw [List.getLast?_append, List.getLast?_append, hcons, hlast, Option.some_or,
        if_neg]
      rintro ⟨-, hle⟩
      have := hback t (List.mem_filter.1 (List.mem_of_getLast? hlast)).1
      exact absurd (hle t rfl) (Nat.not_le.2 this)
  · rw [List.filter_cons_of_neg (by simpa using hs), if_neg fun hle => hs hle.1]

/-! ## Adding segments one after the other -/

/-- The line that segments were added to, one after the other. -/
def ofAdded (ss : List Segment) : Line := ss.foldl add ⟨#[]⟩

theorem ofAdded_concat (ss : List Segment) (s : Segment) :
    ofAdded (ss ++ [s]) = (ofAdded ss).add s := List.foldl_concat ..

theorem isSorted_ofAdded (ss : List Segment) : (ofAdded ss).IsSorted := by
  induction ss using List.reverseRecOn with
  | nil => exact IsSorted.empty
  | append_singleton ss s ih =>
    rw [ofAdded_concat]
    exact ih.add s

theorem filter_ofAdded (ss : List Segment) (k : Nat) :
    (ofAdded ss).segments.toList.filter (·.column = k) = ss.filter (·.column = k) := by
  induction ss using List.reverseRecOn with
  | nil => rfl
  | append_singleton ss s ih =>
    rw [ofAdded_concat, (isSorted_ofAdded ss).filter_add, ih, List.filter_append]

theorem toList_ofAdded (ss : List Segment) :
    (ofAdded ss).segments.toList = ss.mergeSort (·.column ≤ ·.column) := by
  have htrans : ∀ s t u : Segment, decide (s.column ≤ t.column) = true →
      decide (t.column ≤ u.column) = true → decide (s.column ≤ u.column) = true :=
    fun _ _ _ => by simpa using Nat.le_trans
  have htotal : ∀ s t : Segment, (decide (s.column ≤ t.column) || decide (t.column ≤ s.column)) =
      true := fun s t => by simpa using Nat.le_total s.column t.column
  refine eq_of_filter_key_eq (isSorted_ofAdded ss) ?_ fun k => ?_
  · exact (List.pairwise_mergeSort htrans htotal ss).imp of_decide_eq_true
  · rw [filter_ofAdded, filter_key_mergeSort]

/-! ## What is found -/

/-- Looks at segments in the order in which they were added, and keeps the one that starts last at
or before a column, the later one of two at one column. -/
def scanAdded? (ss : List Segment) (column : Nat) : Option Segment :=
  ss.foldl (fun found s =>
    if s.column ≤ column ∧ ∀ t ∈ found, t.column ≤ s.column then some s else found) none

theorem closest?_eq_scanAdded? (ss : List Segment) (column : Nat) :
    (ofAdded ss).closest? column = scanAdded? ss column := by
  induction ss using List.reverseRecOn with
  | nil => exact closest?_empty column
  | append_singleton ss s ih =>
    rw [ofAdded_concat, (isSorted_ofAdded ss).closest?_add, ih, scanAdded?, scanAdded?,
      List.foldl_concat]

/-- The segment at an index was added last among those with the greatest column that does not exceed
a given one. -/
structure IsLastAdded (ss : List Segment) (column k : Nat) (s : Segment) : Prop where
  getElem? : ss[k]? = some s
  le : s.column ≤ column
  greatest : ∀ t ∈ ss, t.column ≤ column → t.column ≤ s.column
  last : ∀ (j : Nat) (t : Segment), ss[j]? = some t → t.column = s.column → j ≤ k

theorem IsLastAdded.unique {j k : Nat} (h : IsLastAdded ss column j s)
    (h' : IsLastAdded ss column k t) : s = t := by
  have hst := h'.greatest s (List.mem_of_getElem? h.getElem?) h.le
  have hts := h.greatest t (List.mem_of_getElem? h'.getElem?) h'.le
  have hcolumn : s.column = t.column := Nat.le_antisymm hst hts
  obtain rfl : j = k := Nat.le_antisymm (h'.last j s h.getElem? hcolumn)
    (h.last k t h'.getElem? hcolumn.symm)
  exact Option.some.inj (h.getElem?.symm.trans h'.getElem?)

/-- A segment that starts behind the column, or in front of what is found, changes nothing. -/
theorem IsLastAdded.concat_of_not {k : Nat} (h : IsLastAdded ss column k s)
    (ht : t.column ≤ column → t.column < s.column) : IsLastAdded (ss ++ [t]) column k s where
  getElem? := List.getElem?_append_left (List.getElem?_eq_some_iff.1 h.getElem?).1 ▸ h.getElem?
  le := h.le
  greatest u hu hle := by
    rcases List.mem_append.1 hu with hu | hu
    · exact h.greatest u hu hle
    · obtain rfl := List.mem_singleton.1 hu
      exact Nat.le_of_lt (ht hle)
  last j u hu hcolumn := by
    rcases Nat.lt_or_ge j ss.length with hj | hj
    · exact h.last j u (List.getElem?_append_left hj ▸ hu) hcolumn
    · rw [List.getElem?_append_right hj] at hu
      obtain rfl := List.mem_singleton.1 (List.mem_of_getElem? hu)
      have := ht (hcolumn ▸ h.le)
      omega

theorem isLastAdded_concat (hle : s.column ≤ column)
    (hss : ∀ t ∈ ss, t.column ≤ column → t.column ≤ s.column) :
    IsLastAdded (ss ++ [s]) column ss.length s where
  getElem? := List.getElem?_concat_length
  le := hle
  greatest t ht htle := by
    rcases List.mem_append.1 ht with ht | ht
    · exact hss t ht htle
    · exact Nat.le_of_eq (congrArg Segment.column (List.mem_singleton.1 ht))
  last j t ht _ := by
    have hj := (List.getElem?_eq_some_iff.1 ht).1
    rw [List.length_append, List.length_singleton] at hj
    exact Nat.le_of_lt_succ hj

/-- What the scan keeps is the segment that was added last among those with the greatest column. -/
theorem scanAdded?_spec (ss : List Segment) (column : Nat) :
    match scanAdded? ss column with
    | none => ∀ s ∈ ss, column < s.column
    | some s => ∃ k, IsLastAdded ss column k s := by
  induction ss using List.reverseRecOn with
  | nil => exact fun _ => nofun
  | append_singleton ss s ih =>
    rw [scanAdded?, List.foldl_concat, ← scanAdded?]
    cases hfound : scanAdded? ss column with
    | none =>
      rw [hfound] at ih
      by_cases hs : s.column ≤ column
      · rw [if_pos ⟨hs, nofun⟩]
        exact ⟨_, isLastAdded_concat hs fun t ht hle => absurd hle (Nat.not_le.2 (ih t ht))⟩
      · rw [if_neg fun h => hs h.1]
        intro t ht
        rcases List.mem_append.1 ht with ht | ht
        · exact ih t ht
        · rw [List.mem_singleton.1 ht]
          exact Nat.lt_of_not_le hs
    | some t =>
      rw [hfound] at ih
      obtain ⟨k, ht⟩ := ih
      by_cases hs : s.column ≤ column ∧ t.column ≤ s.column
      · rw [if_pos ⟨hs.1, fun u hu => Option.some.inj hu ▸ hs.2⟩]
        exact ⟨_, isLastAdded_concat hs.1 fun u hu hle =>
          Nat.le_trans (ht.greatest u hu hle) hs.2⟩
      · rw [if_neg fun h => hs ⟨h.1, h.2 t rfl⟩]
        exact ⟨k, ht.concat_of_not fun hle => Nat.lt_of_not_le fun hts => hs ⟨hle, hts⟩⟩

/-- A line is the stable sort of the segments that were added to it, and the search by halves finds
in it what a look at all that was added finds: the segment that was added last among those with the
greatest column that does not exceed the given one. -/
theorem closest?_ofAdded (ss : List Segment) :
    (ofAdded ss).segments.toList = ss.mergeSort (·.column ≤ ·.column) ∧
    ∀ column, (ofAdded ss).closest? column = scanAdded? ss column ∧
      (∀ s, (ofAdded ss).closest? column = some s ↔ ∃ k, IsLastAdded ss column k s) ∧
      ((ofAdded ss).closest? column = none ↔ ∀ s ∈ ss, column < s.column) := by
  refine ⟨toList_ofAdded ss, fun column => ⟨closest?_eq_scanAdded? ss column, ?_⟩⟩
  have hspec := scanAdded?_spec ss column
  rw [closest?_eq_scanAdded?]
  cases hfound : scanAdded? ss column with
  | none =>
    rw [hfound] at hspec
    refine ⟨fun s => ⟨nofun, ?_⟩, fun _ => hspec, fun _ => rfl⟩
    rintro ⟨k, hs⟩
    exact absurd hs.le (Nat.not_le.2 (hspec s (List.mem_of_getElem? hs.getElem?)))
  | some t =>
    rw [hfound] at hspec
    obtain ⟨k, ht⟩ := hspec
    refine ⟨fun s => ⟨?_, ?_⟩, nofun, fun hnone => ?_⟩
    · rintro ⟨⟩
      exact ⟨k, ht⟩
    · rintro ⟨j, hs⟩
      rw [ht.unique hs]
    · exact absurd ht.le (Nat.not_le.2 (hnone t (List.mem_of_getElem? ht.getElem?)))

/-- Of two segments at one column the later one is found, wherever the others were put in. -/
example : (ofAdded [⟨10, none⟩, ⟨0, none⟩, ⟨20, none⟩, ⟨10, some ⟨0, 1, 2, none⟩⟩]).closest? 15 =
    some ⟨10, some ⟨0, 1, 2, none⟩⟩ := by
  rw [closest?_eq_scanAdded?]
  rfl

end Line

end ModuleWorkers
