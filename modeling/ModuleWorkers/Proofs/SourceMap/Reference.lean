import Mathlib.Data.List.TakeWhile
import ModuleWorkers.Proofs.Edits.Order
import ModuleWorkers.SourceMap.Reference

/-!
# Where references to source maps are

A reference is a stretch of its text that is not empty, with nothing but blanks behind it
(`Reference.find?_eq_some`), so it can be replaced (`Reference.fits_of_find?`). An address that is
written in a comment of its own is read as it is (`Reference.here?_append`).
-/

namespace ModuleWorkers.SourceMap.Reference

open Text

theorem exists_trimEnd_append (cs : List Char) :
    ∃ blanks, cs = trimEnd cs ++ blanks ∧ blanks.all isBlank := by
  refine ⟨(cs.reverse.takeWhile isBlank).reverse, ?_, ?_⟩
  · rw [trimEnd, ← List.reverse_append, List.takeWhile_append_dropWhile, List.reverse_reverse]
  · rw [List.all_reverse, List.all_takeWhile]

theorem trimEnd_ne_nil {c : Char} {cs : List Char} (h : c ∈ cs) (hc : isBlank c = false) :
    trimEnd cs ≠ [] := by
  intro hnil
  rw [trimEnd, List.reverse_eq_nil_iff, List.dropWhile_eq_nil_iff] at hnil
  have := hnil c (List.mem_reverse.2 h)
  rw [hc] at this
  cases this

theorem exists_of_here? {cs url : List Char} (h : here? cs = some url) :
    ∃ rest, cs = '/' :: rest := by
  unfold here? at h
  split at h
  · exact ⟨_, rfl⟩
  · cases h

theorem findFrom_eq_some (passed : List Char) {cs : List Char} {r : Reference}
    (h : findFrom (byteLength passed) cs = some r) :
    ∃ front back, passed ++ cs = front ++ back ∧ here? back = some r.url.toList ∧
      r.start = byteLength front ∧ r.stop = byteLength (front ++ trimEnd back) := by
  induction cs generalizing passed with
  | nil => cases h
  | cons c cs ih =>
    unfold findFrom at h
    split at h
    · rename_i url hurl
      cases h
      exact ⟨passed, c :: cs, rfl, by rw [hurl, String.toList_ofList], rfl,
        (byteLength_append _ _).symm⟩
    · have hpassed : byteLength passed + c.utf8Size = byteLength (passed ++ [c]) := by simp
      rw [hpassed] at h
      simpa using ih (passed ++ [c]) h

/-- A reference goes up to the end of its text, blanks left out. -/
theorem exists_here?_of_find? {text : String} {r : Reference} (h : find? text = some r) :
    ∃ front back, text.toList = front ++ back ∧ here? back = some r.url.toList ∧
      r.start = byteLength front ∧ r.stop = byteLength (front ++ trimEnd back) :=
  findFrom_eq_some [] h

/-- A reference lies at the end of its text, before blanks. -/
theorem find?_eq_some {text : String} {r : Reference} (h : find? text = some r) :
    ∃ front comment blanks, text.toList = front ++ (comment ++ blanks) ∧ comment ≠ [] ∧
      blanks.all isBlank ∧ r.start = byteLength front ∧ r.stop = byteLength (front ++ comment) := by
  obtain ⟨front, back, htext, hhere, hstart, hstop⟩ := exists_here?_of_find? h
  obtain ⟨rest, hrest⟩ := exists_of_here? hhere
  have hslash : '/' ∈ back := hrest ▸ List.mem_cons_self
  obtain ⟨blanks, hblanks, hall⟩ := exists_trimEnd_append back
  exact ⟨front, trimEnd back, blanks, by rw [← hblanks, htext], trimEnd_ne_nil hslash (by decide),
    hall, hstart, hstop⟩

theorem here?_of_findFrom_eq_none {position : Nat} {front back : List Char}
    (h : findFrom position (front ++ back) = none) : here? back = none := by
  induction front generalizing position with
  | nil =>
    cases back with
    | nil => rfl
    | cons c cs =>
      rw [List.nil_append, findFrom] at h
      split at h
      · cases h
      · assumption
  | cons c front ih =>
    rw [List.cons_append, findFrom] at h
    split at h
    · cases h
    · exact ih h

/-- A text without a reference has none anywhere. -/
theorem here?_of_find?_eq_none {text : String} (h : find? text = none) {front back : List Char}
    (htext : text.toList = front ++ back) : here? back = none := by
  rw [find?, htext] at h
  exact here?_of_findFrom_eq_none h

theorem start_lt_stop {text : String} {r : Reference} (h : find? text = some r) :
    r.start < r.stop := by
  obtain ⟨front, comment, blanks, -, hne, -, hstart, hstop⟩ := find?_eq_some h
  have := byteLength_pos hne
  rw [byteLength_append] at hstop
  omega

/-- What takes the place of a reference is an edit of its text. -/
theorem fits_of_find? {text : String} {r : Reference} (h : find? text = some r)
    (content : String) : (⟨r.start, r.stop, content⟩ : Edit).Fits text.toList := by
  obtain ⟨front, comment, blanks, htext, -, -, hstart, hstop⟩ := find?_eq_some h
  refine ⟨(start_lt_stop h).le, ?_, ?_⟩
  · exact isBoundary_iff.2 ⟨front, comment ++ blanks, htext, hstart⟩
  · exact isBoundary_iff.2 ⟨front ++ comment, blanks, by rw [htext, List.append_assoc], hstop⟩

/-! ## References that are written -/

section

variable {url blanks : List Char}

theorem trimEnd_append (hurl : ∀ c ∈ url, isBlank c = false) (hblanks : blanks.all isBlank) :
    trimEnd (url ++ blanks) = url := by
  have hback : ∀ c ∈ blanks.reverse, isBlank c := fun c hc =>
    List.all_eq_true.1 hblanks c (List.mem_reverse.1 hc)
  have hfront : url.reverse.dropWhile isBlank = url.reverse := by
    refine List.dropWhile_eq_self_iff.2 fun hlength hblank => ?_
    rw [hurl _ (List.mem_reverse.1 (List.getElem_mem hlength))] at hblank
    cases hblank
  rw [trimEnd, List.reverse_append, List.dropWhile_append_of_pos hback, hfront,
    List.reverse_reverse]

/-- An address without blanks and slashes is read as it is. -/
theorem address?_append (hne : url ≠ []) (hurl : ∀ c ∈ url, isBlank c = false)
    (hslash : '/' ∉ url) (hblanks : blanks.all isBlank) : address? (url ++ blanks) = some url := by
  have hfront : (url ++ blanks).dropWhile isBlank = url ++ blanks := by
    cases url with
    | nil => exact absurd rfl hne
    | cons c cs =>
      rw [List.cons_append, List.dropWhile_cons_of_neg]
      rw [hurl c List.mem_cons_self]
      exact Bool.false_ne_true
  have hany : url.any isBlank = false := by
    rw [List.any_eq_false]
    intro c hc
    rw [hurl c hc]
    exact Bool.false_ne_true
  have hempty : url.isEmpty = false := List.isEmpty_eq_false_iff.2 hne
  rw [address?, hfront, trimEnd_append hurl hblanks]
  split
  · rename_i front hreverse
    exact absurd (List.mem_reverse.1 (hreverse ▸ List.mem_cons_self)) hslash
  · simp [hany, hempty]

theorem here?_append (hne : url ≠ []) (hurl : ∀ c ∈ url, isBlank c = false) (hslash : '/' ∉ url)
    (hblanks : blanks.all isBlank) :
    here? ("//# sourceMappingURL=".toList ++ (url ++ blanks)) = some url := by
  have haddress := address?_append hne hurl hslash hblanks
  exact haddress

end

end ModuleWorkers.SourceMap.Reference
