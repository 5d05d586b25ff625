import Mathlib.Data.List.TakeWhile
import ModuleWorkers.Proofs.Path.Collapse

/-!
# Directories and names of addresses

A path in normal form is names between slashes (`UrlPath.isMadeOf_normalize`). A path that another
one is joined to only matters by its names (`UrlPath.names_join`). The last name of a path in normal
form is its name, and the others make up its directory (`UrlPath.exists_normalize_eq`,
`UrlPath.isMadeOf_dirname_normalize`). What is named beside a path and begins with the name of
the path is the path with something behind it (`UrlPath.normalize_beside`).
-/

namespace ModuleWorkers

theorem segments_of_slash_not_mem {s : List Char} (h : '/' ∉ s) : segments s = [s] := by
  rw [segments_eq_splitOn, List.splitOn_eq_singleton h]

theorem joined_concat {ns : List (List Char)} (h : ns ≠ []) (s : List Char) :
    joined (ns ++ [s]) = joined ns ++ '/' :: s := by
  induction ns with
  | nil => exact absurd rfl h
  | cons t ns ih =>
    unfold joined at ih ⊢
    rw [List.cons_append, List.intercalate_cons_of_ne_nil (by simp)]
    by_cases hns : ns = []
    · subst hns
      simp
    · rw [ih hns, List.intercalate_cons_of_ne_nil hns]
      simp

/-- What is added to the last piece is added to the path. -/
theorem joined_concat_append (ns : List (List Char)) (s ext : List Char) :
    joined (ns ++ [s ++ ext]) = joined (ns ++ [s]) ++ ext := by
  by_cases hns : ns = []
  · subst hns
    simp [joined]
  · rw [joined_concat hns, joined_concat hns, List.append_assoc]
    rfl

theorem mem_joined {ns : List (List Char)} {c : Char} (h : c ∈ joined ns) :
    c = '/' ∨ ∃ s ∈ ns, c ∈ s := by
  induction ns with
  | nil => cases h
  | cons t ns ih =>
    by_cases hns : ns = []
    · subst hns
      exact .inr ⟨t, List.mem_cons_self, by simpa [joined] using h⟩
    · unfold joined at h ih
      rw [List.intercalate_cons_of_ne_nil hns, List.mem_append, List.mem_append] at h
      rcases h with (h | h) | h
      · exact .inr ⟨t, List.mem_cons_self, h⟩
      · exact .inl (List.mem_singleton.1 h)
      · rcases ih h with h | ⟨s, hs, hc⟩
        · exact .inl h
        · exact .inr ⟨s, List.mem_cons_of_mem t hs, hc⟩

theorem head?_joined_ne {ns : List (List Char)} (h : ∀ s ∈ ns, IsStep s) :
    (joined ns).head? ≠ some '/' := by
  cases ns with
  | nil => exact nofun
  | cons s ns =>
    obtain ⟨hname, hnot⟩ := h s List.mem_cons_self
    obtain ⟨c, cs, rfl⟩ := List.exists_cons_of_ne_nil hname.1
    have hhead : (joined ((c :: cs) :: ns)).head? = some c := by cases ns <;> simp [joined]
    rw [hhead]
    rintro ⟨⟩
    exact hnot List.mem_cons_self

theorem dropWhile_joined {ns : List (List Char)} (h : ∀ s ∈ ns, IsStep s) :
    (joined ns).dropWhile (· == '/') = joined ns := by
  have hhead := head?_joined_ne h
  cases hjoined : joined ns with
  | nil => rfl
  | cons c cs =>
    rw [hjoined] at hhead
    rw [List.dropWhile_cons_of_neg]
    simpa using hhead

namespace UrlPath

theorem toList_normalize (path : String) :
    (normalize path).toList = '/' :: joined (collapse (segments path.toList)) :=
  String.toList_ofList

section

variable {path : String} {front last : List Char}

theorem reverse_eq (h : path.toList = front ++ '/' :: last) :
    path.toList.reverse = last.reverse ++ '/' :: front.reverse := by
  rw [h, List.reverse_append, List.reverse_cons, List.append_assoc]
  rfl

theorem forall_mem_reverse_ne (hlast : '/' ∉ last) : ∀ c ∈ last.reverse, (c != '/') = true := by
  intro c hc
  refine bne_iff_ne.2 ?_
  rintro rfl
  exact hlast (List.mem_reverse.1 hc)

theorem toList_dirname (h : path.toList = front ++ '/' :: last) (hlast : '/' ∉ last) :
    (dirname path).toList = if front = [] then ['/'] else front := by
  have hdrop : path.toList.reverse.dropWhile (· != '/') = '/' :: front.reverse := by
    rw [reverse_eq h, List.dropWhile_append_of_pos (forall_mem_reverse_ne hlast),
      List.dropWhile_cons_of_neg (by simp)]
  rw [dirname, hdrop]
  cases hfront : front.reverse with
  | nil =>
    rw [if_pos (List.reverse_eq_nil_iff.1 hfront)]
    rfl
  | cons c cs =>
    have hne : front ≠ [] := by
      rintro rfl
      cases hfront
    simp only
    rw [if_neg hne, ← hfront, List.reverse_reverse, String.toList_ofList]

theorem dirname_append (path : String) {ext : String} (hext : '/' ∉ ext.toList) :
    dirname (path ++ ext) = dirname path := by
  rw [dirname, String.toList_append, List.reverse_append,
    List.dropWhile_append_of_pos (forall_mem_reverse_ne hext)]
  rfl

theorem toList_basename (h : path.toList = front ++ '/' :: last) (hlast : '/' ∉ last) :
    (basename path).toList = last := by
  rw [basename, reverse_eq h, List.takeWhile_append_of_pos (forall_mem_reverse_ne hlast),
    List.takeWhile_cons_of_neg (by simp), List.append_nil, List.reverse_reverse,
    String.toList_ofList]

end

/-! ## Names of a path -/

/-- What is left of the pieces of a path. -/
def names (path : String) : List (List Char) := collapse (segments path.toList)

/-- A path of names, each with a slash in front, or only a slash if there are none. -/
structure IsMadeOf (path : String) (ns : List (List Char)) : Prop where
  isStep : ∀ s ∈ ns, IsStep s
  toList_eq : path.toList = '/' :: joined ns

theorem isMadeOf_normalize (path : String) : IsMadeOf (normalize path) (names path) where
  isStep _ := isStep_of_mem_collapse_segments
  toList_eq := toList_normalize path

section

variable {path a b : String} {ns : List (List Char)}

/-- A path tells what names it is made of. -/
theorem IsMadeOf.names_eq (h : IsMadeOf path ns) : names path = ns := by
  rw [names, h.toList_eq, collapse_segments_slash_joined h.isStep]

theorem IsMadeOf.eq_slash_iff (h : IsMadeOf path ns) : path = "/" ↔ ns = [] := by
  constructor
  · rintro rfl
    exact h.names_eq.symm
  · rintro rfl
    exact String.toList_injective h.toList_eq

theorem names_normalize (path : String) : names (normalize path) = names path :=
  (isMadeOf_normalize path).names_eq

theorem normalize_eq_iff_names_eq : normalize a = normalize b ↔ names a = names b := by
  constructor
  · intro h
    rw [← names_normalize a, h, names_normalize]
  · exact congrArg fun ns => String.ofList ('/' :: joined ns)

theorem normalize_normalize (path : String) : normalize (normalize path) = normalize path :=
  normalize_eq_iff_names_eq.2 (names_normalize path)

/-- The names of joined paths, given those of the first one. -/
theorem names_join (a b : String) :
    names (a ++ "/" ++ b) = collapse (names a ++ segments b.toList) := by
  have hchars : (a ++ "/" ++ b).toList = a.toList ++ '/' :: b.toList := by
    rw [String.toList_append, String.toList_append, List.append_assoc]
    rfl
  rw [names, hchars, segments_append_slash, collapse_append]
  rfl

/-- What a path is joined to can be brought into normal form first. -/
theorem normalize_join (a b : String) :
    normalize (a ++ "/" ++ b) = normalize (normalize a ++ "/" ++ b) := by
  rw [normalize_eq_iff_names_eq, names_join, names_join, names_normalize]

end

/-! ## Directories of paths in normal form -/

/-- The directory and the name of a path in normal form. -/
theorem exists_normalize_eq (path : String) :
    ∃ ds last, (∀ s ∈ ds, IsStep s) ∧ '/' ∉ last ∧
      (normalize path).toList = '/' :: joined (ds ++ [last]) ∧
      (dirname (normalize path)).toList = '/' :: joined ds ∧
      (basename (normalize path)).toList = last ∧
      collapse (segments path.toList) = collapse (ds ++ [last]) := by
  have hsteps : ∀ s ∈ collapse (segments path.toList), IsStep s := fun _ =>
    isStep_of_mem_collapse_segments
  have hchars := toList_normalize path
  rcases List.eq_nil_or_concat (collapse (segments path.toList)) with hnil | ⟨ds, last, hconcat⟩
  · rw [hnil] at hchars
    have hsplit : (normalize path).toList = [] ++ '/' :: [] := hchars
    exact ⟨[], [], by simp, by simp, hchars, toList_dirname hsplit (by simp),
      toList_basename hsplit (by simp), hnil⟩
  · rw [List.concat_eq_append] at hconcat
    rw [hconcat] at hchars hsteps
    have hds : ∀ s ∈ ds, IsStep s := fun s hs => hsteps s (List.mem_append_left _ hs)
    have hlast : IsStep last := hsteps last (by simp)
    have hsplit : (normalize path).toList =
        (if ds = [] then [] else '/' :: joined ds) ++ '/' :: last := by
      rw [hchars]
      split
      · rename_i hnil
        rw [hnil]
        simp [joined]
      · rename_i hne
        rw [joined_concat hne]
        rfl
    refine ⟨ds, last, hds, hlast.2, hchars, ?_, toList_basename hsplit hlast.2, ?_⟩
    · rw [toList_dirname hsplit hlast.2]
      by_cases hnil : ds = []
      · rw [if_pos hnil, if_pos rfl, hnil]
        rfl
      · rw [if_neg hnil, if_neg (List.cons_ne_nil _ _)]
    · rw [hconcat, collapse_of_isName fun s hs => (hsteps s hs).1]

/-- The directory of a path in normal form is made of all names but the last. -/
theorem isMadeOf_dirname_normalize (path : String) :
    IsMadeOf (dirname (normalize path)) (names path).dropLast := by
  obtain ⟨ds, last, hds, hlast, hnormalize, hdirname, -, -⟩ := exists_normalize_eq path
  have hmade := isMadeOf_normalize path
  have hslash : ∀ s ∈ ds ++ [last], '/' ∉ s := by
    intro s hs
    rcases List.mem_append.1 hs with hs | hs
    · exact (hds s hs).2
    · exact List.mem_singleton.1 hs ▸ hlast
  have hjoined : joined (names path) = joined (ds ++ [last]) :=
    (List.cons.inj (hmade.toList_eq.symm.trans hnormalize)).2
  have hdirectory : (names path).dropLast = ds := by
    rw [← dropLast_segments_joined fun s hs => (hmade.isStep s hs).2, hjoined,
      dropLast_segments_joined hslash, List.dropLast_concat]
  exact hdirectory ▸ ⟨hds, hdirname⟩

theorem names_dirname_normalize (path : String) :
    names (dirname (normalize path)) = (names path).dropLast :=
  (isMadeOf_dirname_normalize path).names_eq

theorem mem_of_mem_normalize {path : String} {c : Char} (h : c ∈ (normalize path).toList) :
    c = '/' ∨ c ∈ path.toList := by
  rw [toList_normalize] at h
  rcases List.mem_cons.1 h with h | h
  · exact .inl h
  · rcases mem_joined h with h | ⟨s, hs, hc⟩
    · exact .inl h
    · rcases mem_foldl_collapseStep (List.mem_reverse.1 hs) with hs | hs
      · cases hs
      · exact .inr (mem_of_mem_segments hs hc).1

theorem mem_of_mem_basename {path : String} {c : Char} (h : c ∈ (basename path).toList) :
    c ∈ path.toList ∧ c ≠ '/' := by
  rw [basename, String.toList_ofList, List.mem_reverse] at h
  have hne : (c != '/') = true := List.mem_takeWhile_imp (p := (· != '/')) h
  exact ⟨List.mem_reverse.1 (List.takeWhile_subset _ h), bne_iff_ne.1 hne⟩

/-- A name in a directory in normal form is one step more. -/
theorem IsMadeOf.names_beside {directory name : String} {ds : List (List Char)}
    (h : IsMadeOf directory ds) (hname : IsStep name.toList) :
    names (directory ++ "/" ++ name) = ds ++ [name.toList] := by
  have hall : ∀ s ∈ ds ++ [name.toList], IsName s := by
    intro s hs
    rcases List.mem_append.1 hs with hs | hs
    · exact (h.isStep s hs).1
    · exact List.mem_singleton.1 hs ▸ hname.1
  rw [names_join, h.names_eq, segments_of_slash_not_mem hname.2, collapse_of_isName hall]

theorem toList_normalize_append {directory name : String} {ds : List (List Char)}
    (hds : ∀ s ∈ ds, IsStep s) (hdirectory : directory.toList = '/' :: joined ds)
    (hname : IsStep name.toList) :
    (normalize (directory ++ "/" ++ name)).toList = '/' :: joined (ds ++ [name.toList]) := by
  rw [toList_normalize, ← names, IsMadeOf.names_beside ⟨hds, hdirectory⟩ hname]

theorem isName_of_length {s : List Char} (h : 2 < s.length) : IsName s := by
  refine ⟨?_, ?_, ?_⟩ <;>
    · rintro rfl
      revert h
      decide

/-- The name of a path with something behind it, taken relative to the path. -/
theorem normalize_beside (path : String) {ext : String} (hslash : '/' ∉ ext.toList)
    (hlength : 2 < ext.toList.length) :
    normalize (dirname (normalize path) ++ "/" ++ (basename (normalize path) ++ ext)) =
      normalize path ++ ext := by
  obtain ⟨ds, last, hds, hlast, hnormalize, hdirname, hbasename, -⟩ := exists_normalize_eq path
  have hname : (basename (normalize path) ++ ext).toList = last ++ ext.toList := by
    rw [String.toList_append, hbasename]
  have hstep : IsStep (last ++ ext.toList) := by
    refine ⟨isName_of_length ?_, by simp [hlast, hslash]⟩
    rw [List.length_append]
    omega
  refine String.toList_injective ?_
  rw [toList_normalize_append hds hdirname (hname ▸ hstep), hname, String.toList_append,
    hnormalize, List.cons_append, ← joined_concat_append]

end UrlPath

end ModuleWorkers
