import Mathlib.Data.List.TakeDrop
import ModuleWorkers.Path.File
import ModuleWorkers.Proofs.Path.Order

/-!
# Paths that climb

`overshoot` counts the `..` of a path that have nothing left to take along. They do not matter to
the path alone, but behind other names they take these along (`collapse_append_of_isName`). A path is
joined to a directory by putting its pieces behind those of the directory (`Path.joinNormal_eq`), and
absolute paths in normal form are equal exactly if they have the same names
(`Path.rooted_beq_rooted_iff`).
-/

namespace ModuleWorkers

/-! ## Pieces between slashes -/

theorem segments_eq_splitOn (cs : List Char) : segments cs = cs.splitOn '/' := by
  induction cs with
  | nil => rfl
  | cons c cs ih =>
    rw [segments, List.splitOn_cons_eq_if_modifyHead, ← ih]
    by_cases hc : c = '/'
    · rw [if_pos hc, if_pos (beq_iff_eq.2 hc)]
    · rw [if_neg hc, if_neg (by simpa using hc)]
      cases hcs : segments cs with
      | nil => exact absurd hcs (segments_ne_nil cs)
      | cons s ss => rfl

theorem segments_append_slash (as bs : List Char) :
    segments (as ++ '/' :: bs) = segments as ++ segments bs := by
  rw [segments_eq_splitOn, segments_eq_splitOn, segments_eq_splitOn, List.splitOn_append_cons_self]

theorem segments_slash (cs : List Char) : segments ('/' :: cs) = [] :: segments cs :=
  segments_append_slash [] cs

theorem segments_joined {ns : List (List Char)} (hns : ns ≠ []) (h : ∀ s ∈ ns, '/' ∉ s) :
    segments (joined ns) = ns := by
  rw [segments_eq_splitOn, joined, List.splitOn_intercalate _ h hns]

/-- The pieces but the last are known also where no piece was put in. -/
theorem dropLast_segments_joined {ns : List (List Char)} (h : ∀ s ∈ ns, '/' ∉ s) :
    (segments (joined ns)).dropLast = ns.dropLast := by
  by_cases hns : ns = []
  · subst hns
    rfl
  · rw [segments_joined hns h]

/-- Pieces are made of the characters of the text that are no slashes. -/
theorem mem_of_mem_segments {cs s : List Char} (h : s ∈ segments cs) {c : Char} (hc : c ∈ s) :
    c ∈ cs ∧ c ≠ '/' := by
  induction cs generalizing s with
  | nil =>
    cases List.mem_singleton.1 h
    cases hc
  | cons d cs ih =>
    rw [segments] at h
    split at h
    · rcases List.mem_cons.1 h with rfl | h
      · cases hc
      · exact (ih h hc).imp_left (List.mem_cons_of_mem d)
    · rename_i hd
      split at h
      · rename_i hnil
        exact absurd hnil (segments_ne_nil cs)
      · rename_i t ts hsegments
        rw [hsegments] at ih
        rcases List.mem_cons.1 h with rfl | h
        · rcases List.mem_cons.1 hc with rfl | hc
          · exact ⟨List.mem_cons_self, hd⟩
          · exact (ih List.mem_cons_self hc).imp_left (List.mem_cons_of_mem d)
        · exact (ih (List.mem_cons_of_mem t h) hc).imp_left (List.mem_cons_of_mem d)

theorem slash_not_mem_of_mem_segments {cs s : List Char} (h : s ∈ segments cs) : '/' ∉ s :=
  fun hs => (mem_of_mem_segments h hs).2 rfl

/-! ## What is left of pieces -/

/-- What is not a slash, `.` or `..`. -/
def IsStep (s : List Char) : Prop := IsName s ∧ '/' ∉ s

theorem mem_foldl_collapseStep {ss before : List (List Char)} {s : List Char}
    (h : s ∈ ss.foldl collapseStep before) : s ∈ before ∨ s ∈ ss := by
  induction ss generalizing before with
  | nil => exact .inl h
  | cons t ss ih =>
    rcases ih h with h | h
    · unfold collapseStep at h
      split at h
      · exact .inl h
      · split at h
        · exact .inl (List.mem_of_mem_tail h)
        · rcases List.mem_cons.1 h with rfl | h
          · exact .inr List.mem_cons_self
          · exact .inl h
    · exact .inr (List.mem_cons_of_mem t h)

theorem isStep_of_mem_collapse {ss : List (List Char)} (hss : ∀ s ∈ ss, '/' ∉ s) {s : List Char}
    (h : s ∈ collapse ss) : IsStep s := by
  refine ⟨mem_collapse h, hss s ?_⟩
  rcases mem_foldl_collapseStep (List.mem_reverse.1 h) with h | h
  · cases h
  · exact h

theorem isStep_of_mem_collapse_segments {cs s : List Char} (h : s ∈ collapse (segments cs)) :
    IsStep s :=
  isStep_of_mem_collapse (fun _ => slash_not_mem_of_mem_segments) h

/-- Empty pieces and `.` do not matter. -/
theorem collapse_append_cons (ss ts : List (List Char)) {s : List Char} (h : s = [] ∨ s = ['.']) :
    collapse (ss ++ s :: ts) = collapse (ss ++ ts) := by
  have hstep : ∀ before, collapseStep before s = before := fun _ => if_pos h
  rw [collapse, collapse, List.foldl_append, List.foldl_append, List.foldl_cons, hstep]

/-- Pieces that were put together count as themselves. -/
theorem collapse_append_segments_joined (ss : List (List Char)) {ns : List (List Char)}
    (h : ∀ s ∈ ns, '/' ∉ s) : collapse (ss ++ segments (joined ns)) = collapse (ss ++ ns) := by
  by_cases hns : ns = []
  · subst hns
    exact collapse_append_cons ss [] (.inl rfl)
  · rw [segments_joined hns h]

theorem collapse_segments_slash_joined {ns : List (List Char)} (h : ∀ s ∈ ns, IsStep s) :
    collapse (segments ('/' :: joined ns)) = ns := by
  have hjoined := collapse_append_segments_joined [[]] fun s hs => (h s hs).2
  rw [segments_slash]
  refine hjoined.trans ((collapse_append_cons [] ns (.inl rfl)).trans ?_)
  exact collapse_of_isName fun s hs => (h s hs).1

/-- Whether a piece is not skipped. -/
def isPiece (s : List Char) : Bool := s != [] && s != ['.']

/-- Without `..`, all pieces are left that are not skipped. -/
theorem collapse_of_not_mem {ss : List (List Char)} (h : ['.', '.'] ∉ ss) :
    collapse ss = ss.filter isPiece := by
  have hfoldl : ∀ before, ss.foldl collapseStep before = (ss.filter isPiece).reverse ++ before := by
    induction ss with
    | nil =>
      intro before
      rfl
    | cons s ss ih =>
      intro before
      rw [List.mem_cons, not_or] at h
      obtain ⟨hne, hnot⟩ := h
      rw [List.foldl_cons, ih hnot, List.filter_cons]
      by_cases hskip : s = [] ∨ s = ['.']
      · have : isPiece s = false := by rcases hskip with rfl | rfl <;> rfl
        rw [collapseStep, if_pos hskip, this]
        rfl
      · have hname : IsName s := ⟨fun h => hskip (.inl h), fun h => hskip (.inr h), Ne.symm hne⟩
        have : isPiece s = true := by simp [isPiece, hname.1, hname.2.1]
        rw [collapseStep_of_isName hname, if_pos this, List.reverse_cons, List.append_assoc]
        rfl
  rw [collapse, hfoldl, List.append_nil, List.reverse_reverse]

/-- How many `..` have nothing in front of them, given how many names there are. -/
def overshootFrom (depth : Nat) : List (List Char) → Nat
  | [] => 0
  | s :: ss =>
    if s = [] ∨ s = ['.'] then overshootFrom depth ss
    else if s = ['.', '.'] then
      if depth = 0 then overshootFrom 0 ss + 1 else overshootFrom (depth - 1) ss
    else overshootFrom (depth + 1) ss

/-- How many `..` of a path have nothing left to take along. -/
def overshoot (ss : List (List Char)) : Nat := overshootFrom 0 ss

/-- The names in front go as far as `..` has none of its own. -/
theorem foldl_collapseStep_append (ss own names : List (List Char)) :
    ss.foldl collapseStep (own ++ names) =
      ss.foldl collapseStep own ++ names.drop (overshootFrom own.length ss) := by
  induction ss generalizing own names with
  | nil => rfl
  | cons s ss ih =>
    rw [List.foldl_cons, List.foldl_cons, overshootFrom]
    by_cases hskip : s = [] ∨ s = ['.']
    · have hstep : ∀ before, collapseStep before s = before := fun _ => if_pos hskip
      rw [hstep, hstep, if_pos hskip]
      exact ih own names
    · rw [if_neg hskip]
      by_cases hup : s = ['.', '.']
      · have hstep : ∀ before, collapseStep before s = before.tail := by
          intro before
          rw [collapseStep, if_neg hskip, if_pos hup]
        rw [hstep, hstep, if_pos hup]
        cases own with
        | nil =>
          rw [if_pos List.length_nil, Nat.add_comm, ← List.drop_drop, List.drop_one]
          exact ih [] names.tail
        | cons t own =>
          rw [if_neg (by simp)]
          exact ih own names
      · rw [collapseStep_of_isName ⟨fun h => hskip (.inl h), fun h => hskip (.inr h), hup⟩,
          collapseStep_of_isName ⟨fun h => hskip (.inl h), fun h => hskip (.inr h), hup⟩, if_neg hup]
        exact ih (s :: own) names

/-- Names lose as many of their last ones as the pieces behind them overshoot. -/
theorem collapse_append_of_isName {ns : List (List Char)} (h : ∀ s ∈ ns, IsName s)
    (ss : List (List Char)) :
    collapse (ns ++ ss) = ns.take (ns.length - overshoot ss) ++ collapse ss := by
  have := foldl_collapseStep_append ss [] ns.reverse
  rw [List.nil_append, List.drop_reverse] at this
  rw [collapse, List.foldl_append, foldl_collapseStep_of_isName h, List.append_nil, this,
    List.reverse_append, List.reverse_reverse]
  rfl

/-- Names stay whole exactly if nothing overshoots, or there are none. -/
theorem collapse_append_eq_iff {ns : List (List Char)} (h : ∀ s ∈ ns, IsName s)
    (ss : List (List Char)) :
    collapse (ns ++ ss) = ns ++ collapse ss ↔ ns = [] ∨ overshoot ss = 0 := by
  rw [collapse_append_of_isName h, List.append_left_inj, List.take_eq_self_iff]
  constructor
  · intro hle
    by_cases hns : ns = []
    · exact .inl hns
    · have := List.length_pos_iff.2 hns
      exact .inr (by omega)
  · rintro (rfl | hzero)
    · exact Nat.zero_le _
    · omega

/-! ## Absolute paths -/

namespace Path

/-- The absolute path of names. -/
def rooted (ns : List (List Char)) : Path := ofChars ('/' :: joined ns)

/-- The names of an absolute path in normal form. -/
def names (p : Path) : List (List Char) := collapse (segments p.chars)

theorem isStep_of_mem_names {p : Path} {s : List Char} (h : s ∈ p.names) : IsStep s :=
  isStep_of_mem_collapse_segments h

theorem isStep_of_mem_names_append {p : Path} {ns : List (List Char)} (h : ∀ s ∈ ns, IsStep s)
    {s : List Char} (hs : s ∈ p.names ++ ns) : IsStep s := by
  rcases List.mem_append.1 hs with hs | hs
  · exact isStep_of_mem_names hs
  · exact h s hs

theorem chars_ofChars (cs : List Char) : (ofChars cs).chars = cs := String.toList_ofList

theorem chars_rooted (ns : List (List Char)) : (rooted ns).chars = '/' :: joined ns :=
  String.toList_ofList

theorem isAbsolute_rooted (ns : List (List Char)) : (rooted ns).isAbsolute := by
  rw [isAbsolute, chars_rooted]
  rfl

theorem exists_chars_eq_of_isAbsolute {p : Path} (h : p.isAbsolute) :
    ∃ cs, p.chars = '/' :: cs := by
  unfold isAbsolute at h
  cases hp : p.chars with
  | nil =>
    rw [hp] at h
    cases h
  | cons c cs =>
    rw [hp] at h
    obtain rfl : c = '/' := by simpa using h
    exact ⟨cs, rfl⟩

theorem exists_chars_eq_of_endsWith {p : Path} (h : p.text.endsWith "/") :
    ∃ cs, p.chars = cs ++ ['/'] := by
  unfold String.endsWith at h
  obtain ⟨cs, hcs⟩ := String.Slice.endsWith_string_iff.1 h
  rw [String.copy_toSlice] at hcs
  exact ⟨cs, hcs.symm⟩

/-- A relative path goes behind another one piece by piece. -/
theorem join_of_relative (p : Path) {r : Path} (hr : r.isAbsolute = false) :
    (p.join r).isAbsolute = p.isAbsolute ∧
      (p.join r).names = collapse (segments p.chars ++ segments r.chars) := by
  unfold join names
  rw [hr, if_neg Bool.false_ne_true]
  by_cases hempty : p.text.isEmpty
  · have hp : p.chars = [] := by rw [chars, String.isEmpty_iff.1 hempty]; rfl
    have hchars : (⟨p.text ++ r.text⟩ : Path).chars = r.chars := by
      rw [String.isEmpty_iff.1 hempty, String.empty_append]
    have hskip := collapse_append_cons [] (segments r.chars) (.inl rfl)
    rw [hempty, Bool.true_or, if_pos rfl, isAbsolute, isAbsolute, hchars, hp]
    exact ⟨hr, hskip.symm⟩
  · obtain ⟨c, cs, hcs⟩ : ∃ c cs, p.chars = c :: cs := by
      refine List.exists_cons_of_ne_nil fun hnil => hempty ?_
      rw [String.isEmpty_iff, ← String.toList_inj]
      exact hnil
    rw [Bool.not_eq_true] at hempty
    rw [hempty, Bool.false_or]
    by_cases hslash : p.text.endsWith "/"
    · rw [if_pos hslash]
      have hchars : (⟨p.text ++ r.text⟩ : Path).chars = p.chars ++ r.chars := String.toList_append
      refine ⟨by rw [isAbsolute, isAbsolute, hchars, hcs]; rfl, ?_⟩
      obtain ⟨front, hfront⟩ := exists_chars_eq_of_endsWith hslash
      have := collapse_append_cons (segments front) (segments r.chars) (.inl rfl)
      rw [hchars, hfront, List.append_assoc, List.singleton_append, segments_append_slash,
        segments_append_slash, List.append_assoc]
      exact this.symm
    · rw [if_neg hslash]
      have hchars : (⟨p.text ++ "/" ++ r.text⟩ : Path).chars = p.chars ++ '/' :: r.chars := by
        simp [chars]
      refine ⟨by rw [isAbsolute, isAbsolute, hchars, hcs]; rfl, ?_⟩
      rw [hchars, segments_append_slash]

/-- The path of names, from the root if it is absolute. -/
def ofNames (absolute : Bool) (ns : List (List Char)) : Path :=
  ofChars (if absolute then '/' :: joined ns else joined ns)

theorem normal_eq (p : Path) : p.normal = ofNames p.isAbsolute p.names := rfl

/-- Slashes at the start add empty pieces only. -/
theorem collapse_append_segments_dropWhile (ss : List (List Char)) (cs : List Char) :
    collapse (ss ++ segments (cs.dropWhile (· == '/'))) = collapse (ss ++ segments cs) := by
  induction cs with
  | nil => rfl
  | cons c cs ih =>
    rw [List.dropWhile_cons]
    split
    · rename_i hc
      rw [beq_iff_eq.1 hc, segments_slash, collapse_append_cons _ _ (.inl rfl), ih]
    · rfl

/-- The names of a path behind those of a directory, brought into normal form. -/
theorem joinNormal_eq (dir : Path) (relative : String) : dir.joinNormal relative =
    ofNames dir.isAbsolute (collapse (dir.names ++ segments relative.toList)) := by
  have hr : (ofChars (relative.toList.dropWhile (· == '/'))).isAbsolute = false := by
    rw [isAbsolute, chars_ofChars]
    cases hdrop : relative.toList.dropWhile (· == '/') with
    | nil => rfl
    | cons c cs =>
      have hc := List.head_dropWhile_not (· == '/') (l := relative.toList) (by simp [hdrop])
      simp only [hdrop, List.head_cons] at hc
      simpa using hc
  obtain ⟨habsolute, hnames⟩ := dir.join_of_relative hr
  rw [joinNormal, normal_eq, habsolute, hnames, chars_ofChars, collapse_append_segments_dropWhile,
    collapse_append]
  rfl

theorem joinNormal_of_isAbsolute {dir : Path} (h : dir.isAbsolute) (relative : String) :
    dir.joinNormal relative = rooted (collapse (dir.names ++ segments relative.toList)) := by
  rw [joinNormal_eq, h]
  rfl

theorem names_rooted {ns : List (List Char)} (h : ∀ s ∈ ns, IsStep s) : (rooted ns).names = ns := by
  rw [names, chars_rooted, collapse_segments_slash_joined h]

/-! ## Components -/

theorem filterMap_counts (ss : List (List Char)) {k : Nat} (hk : 0 < k) :
    (ss.zipIdx k).filterMap (fun (s, j) => if counts j s then some (component s) else none) =
      (ss.filter isPiece).map component := by
  induction ss generalizing k with
  | nil => rfl
  | cons s ss ih =>
    have hcounts : counts k s = isPiece s := by
      have hzero : (k == 0) = false := beq_eq_false_iff_ne.2 (Nat.ne_of_gt hk)
      rw [counts, hzero, Bool.or_false, isPiece]
    rw [List.zipIdx_cons, List.filterMap_cons, List.filter_cons, ih (Nat.succ_pos k)]
    simp only [hcounts]
    cases isPiece s <;> rfl

/-- An absolute path is made of its root and the pieces that are not empty or `.`. -/
theorem components_of_isAbsolute {p : Path} (h : p.isAbsolute) :
    p.components = .root :: ((segments p.chars).filter isPiece).map component := by
  obtain ⟨cs, hcs⟩ := exists_chars_eq_of_isAbsolute h
  have hcounts : counts 0 [] = false := rfl
  rw [components, h, hcs, segments_slash, List.zipIdx_cons, List.filterMap_cons]
  simp only [hcounts]
  rw [filterMap_counts _ (Nat.succ_pos 0)]
  rfl

theorem component_of_isName {s : List Char} (h : IsName s) : component s = .name s := by
  rw [component, if_neg h.2.1, if_neg h.2.2]

/-- Without `..`, the names of an absolute path are the pieces that count. -/
theorem components_eq_names {p : Path} (h : p.isAbsolute) (hup : ['.', '.'] ∉ segments p.chars) :
    p.components = .root :: p.names.map .name := by
  have hnames : p.names = (segments p.chars).filter isPiece := collapse_of_not_mem hup
  rw [components_of_isAbsolute h, ← hnames]
  exact congrArg _ (List.map_congr_left fun s hs => component_of_isName (isStep_of_mem_names hs).1)

theorem up_mem_components {p : Path} (h : p.isAbsolute) (hup : ['.', '.'] ∈ segments p.chars) :
    .up ∈ p.components := by
  rw [components_of_isAbsolute h]
  exact List.mem_cons_of_mem _ (List.mem_map.2 ⟨_, List.mem_filter.2 ⟨hup, by decide⟩, rfl⟩)

theorem components_rooted {ns : List (List Char)} (h : ∀ s ∈ ns, IsStep s) :
    (rooted ns).components = .root :: ns.map .name := by
  have hup : ['.', '.'] ∉ segments (rooted ns).chars := by
    rw [chars_rooted, segments_slash]
    by_cases hns : ns = []
    · subst hns
      decide
    · rw [segments_joined hns fun s hs => (h s hs).2]
      exact List.not_mem_cons_of_ne_of_not_mem (by decide) fun hmem => (h _ hmem).1.2.2 rfl
  have := components_eq_names (isAbsolute_rooted ns) hup
  rwa [names_rooted h] at this

/-- Paths in normal form are equal if their names are. -/
theorem rooted_beq_rooted_iff {ns ms : List (List Char)} (hns : ∀ s ∈ ns, IsStep s)
    (hms : ∀ s ∈ ms, IsStep s) : (rooted ns == rooted ms) = true ↔ ns = ms := by
  rw [beq_iff, components_rooted hns, components_rooted hms, List.cons.injEq, eq_self, true_and]
  constructor
  · intro h
    exact List.map_injective_iff.2 (fun _ _ h => Component.name.inj h) h
  · rintro rfl
    rfl

/-- A path whose names begin with those of a directory is below it. -/
theorem isBelow_rooted_append {dir : Path} (h : dir.isAbsolute) (hup : .up ∉ dir.components)
    {ns : List (List Char)} (hns : ∀ s ∈ ns, IsStep s) : (rooted (dir.names ++ ns)).isBelow dir := by
  have hdir : dir.components = .root :: dir.names.map .name :=
    components_eq_names h fun hmem => hup (up_mem_components h hmem)
  have hall : ∀ s ∈ dir.names ++ ns, IsStep s := fun s => isStep_of_mem_names_append hns
  rw [isBelow, hdir, components_rooted hall, List.isPrefixOf_iff_prefix, List.map_append]
  exact ⟨ns.map .name, rfl⟩

end Path

end ModuleWorkers
