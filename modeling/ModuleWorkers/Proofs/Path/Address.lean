import ModuleWorkers.Proofs.FileSystem
import ModuleWorkers.Proofs.Path.Url

/-!
# Addresses of files

The file of an address is made of the names of the root directory and those of the address
(`Path.ofUrl_eq`). If it is below the root, which it is for absolute roots without `..`
(`Path.isBelow_ofUrl`), its address is the path in normal form that it was found at
(`Path.urlOf?_ofUrl`).
-/

namespace ModuleWorkers

namespace Path

/-! ## Paths of names -/

theorem chars_ofNames (absolute : Bool) (ns : List (List Char)) :
    (ofNames absolute ns).chars = if absolute then '/' :: joined ns else joined ns :=
  chars_ofChars _

theorem isAbsolute_ofNames (absolute : Bool) {ns : List (List Char)} (h : ∀ s ∈ ns, IsStep s) :
    (ofNames absolute ns).isAbsolute = absolute := by
  rw [isAbsolute, chars_ofNames]
  cases absolute with
  | true => rfl
  | false =>
    rw [if_neg Bool.false_ne_true]
    exact beq_eq_false_iff_ne.2 (head?_joined_ne h)

/-- What stands in front of the names among the pieces of a path: the root is an empty piece. -/
def lead (absolute : Bool) : List (List Char) := if absolute then [[]] else []

theorem segments_ofNames (absolute : Bool) {ns : List (List Char)} (h : ∀ s ∈ ns, IsStep s)
    (hns : ns ≠ []) : segments (ofNames absolute ns).chars = lead absolute ++ ns := by
  have hjoined := segments_joined hns fun s hs => (h s hs).2
  cases absolute with
  | true => rw [chars_ofNames, if_pos rfl, segments_slash, hjoined]; rfl
  | false => rw [chars_ofNames, if_neg Bool.false_ne_true, hjoined]; rfl

theorem counts_of_isName {s : List Char} (h : IsName s) (k : Nat) : counts k s = true := by
  simp [counts, h.1, h.2.1]

/-- Names all count. -/
theorem filterMap_counts_of_isName {α : Type} (f : List Char → Nat → α) {ss : List (List Char)}
    (h : ∀ s ∈ ss, IsName s) (k : Nat) :
    (ss.zipIdx k).filterMap (fun (s, j) => if counts j s then some (f s j) else none) =
      (ss.zipIdx k).map fun (s, j) => f s j := by
  induction ss generalizing k with
  | nil => rfl
  | cons s ss ih =>
    rw [List.zipIdx_cons, List.filterMap_cons, List.map_cons,
      ih fun t ht => h t (List.mem_cons_of_mem s ht)]
    simp only [counts_of_isName (h s List.mem_cons_self), if_true]

/-- Of the pieces of a path of names exactly the names count. -/
theorem filterMap_counts_ofNames {α : Type} (f : List Char → Nat → α) (absolute : Bool)
    {ns : List (List Char)} (h : ∀ s ∈ ns, IsStep s) :
    (segments (ofNames absolute ns).chars).zipIdx.filterMap
        (fun (s, j) => if counts j s then some (f s j) else none) =
      (ns.zipIdx (lead absolute).length).map fun (s, j) => f s j := by
  by_cases hns : ns = []
  · subst hns
    cases absolute <;> rfl
  · have hnames := fun k => filterMap_counts_of_isName f (fun s hs => (h s hs).1) k
    rw [segments_ofNames absolute h hns]
    cases absolute with
    | true => exact hnames 1
    | false => exact hnames 0

theorem components_ofNames (absolute : Bool) {ns : List (List Char)} (h : ∀ s ∈ ns, IsStep s) :
    (ofNames absolute ns).components =
      if absolute then .root :: ns.map .name else ns.map .name := by
  have hsteps : (ofNames absolute ns).steps = ns.map .name := by
    rw [steps, filterMap_counts_ofNames (fun s _ => component s) absolute h]
    calc (ns.zipIdx (lead absolute).length).map (fun p => component p.1)
        = (ns.zipIdx (lead absolute).length).map (fun p => Component.name p.1) := by
          refine List.map_congr_left fun p hp => component_of_isName (h p.1 ?_).1
          exact (List.mem_zipIdx hp).2.2 ▸ List.getElem_mem _
      _ = (ns.zipIdx (lead absolute).length).map (Component.name ∘ Prod.fst) := rfl
      _ = ns.map .name := by rw [← List.map_map, List.zipIdx_map_fst]
  rw [components_eq, isAbsolute_ofNames absolute h, hsteps]

theorem counting_ofNames (absolute : Bool) {ns : List (List Char)} (h : ∀ s ∈ ns, IsStep s) :
    (ofNames absolute ns).counting.reverse = List.range' (lead absolute).length ns.length := by
  rw [counting, List.reverse_reverse, filterMap_counts_ofNames (fun _ j => j) absolute h]
  exact List.zipIdx_map_snd _ _

theorem joined_lead (absolute : Bool) {ns : List (List Char)} (hns : ns ≠ []) :
    ofChars (joined (lead absolute ++ ns)) = ofNames absolute ns := by
  cases absolute with
  | false => rfl
  | true =>
    have hlead : joined ([] :: ns) = '/' :: joined ns := by
      rw [joined, List.intercalate_cons_of_ne_nil hns]
      rfl
    exact congrArg ofChars hlead

/-- The directory of a path of names is made of all but the last. -/
theorem parent?_ofNames (absolute : Bool) {ns : List (List Char)} {last : List Char}
    (h : ∀ s ∈ ns ++ [last], IsStep s) :
    (ofNames absolute (ns ++ [last])).parent? = some (ofNames absolute ns) := by
  have hcounting : (ofNames absolute (ns ++ [last])).counting =
      ((lead absolute).length + ns.length) ::
        (List.range' (lead absolute).length ns.length).reverse := by
    rw [← List.reverse_reverse (counting _), counting_ofNames absolute h, List.length_append,
      List.length_singleton, List.range'_concat, List.reverse_append]
    simp
  rw [parent?, hcounting]
  rcases List.eq_nil_or_concat ns with rfl | ⟨init, t, rfl⟩
  · have habsolute := isAbsolute_ofNames absolute h
    rw [List.nil_append] at habsolute
    simp only [List.length_nil, List.range'_zero, List.reverse_nil, List.nil_append, habsolute]
    cases absolute <;> rfl
  · rw [List.concat_eq_append] at h ⊢
    rw [List.length_append, List.length_singleton, List.range'_concat, List.reverse_append]
    simp only [List.reverse_singleton, List.singleton_append]
    rw [segments_ofNames absolute h (by simp), ← List.append_assoc,
      List.take_left' (by simp; omega), joined_lead absolute (by simp)]

/-! ## Files of addresses -/

theorem isStep_of_mem_ofUrl {root : Path} {url : String} {s : List Char}
    (hs : s ∈ root.names ++ collapse (segments url.toList)) : IsStep s :=
  isStep_of_mem_names_append (fun _ => isStep_of_mem_collapse_segments) hs

/-- The names of an address behind those of the root. -/
theorem ofUrl_eq (root : Path) (url : String) : root.ofUrl url =
    ofNames root.isAbsolute (root.names ++ collapse (segments url.toList)) := by
  have hsteps : ∀ s ∈ collapse (segments url.toList), IsStep s := fun _ =>
    isStep_of_mem_collapse_segments
  have hjoined := collapse_append_segments_joined root.names fun s hs => (hsteps s hs).2
  rw [ofUrl, joinNormal_eq, UrlPath.toList_normalize, segments_slash,
    collapse_append_cons _ _ (.inl rfl), hjoined,
    collapse_of_isName fun s hs => (isStep_of_mem_ofUrl hs).1]

/-- The file of an address is below an absolute root without `..`, whatever the address. -/
theorem isBelow_ofUrl {root : Path} (h : root.isAbsolute) (hup : .up ∉ root.components)
    (url : String) : (root.ofUrl url).isBelow root := by
  rw [ofUrl_eq, h]
  exact isBelow_rooted_append h hup fun _ => isStep_of_mem_collapse_segments

/-- A directory that a path of names is below is made of the first of these names. -/
theorem steps_eq_of_isBelow {dir : Path} {absolute : Bool} {ns : List (List Char)}
    (h : ∀ s ∈ ns, IsStep s) (hbelow : (ofNames absolute ns).isBelow dir) :
    ∃ ms, ms <+: ns ∧ dir.steps = ms.map .name ∧ dir.names = ms := by
  rw [isBelow, components_ofNames absolute h, List.isPrefixOf_iff_prefix] at hbelow
  have hsteps : dir.steps <+: ns.map .name := by
    have hfilter := hbelow.filter (· != .root)
    rw [← steps_eq] at hfilter
    have hnames : (ns.map Component.name).filter (· != .root) = ns.map .name := by
      rw [List.filter_eq_self]
      intro c hc
      obtain ⟨s, -, rfl⟩ := List.mem_map.1 hc
      rfl
    cases absolute with
    | true => simpa [hnames] using hfilter
    | false => simpa [hnames] using hfilter
  obtain ⟨ms, hms, hdir⟩ := List.prefix_map_iff.1 hsteps
  refine ⟨ms, hms, hdir, ?_⟩
  have hplace : dir.names = collapse (dir.steps.map Component.chars) := place_eq dir
  rw [hplace, hdir, List.map_map]
  have hid : Component.chars ∘ Component.name = id := rfl
  rw [hid, List.map_id, collapse_of_isName fun s hs => (h s (hms.subset hs)).1]

/-- What is left of a path of names below a directory. -/
theorem below?_ofNames {dir : Path} {absolute : Bool} {ms ns : List (List Char)}
    (h : ∀ s ∈ ms ++ ns, IsStep s) (hdir : dir.steps = ms.map .name)
    (hbelow : (ofNames absolute (ms ++ ns)).isBelow dir) :
    (ofNames absolute (ms ++ ns)).below? dir = some (ofChars (joined ns)) := by
  have hlength : (dir.components.filter (· != .root)).length = ms.length := by
    rw [← steps_eq, hdir, List.length_map]
  rw [below?, if_pos hbelow]
  simp only [hlength]
  rw [counting_ofNames absolute h, List.length_append, List.drop_range', Nat.mul_one,
    Nat.add_sub_cancel_left]
  cases ns with
  | nil => rfl
  | cons s ns =>
    rw [segments_ofNames absolute h (by simp), List.length_cons, List.range'_succ]
    simp only
    have hlast : (List.range' ((lead absolute).length + ms.length + 1) ns.length).getLastD
        ((lead absolute).length + ms.length) = (lead absolute).length + ms.length + ns.length := by
      rw [List.getLastD_eq_getLast?, List.getLast?_range']
      split
      · simp [*]
      · simp only [Option.getD_some]
        omega
    have htake : lead absolute ++ (ms ++ s :: ns) = (lead absolute ++ ms) ++ s :: ns :=
      (List.append_assoc _ _ _).symm
    rw [hlast, List.take_of_length_le (by simp; omega), htake, ← List.length_append,
      List.drop_left]

/-- The directory of the file of an address is that of the directory of the address. -/
theorem parent?_ofUrl (root : Path) {url : String} (h : UrlPath.normalize url ≠ "/") :
    (root.ofUrl (UrlPath.normalize url)).parent? =
      some (root.ofUrl (UrlPath.dirname (UrlPath.normalize url))) := by
  have hne : UrlPath.names url ≠ [] := (UrlPath.isMadeOf_normalize url).eq_slash_iff.not.1 h
  have hconcat := (List.dropLast_concat_getLast hne).symm
  have hfile : ∀ s ∈ root.names ++ (UrlPath.names url).dropLast ++ [(UrlPath.names url).getLast hne],
      IsStep s := by
    rw [List.append_assoc, ← hconcat]
    exact fun s => isStep_of_mem_ofUrl
  rw [ofUrl_eq, ofUrl_eq, ← UrlPath.names, ← UrlPath.names, UrlPath.names_normalize,
    UrlPath.names_dirname_normalize, ← parent?_ofNames root.isAbsolute hfile, List.append_assoc,
    ← hconcat]

/-- The address of the file of an address is the address in normal form. -/
theorem urlOf?_ofUrl {root : Path} {url : String} (h : (root.ofUrl url).isBelow root) :
    root.urlOf? (root.ofUrl url) = some (UrlPath.normalize url) := by
  have hall : ∀ s ∈ root.names ++ collapse (segments url.toList), IsStep s :=
    fun s => isStep_of_mem_ofUrl
  rw [ofUrl_eq] at h ⊢
  obtain ⟨ms, -, hsteps, hnames⟩ := steps_eq_of_isBelow hall h
  rw [hnames] at h hall ⊢
  rw [urlOf?, below?_ofNames hall hsteps h, Option.map_some, Option.some.injEq,
    ← String.toList_inj, UrlPath.toList_normalize, String.toList_append]
  exact congrArg ('/' :: ·) (chars_ofChars _)

end Path

end ModuleWorkers
