import Mathlib.Data.List.Induction
import ModuleWorkers.Proofs.FileSystem
import ModuleWorkers.Proofs.Path.Collapse

/-!
# Directories are what files imply

Of files that were written one after the other, a path is the one that was written last to the place
that it leads to, however it is spelled, and a directory if files lie below that place
(`FileSystem.isImplied_ofWrites`). There is one exception: a path that was written as a file is no
directory, even if files lie below it (`FileSystem.not_isDir_above`). In the order of paths all that
is below a directory follows it at once (`Path.isBelow_of_not_lt`), so the first file from there on
tells whether there is one (`FileSystem.IsNormal.isDir_eq_firstFrom?`).
-/

namespace ModuleWorkers

/-! ## Places -/

namespace Place

/-- Where a step of a path leads from a place. -/
def enter (p : Place) : Path.Component → Place
  | .up => p.dropLast
  | .name s => p ++ [s]
  | .root | .here => p

/-- Whether a place is inside another one, at any depth. -/
def IsInside (q p : Place) : Prop := p <+: q ∧ q ≠ p

end Place

namespace Path

theorem foldl_enter_steps (ss before : List (List Char)) (k : Nat) :
    ((ss.zipIdx k).filterMap fun (s, k) => if counts k s then some (component s) else none).foldl
      Place.enter before.reverse = (ss.foldl collapseStep before).reverse := by
  induction ss generalizing before k with
  | nil => rfl
  | cons s ss ih =>
    rw [List.zipIdx_cons, List.filterMap_cons, List.foldl_cons, ← ih _ (k + 1)]
    by_cases hs : counts k s = true
    · have hne : s ≠ [] := by
        rintro rfl
        cases hs
      have henter : Place.enter before.reverse (component s) = (collapseStep before s).reverse := by
        unfold component collapseStep
        by_cases hhere : s = ['.']
        · rw [if_pos hhere, if_pos (.inr hhere)]
          rfl
        · rw [if_neg hhere, if_neg (not_or.2 ⟨hne, hhere⟩)]
          by_cases hup : s = ['.', '.']
          · rw [if_pos hup, if_pos hup]
            exact List.dropLast_reverse
          · rw [if_neg hup, if_neg hup]
            exact List.reverse_cons.symm
      simp only [hs, if_true]
      rw [List.foldl_cons, henter]
    · have hskip : collapseStep before s = before := by
        unfold counts at hs
        refine if_pos ?_
        by_contra hne
        simp_all
      simp only [hs, hskip]
      rfl

/-- The place of a path is where its components lead from the root. -/
theorem place_eq_foldl_enter (p : Path) : p.place = p.components.foldl Place.enter [] := by
  have hsteps : p.steps.foldl Place.enter [] = p.place := foldl_enter_steps (segments p.chars) [] 0
  rw [components_eq]
  split
  · exact hsteps.symm
  · exact hsteps.symm

theorem isStep_of_mem_place {p : Path} {s : List Char} (h : s ∈ p.place) : IsStep s :=
  isStep_of_mem_names h

/-! ## The order of paths -/

/-- What begins with some steps does not come before them. -/
theorem not_go_append (as bs : List Component) : ¬ lt.go (as ++ bs) as := by
  induction as with
  | nil => simp [lt.go]
  | cons a as ih =>
    rw [List.cons_append, go_cons_iff]
    rintro (h | ⟨-, h⟩)
    · exact Component.lt_irrefl a h
    · exact ih h

/-- What stands between some steps and what begins with them begins with them, too. -/
theorem prefix_of_not_go {as bs cs : List Component} (has : ¬ lt.go bs as)
    (hcs : ¬ lt.go (as ++ cs) bs) : as <+: bs := by
  induction as generalizing bs with
  | nil => exact List.nil_prefix
  | cons a as ih =>
    cases bs with
    | nil => exact absurd rfl has
    | cons b bs =>
      rw [List.cons_append, go_cons_iff, not_or] at hcs
      rw [go_cons_iff, not_or] at has
      rcases Component.lt_or_eq_or_gt a b with hlt | rfl | hlt
      · exact absurd hlt hcs.1
      · exact List.cons_prefix_cons.2
          ⟨rfl, ih (fun h => has.2 ⟨rfl, h⟩) fun h => hcs.2 ⟨rfl, h⟩⟩
      · exact absurd hlt has.1

theorem isBelow_iff {p dir : Path} : p.isBelow dir = true ↔ dir.components <+: p.components :=
  List.isPrefixOf_iff_prefix

/-- What is below a directory does not come before it. -/
theorem not_lt_of_isBelow {p dir : Path} (h : p.isBelow dir = true) : ¬ p.lt dir := by
  obtain ⟨rest, hrest⟩ := isBelow_iff.1 h
  unfold lt
  rw [← hrest]
  exact not_go_append _ _

/-- What stands between a directory and something below it is below it, too. -/
theorem isBelow_of_not_lt {p q dir : Path} (h : p.isBelow dir = true) (hdir : ¬ q.lt dir)
    (hp : ¬ p.lt q) : q.isBelow dir = true := by
  obtain ⟨rest, hrest⟩ := isBelow_iff.1 h
  unfold lt at hdir hp
  rw [← hrest] at hp
  exact isBelow_iff.2 (prefix_of_not_go hdir hp)

theorem isBelow_rooted_iff {ns ms : List (List Char)} (hns : ∀ s ∈ ns, IsStep s)
    (hms : ∀ s ∈ ms, IsStep s) : (rooted ns).isBelow (rooted ms) = true ↔ ms <+: ns := by
  rw [isBelow_iff, components_rooted hns, components_rooted hms, List.cons_prefix_cons, eq_self,
    true_and]
  exact List.prefix_map_iff_of_injective fun _ _ => Component.name.inj

end Path

namespace PathSet

theorem mem_of_mem_ofList {ps : List Path} {q : Path} (h : q ∈ ofList ps) : q ∈ ps := by
  induction ps with
  | nil => cases h
  | cons p ps ih =>
    rcases mem_insert h with rfl | h
    · exact List.mem_cons_self
    · exact List.mem_cons_of_mem p (ih h)

/-- The first path of a set that does not come before a given one: all others that do not come
before it come later. -/
theorem IsSorted.find?_spec {s : PathSet} (h : IsSorted s) {dir : Path} :
    match s.find? (!·.lt dir) with
    | none => ∀ q ∈ s, q.lt dir
    | some p => p ∈ s ∧ ¬ p.lt dir ∧ ∀ q ∈ s, ¬ q.lt dir → q = p ∨ p.lt q := by
  cases hfind : s.find? (!·.lt dir) with
  | none => simpa using hfind
  | some p =>
    obtain ⟨hp, before, after, rfl, hbefore⟩ := List.find?_eq_some_iff_append.1 hfind
    refine ⟨by simp, by simpa using hp, fun q hq hlt => ?_⟩
    rcases List.mem_append.1 hq with hq | hq
    · exact absurd (by simpa using hbefore q hq) hlt
    · rcases List.mem_cons.1 hq with rfl | hq
      · exact .inl rfl
      · exact .inr ((List.pairwise_cons.1 (List.pairwise_append.1 h).2.1).1 q hq)

end PathSet

namespace FileSystem

variable {fs : FileSystem} {p q : Path} {ws : List (Path × ByteArray)}

/-! ## What was written -/

theorem content?_write (fs : FileSystem) (p : Path) (content : ByteArray) (q : Path) :
    (fs.write p content).content? q =
      if q.place = p.place then some content else fs.content? q := by
  unfold content? write
  by_cases h : q.place = p.place
  · rw [if_pos h, h]
    exact List.lookup_cons_self
  · have hskip := lookup_filter (fun k => k != p.place) q.place fs.files
    rw [if_pos (by simpa using h)] at hskip
    rw [if_neg h, List.lookup_cons, beq_eq_false_iff_ne.2 h]
    exact hskip

theorem mem_places_write {content : ByteArray} {t : Place} :
    t ∈ (fs.write p content).files.map Prod.fst ↔ t = p.place ∨ t ∈ fs.files.map Prod.fst := by
  unfold write
  rw [List.map_cons, List.mem_cons]
  by_cases h : t = p.place
  · exact ⟨fun _ => .inl h, fun _ => .inl h⟩
  · refine or_congr_right ?_
    simp only [List.mem_map, List.mem_filter, bne_iff_ne]
    constructor
    · rintro ⟨file, hfile, rfl⟩
      exact ⟨file, hfile.1, rfl⟩
    · rintro ⟨file, hfile, rfl⟩
      exact ⟨file, ⟨hfile, h⟩, rfl⟩

/-- The file system that files were written to, one after the other. -/
def ofWrites (ws : List (Path × ByteArray)) : FileSystem :=
  ws.foldl (fun fs w => fs.write w.1 w.2) {}

theorem ofWrites_concat (ws : List (Path × ByteArray)) (w : Path × ByteArray) :
    ofWrites (ws ++ [w]) = (ofWrites ws).write w.1 w.2 := List.foldl_concat ..

/-- What was written last to a place. -/
def lastWritten? (ws : List (Path × ByteArray)) (p : Place) : Option ByteArray :=
  (ws.filter (·.1.place = p)).getLast?.map Prod.snd

theorem content?_ofWrites (ws : List (Path × ByteArray)) (p : Path) :
    (ofWrites ws).content? p = lastWritten? ws p.place := by
  induction ws using List.reverseRecOn with
  | nil => rfl
  | append_singleton ws w ih =>
    rw [ofWrites_concat, content?_write, ih, lastWritten?, lastWritten?, List.filter_append]
    by_cases h : p.place = w.1.place
    · rw [if_pos h, List.filter_cons_of_pos (by simp [h]), List.filter_nil, List.getLast?_concat]
      rfl
    · rw [if_neg h, List.filter_cons_of_neg (by simpa using Ne.symm h), List.filter_nil,
        List.append_nil]

theorem mem_places_ofWrites {t : Place} :
    t ∈ (ofWrites ws).files.map Prod.fst ↔ ∃ w ∈ ws, w.1.place = t := by
  induction ws using List.reverseRecOn with
  | nil => simp [ofWrites]
  | append_singleton ws w ih =>
    rw [ofWrites_concat, mem_places_write, ih]
    simp only [List.mem_append, List.mem_singleton, or_and_right, exists_or, exists_eq_left]
    rw [or_comm, eq_comm]

theorem isFile_ofWrites : (ofWrites ws).isFile p = true ↔ ∃ w ∈ ws, w.1.place = p.place := by
  rw [isFile_iff, mem_places_ofWrites]

/-! ## Directories -/

theorem isDir_iff : fs.isDir p = true ↔
    (∃ t ∈ fs.files.map Prod.fst, Place.IsInside t p.place) ∧ ¬ fs.isFile p := by
  rw [isDir_eq_any, Bool.and_eq_true, Bool.not_eq_true', Bool.not_eq_true, List.any_eq_true,
    and_comm]
  refine and_congr_left fun hfile => exists_congr fun t => and_congr_right fun ht => ?_
  rw [List.isPrefixOf_iff_prefix]
  refine ⟨fun hbelow => ⟨hbelow, ?_⟩, And.left⟩
  rintro rfl
  rw [← Bool.not_eq_true, isFile_iff] at hfile
  exact hfile ht

/-- The files, in the order of paths. -/
def inOrder (fs : FileSystem) : PathSet := .ofList (fs.files.map fun file => file.1.path)

/-- The first file at a path or behind it, in the order of paths. -/
def firstFrom? (fs : FileSystem) (dir : Path) : Option Path := fs.inOrder.find? (!·.lt dir)

/-- Whether the places of all files are in normal form. -/
def IsNormal (fs : FileSystem) : Prop := ∀ t ∈ fs.files.map Prod.fst, ∀ s ∈ t, IsStep s

theorem isNormal_ofWrites (ws : List (Path × ByteArray)) : (ofWrites ws).IsNormal := by
  intro t ht
  obtain ⟨w, -, rfl⟩ := mem_places_ofWrites.1 ht
  exact fun s => Path.isStep_of_mem_place

theorem IsNormal.mem_inOrder (h : fs.IsNormal) :
    q ∈ fs.inOrder ↔ ∃ t ∈ fs.files.map Prod.fst, q = t.path := by
  constructor
  · intro hq
    obtain ⟨file, hfile, rfl⟩ := List.mem_map.1 (PathSet.mem_of_mem_ofList hq)
    exact ⟨file.1, List.mem_map_of_mem hfile, rfl⟩
  · rintro ⟨t, ht, rfl⟩
    have hmem : t.path ∈ fs.files.map fun file => file.1.path := by
      obtain ⟨file, hfile, rfl⟩ := List.mem_map.1 ht
      exact List.mem_map_of_mem hfile
    have hcontains : fs.inOrder.contains t.path = true := by
      rw [inOrder, PathSet.contains_ofList, List.contains_iff_exists_mem_beq]
      exact ⟨t.path, hmem, BEq.rfl⟩
    obtain ⟨q, hq, hbeq⟩ := List.contains_iff_exists_mem_beq.1 hcontains
    obtain ⟨file, hfile, rfl⟩ := List.mem_map.1 (PathSet.mem_of_mem_ofList hq)
    have hsame : t = file.1 :=
      (Path.rooted_beq_rooted_iff (h t ht) (h _ (List.mem_map_of_mem hfile))).1 hbeq
    rwa [hsame]

/-- A path is a directory exactly if the first file from there on is inside it. -/
theorem IsNormal.isDir_eq_firstFrom? (h : fs.IsNormal) (p : Path) :
    fs.isDir p = (fs.firstFrom? p.absolute).any fun q =>
      q.isBelow p.absolute && !(q == p.absolute) := by
  have hp : ∀ s ∈ p.place, IsStep s := fun _ => Path.isStep_of_mem_place
  have hbelow : ∀ t ∈ fs.files.map Prod.fst, t.path.isBelow p.absolute = true ↔ p.place <+: t :=
    fun t ht => Path.isBelow_rooted_iff (h t ht) hp
  have hequal : ∀ t ∈ fs.files.map Prod.fst, (t.path == p.absolute) = true ↔ t = p.place :=
    fun t ht => Path.rooted_beq_rooted_iff (h t ht) hp
  have hspec : match fs.firstFrom? p.absolute with
      | none => ∀ q ∈ fs.inOrder, q.lt p.absolute
      | some q => q ∈ fs.inOrder ∧ ¬ q.lt p.absolute ∧
          ∀ q' ∈ fs.inOrder, ¬ q'.lt p.absolute → q' = q ∨ q.lt q' :=
    PathSet.IsSorted.find?_spec (PathSet.isSorted_ofList _)
  rw [Bool.eq_iff_iff, isDir_iff, isFile_iff]
  constructor
  · rintro ⟨⟨t, ht, hprefix, -⟩, hfile⟩
    -- a file inside the directory is not before it, so there is a first file that is not
    have hinOrder : t.path ∈ fs.inOrder := h.mem_inOrder.2 ⟨t, ht, rfl⟩
    have hnot : ¬ t.path.lt p.absolute := Path.not_lt_of_isBelow ((hbelow t ht).2 hprefix)
    cases hfirst : fs.firstFrom? p.absolute with
    | none =>
      rw [hfirst] at hspec
      exact absurd (hspec _ hinOrder) hnot
    | some q =>
      rw [hfirst] at hspec
      obtain ⟨hq, hqp, hleast⟩ := hspec
      have hqt : ¬ t.path.lt q := by
        rcases hleast _ hinOrder hnot with heq | hlt
        · exact Path.not_lt_of_beq (heq ▸ BEq.rfl)
        · exact fun hgt => Path.go_irrefl _ (Path.lt_trans hlt hgt)
      have hqbelow : q.isBelow p.absolute = true :=
        Path.isBelow_of_not_lt ((hbelow t ht).2 hprefix) hqp hqt
      obtain ⟨t', ht', rfl⟩ := h.mem_inOrder.1 hq
      rw [Option.any_some, hqbelow, Bool.true_and, Bool.not_eq_true', ← Bool.not_eq_true,
        hequal t' ht']
      rintro rfl
      exact hfile ht'
  · intro hany
    cases hfirst : fs.firstFrom? p.absolute with
    | none =>
      rw [hfirst] at hany
      cases hany
    | some q =>
      rw [hfirst] at hany hspec
      obtain ⟨hq, hqp, hleast⟩ := hspec
      obtain ⟨t, ht, rfl⟩ := h.mem_inOrder.1 hq
      rw [Option.any_some, Bool.and_eq_true, Bool.not_eq_true', ← Bool.not_eq_true, hbelow t ht,
        hequal t ht] at hany
      refine ⟨⟨t, ht, hany⟩, fun hfile => ?_⟩
      -- the path itself would be the first file
      have hself : ¬ p.absolute.lt p.absolute := Path.not_lt_of_beq BEq.rfl
      rcases hleast p.absolute (h.mem_inOrder.2 ⟨_, hfile, rfl⟩) hself with heq | hlt
      · exact hany.2 ((hequal t ht).1 (heq ▸ BEq.rfl))
      · exact hqp hlt

/-! ## What a path is -/

/-- What a path is among files that were written one after the other. -/
structure IsImplied (ws : List (Path × ByteArray)) (p : Path) : Prop where
  /-- The components of the path lead to its place from the root, whatever else is written. -/
  absolute : p.absolute = Place.path (p.components.foldl Place.enter [])
  /-- A path is a directory if files are inside it, unless it is a file itself. -/
  isDir_iff : (ofWrites ws).isDir p = true ↔
    (∃ w ∈ ws, w.1.place.IsInside p.place) ∧ ∀ w ∈ ws, w.1.place ≠ p.place
  /-- To tell whether it is one a look at the first file from there on is enough. -/
  isDir_eq : (ofWrites ws).isDir p = ((ofWrites ws).firstFrom? p.absolute).any fun q =>
    q.isBelow p.absolute && !(q == p.absolute)
  isFile_iff : (ofWrites ws).isFile p = true ↔ ∃ w ∈ ws, w.1.place = p.place
  read_iff : ∀ content, (ofWrites ws).read p = .ok content ↔
    lastWritten? ws p.place = some content
  canonical_iff : ∀ q, (ofWrites ws).canonical p = .ok q ↔
    ((ofWrites ws).isFile p = true ∨ (ofWrites ws).isDir p = true) ∧ q = p.absolute
  isDirectory_iff : ∀ e, (ofWrites ws).read p = .error e →
    ((∃ q, e = .isDirectory q) ↔ (ofWrites ws).isDir p = true)

theorem canonical_eq_ok_iff : fs.canonical p = .ok q ↔
    (fs.isFile p = true ∨ fs.isDir p = true) ∧ q = p.absolute := by
  unfold canonical
  rw [← Bool.or_eq_true]
  split
  · rename_i h
    rw [Except.ok.injEq, and_iff_right h, eq_comm]
    rfl
  · rename_i h
    exact ⟨nofun, fun hq => absurd hq.1 h⟩

theorem read_eq_ok_iff {content : ByteArray} :
    fs.read p = .ok content ↔ fs.content? p = some content := by
  unfold read
  cases fs.content? p with
  | none => exact ⟨nofun, nofun⟩
  | some content' => simp

theorem isDirectory_iff_of_read {e : FileError} (h : fs.read p = .error e) :
    (∃ q, e = .isDirectory q) ↔ fs.isDir p = true := by
  unfold read at h
  split at h
  · cases h
  · cases h
    split
    · rename_i hdir
      exact ⟨fun _ => hdir, fun _ => ⟨_, rfl⟩⟩
    · rename_i hdir
      exact ⟨nofun, fun h => absurd h hdir⟩

/-- Files that were written, in whatever spelling of their paths and however often, imply what is a
file, what is in it and what is a directory. -/
theorem isImplied_ofWrites (ws : List (Path × ByteArray)) (p : Path) : IsImplied ws p where
  absolute := congrArg Place.path p.place_eq_foldl_enter
  isDir_iff := by
    rw [FileSystem.isDir_iff, isFile_ofWrites]
    simp only [mem_places_ofWrites]
    constructor
    · rintro ⟨⟨_, ⟨w, hw, rfl⟩, hinside⟩, hfile⟩
      exact ⟨⟨w, hw, hinside⟩, fun v hv hplace => hfile ⟨v, hv, hplace⟩⟩
    · rintro ⟨⟨w, hw, hinside⟩, hfile⟩
      exact ⟨⟨_, ⟨w, hw, rfl⟩, hinside⟩, fun ⟨v, hv, hplace⟩ => hfile v hv hplace⟩
  isDir_eq := (isNormal_ofWrites ws).isDir_eq_firstFrom? p
  isFile_iff := isFile_ofWrites
  read_iff content := by rw [read_eq_ok_iff, content?_ofWrites]
  canonical_iff _ := canonical_eq_ok_iff
  isDirectory_iff _ := isDirectory_iff_of_read

/-- A path that is written as a file and then as the parent of one. -/
def fileAndParent : List (Path × ByteArray) := [(⟨"/a"⟩, .empty), (⟨"/a/b"⟩, .empty)]

/-- A path that was written as a file is no directory, although a file is inside it. -/
theorem not_isDir_above : ¬ ((ofWrites fileAndParent).isDir ⟨"/a"⟩ = true ↔
    ∃ w ∈ fileAndParent, w.1.place.IsInside (Path.place ⟨"/a"⟩)) := by
  have hdir : (ofWrites fileAndParent).isDir ⟨"/a"⟩ = false := by decide +kernel
  have hplace : Path.place ⟨"/a/b"⟩ = Path.place ⟨"/a"⟩ ++ [['b']] := by decide +kernel
  rw [hdir]
  intro h
  refine Bool.false_ne_true (h.2 ⟨(⟨"/a/b"⟩, .empty), ?_, ?_⟩)
  · exact List.mem_cons_of_mem _ List.mem_cons_self
  · exact hplace ▸ ⟨List.prefix_append _ _, by simp⟩

end FileSystem

end ModuleWorkers
