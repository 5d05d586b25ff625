import ModuleWorkers.FileSystem
import ModuleWorkers.Proofs.Path.Order

/-!
# File systems that agree

What a path means in a file system depends on its components only (`Path.place_eq_of_beq`). Of two
file systems with the same files, what is a file and what is a directory is the same, and reading a
file is if its content is (`FileSystem.HaveSameFiles.readText_eq`).
-/

namespace ModuleWorkers

namespace Path

theorem chars_component (s : List Char) : (component s).chars = s := by
  unfold component
  split
  · rename_i h
    exact h.symm
  · split
    · rename_i h
      exact h.symm
    · rfl

/-- The components of a path after its root. -/
def steps (p : Path) : List Component :=
  (segments p.chars).zipIdx.filterMap fun (s, k) =>
    if counts k s then some (component s) else none

theorem components_eq (p : Path) :
    p.components = if p.isAbsolute then .root :: p.steps else p.steps := rfl

theorem root_not_mem_steps (p : Path) : .root ∉ p.steps := by
  unfold steps
  rw [List.mem_filterMap]
  rintro ⟨⟨s, k⟩, -, h⟩
  dsimp only at h
  split at h
  · have := Option.some.inj h
    unfold component at this
    split at this
    · cases this
    · split at this <;> cases this
  · cases h

theorem steps_eq (p : Path) : p.steps = p.components.filter (· != .root) := by
  have hsteps : p.steps.filter (· != .root) = p.steps :=
    List.filter_eq_self.2 fun c hc => by
      simpa using fun h : c = .root => p.root_not_mem_steps (h ▸ hc)
  rw [components_eq]
  split
  · rw [List.filter_cons_of_neg (by decide), hsteps]
  · exact hsteps.symm

/-- What does not count does not matter to the place. -/
theorem foldl_collapseStep_steps (ss before : List (List Char)) (k : Nat) :
    (((ss.zipIdx k).filterMap fun (s, k) => if counts k s then some (component s) else none).map
      Component.chars).foldl collapseStep before = ss.foldl collapseStep before := by
  induction ss generalizing before k with
  | nil => rfl
  | cons s ss ih =>
    rw [List.zipIdx_cons, List.filterMap_cons, List.foldl_cons]
    by_cases hs : counts k s = true
    · simp only [hs, if_true]
      rw [List.map_cons, List.foldl_cons, chars_component, ih]
    · have hskip : collapseStep before s = before := by
        unfold counts at hs
        refine if_pos ?_
        by_contra hne
        simp_all
      simp only [hs]
      rw [hskip]
      exact ih before (k + 1)

theorem place_eq (p : Path) : p.place = collapse (p.steps.map Component.chars) :=
  congrArg List.reverse (foldl_collapseStep_steps (segments p.chars) [] 0).symm

/-- Paths that are equal by their components mean the same place. -/
theorem place_eq_of_beq {p q : Path} (h : (p == q) = true) : p.place = q.place := by
  rw [place_eq, place_eq, steps_eq, steps_eq, beq_iff.1 h]

end Path

theorem lookup_filter {α β : Type} [BEq α] [LawfulBEq α] (p : α → Bool) (k : α)
    (l : List (α × β)) :
    (l.filter fun e => p e.1).lookup k = if p k then l.lookup k else none := by
  induction l with
  | nil => simp
  | cons e l ih =>
    obtain ⟨k', v⟩ := e
    rw [List.filter_cons]
    by_cases hk : k = k'
    · subst hk
      by_cases hp : p k
      · rw [if_pos hp, if_pos hp, List.lookup_cons_self, List.lookup_cons_self]
      · rw [if_neg hp, ih, if_neg hp, if_neg hp]
    · have hskip (l : List (α × β)) : List.lookup k ((k', v) :: l) = l.lookup k := by
        rw [List.lookup_cons, beq_eq_false_iff_ne.2 hk]
      rw [hskip, ← ih]
      split
      · exact hskip _
      · rfl

namespace FileSystem

variable {fs fs' : FileSystem} {p q : Path}

theorem content?_eq_of_beq (fs : FileSystem) (h : (p == q) = true) :
    fs.content? p = fs.content? q := by
  rw [content?, content?, Path.place_eq_of_beq h]

theorem readText_eq_ok_of_content? {text : String} (hp : fs.content? p = fs.content? q)
    (h : fs.readText q = .ok text) : fs.readText p = .ok text := by
  unfold readText read at h ⊢
  rw [hp]
  cases hcontent : fs.content? q with
  | none =>
    rw [hcontent] at h
    cases h
  | some bytes =>
    rw [hcontent] at h
    exact h

/-- Two file systems have the same files, whatever is in them. -/
def HaveSameFiles (fs fs' : FileSystem) : Prop :=
  ∀ place, place ∈ fs.files.map Prod.fst ↔ place ∈ fs'.files.map Prod.fst

theorem isFile_iff : fs.isFile p = true ↔ p.place ∈ fs.files.map Prod.fst := by
  rw [isFile, content?, List.lookup_isSome_iff, List.mem_map]
  exact exists_congr fun file => and_congr_right fun _ => beq_iff_eq.trans eq_comm

theorem isDir_eq_any (fs : FileSystem) (p : Path) : fs.isDir p =
    (!fs.isFile p && (fs.files.map Prod.fst).any p.place.isPrefixOf) := by
  rw [isDir, List.any_map]
  rfl

namespace HaveSameFiles

variable (h : HaveSameFiles fs fs')

include h

theorem isFile_eq (p : Path) : fs.isFile p = fs'.isFile p := by
  rw [Bool.eq_iff_iff, isFile_iff, isFile_iff, h p.place]

theorem isDir_eq (p : Path) : fs.isDir p = fs'.isDir p := by
  have hsame : (fs.files.map Prod.fst).any p.place.isPrefixOf =
      (fs'.files.map Prod.fst).any p.place.isPrefixOf := by
    rw [Bool.eq_iff_iff, List.any_eq_true, List.any_eq_true]
    exact exists_congr fun q => and_congr_left fun _ => h q
  rw [isDir_eq_any, isDir_eq_any, h.isFile_eq, hsame]

theorem readText_eq (hp : fs.content? p = fs'.content? p) : fs.readText p = fs'.readText p := by
  rw [readText, readText, read, read, hp, h.isDir_eq]

end HaveSameFiles

end FileSystem

end ModuleWorkers
