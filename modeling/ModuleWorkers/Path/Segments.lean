/-!
# Segments

The pieces of a path between its slashes. `collapse` is the one rule by which paths of files and
paths of addresses are brought into normal form: empty pieces and `.` go, and `..` takes the piece
in front of it along, or nothing at the start. `mem_collapse` says what can be left, and
`collapse_append` that a path can be brought into normal form piece by piece.
-/

namespace ModuleWorkers

/-- The pieces of a text between slashes; at least one. -/
def segments : List Char → List (List Char)
  | [] => [[]]
  | c :: cs =>
    if c = '/' then [] :: segments cs
    else
      match segments cs with
      | [] => [[c]]
      | s :: ss => (c :: s) :: ss

/-- Pieces put together again, with slashes between them. -/
def joined (ss : List (List Char)) : List Char := ['/'].intercalate ss

/-- Takes one more piece in, given those before it, last one first. -/
def collapseStep (before : List (List Char)) (s : List Char) : List (List Char) :=
  if s = [] ∨ s = ['.'] then before
  else if s = ['.', '.'] then before.tail
  else s :: before

/-- The pieces that are left once `.`, `..` and empty pieces are resolved. -/
def collapse (ss : List (List Char)) : List (List Char) := (ss.foldl collapseStep []).reverse

/-- Whether a piece stands for itself. -/
def IsName (s : List Char) : Prop := s ≠ [] ∧ s ≠ ['.'] ∧ s ≠ ['.', '.']

theorem segments_ne_nil (cs : List Char) : segments cs ≠ [] := by
  cases cs with
  | nil => simp [segments]
  | cons c cs =>
    simp only [segments]
    split
    · simp
    · split <;> simp

theorem collapseStep_of_isName {s : List Char} (h : IsName s) (before : List (List Char)) :
    collapseStep before s = s :: before := by
  simp [collapseStep, h.1, h.2.1, h.2.2]

theorem isName_of_mem_foldl {ss : List (List Char)} (before : List (List Char))
    (h : ∀ s ∈ before, IsName s) :
    ∀ s ∈ ss.foldl collapseStep before, IsName s := by
  induction ss generalizing before with
  | nil => exact h
  | cons s ss ih =>
    apply ih _
    intro t ht
    simp only [collapseStep] at ht
    split at ht
    · exact h t ht
    · split at ht
      · exact h t (List.mem_of_mem_tail ht)
      · rename_i h₁ h₂
        rcases List.mem_cons.1 ht with rfl | ht
        · exact ⟨fun h => h₁ (.inl h), fun h => h₁ (.inr h), h₂⟩
        · exact h t ht

/-- Only pieces that stand for themselves are left. -/
theorem mem_collapse {ss : List (List Char)} {s : List Char} (h : s ∈ collapse ss) : IsName s :=
  isName_of_mem_foldl [] (by simp) s (List.mem_reverse.1 h)

theorem foldl_collapseStep_of_isName {ss : List (List Char)} (h : ∀ s ∈ ss, IsName s)
    (before : List (List Char)) : ss.foldl collapseStep before = ss.reverse ++ before := by
  induction ss generalizing before with
  | nil => rfl
  | cons s ss ih =>
    rw [List.foldl_cons, collapseStep_of_isName (h s (by simp)), ih fun t ht => h t (by simp [ht])]
    simp

/-- Pieces that stand for themselves are all left. -/
theorem collapse_of_isName {ss : List (List Char)} (h : ∀ s ∈ ss, IsName s) : collapse ss = ss := by
  simp [collapse, foldl_collapseStep_of_isName h]

/-- What comes first can be brought into normal form first. -/
theorem collapse_append (ss ts : List (List Char)) :
    collapse (ss ++ ts) = collapse (collapse ss ++ ts) := by
  have h : (collapse ss).foldl collapseStep [] = ss.foldl collapseStep [] := by
    rw [foldl_collapseStep_of_isName fun s hs => mem_collapse hs]
    simp [collapse]
  simp only [collapse, List.foldl_append] at h ⊢
  rw [h]

end ModuleWorkers
