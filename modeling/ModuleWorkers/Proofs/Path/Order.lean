import Mathlib.Data.Char
import Mathlib.Data.List.Lex
import ModuleWorkers.Path.File

/-!
# The order of paths and sets of paths

Paths are equal when their components are (`Path.beq_iff`), and `Path.lt` is a strict total order of
these classes. A set of paths is a list in strictly increasing order (`PathSet.IsSorted`); adding a
path keeps it one (`PathSet.IsSorted.insert`), adds that path alone (`PathSet.contains_insert`), and
changes nothing if the path is there (`PathSet.insert_of_contains`).
-/

namespace ModuleWorkers

namespace Path

/-! ## Equality -/

theorem beq_iff {p q : Path} : (p == q) = true ↔ p.components = q.components :=
  beq_iff_eq (α := List Component)

instance : EquivBEq Path where
  rfl := beq_iff.2 rfl
  symm h := beq_iff.2 (beq_iff.1 h).symm
  trans h₁ h₂ := beq_iff.2 ((beq_iff.1 h₁).trans (beq_iff.1 h₂))

/-! ## Order -/

namespace Component

theorem lt_iff {a b : Component} :
    a.lt b ↔ a.rank.1 < b.rank.1 ∨ a.rank.1 = b.rank.1 ∧ a.rank.2 < b.rank.2 := by
  simp [lt]

theorem rank_injective {a b : Component} (h₁ : a.rank.1 = b.rank.1) (h₂ : a.rank.2 = b.rank.2) :
    a = b := by
  cases a <;> cases b <;> simp_all [rank]

theorem lt_irrefl (a : Component) : ¬ a.lt a := by
  rw [lt_iff]
  rintro (h | ⟨-, h⟩)
  · exact Nat.lt_irrefl _ h
  · exact h.false

theorem lt_trans {a b c : Component} (h₁ : a.lt b) (h₂ : b.lt c) : a.lt c := by
  rw [lt_iff] at *
  rcases h₁ with h₁ | ⟨e₁, h₁⟩ <;> rcases h₂ with h₂ | ⟨e₂, h₂⟩
  · exact .inl (Nat.lt_trans h₁ h₂)
  · exact .inl (e₂ ▸ h₁)
  · exact .inl (e₁ ▸ h₂)
  · exact .inr ⟨e₁.trans e₂, h₁.trans h₂⟩

theorem lt_or_eq_or_gt (a b : Component) : a.lt b ∨ a = b ∨ b.lt a := by
  rw [lt_iff, lt_iff]
  rcases Nat.lt_trichotomy a.rank.1 b.rank.1 with h | h | h
  · exact .inl (.inl h)
  · rcases lt_trichotomy a.rank.2 b.rank.2 with h' | h' | h'
    · exact .inl (.inr ⟨h, h'⟩)
    · exact .inr (.inl (rank_injective h h'))
    · exact .inr (.inr (.inr ⟨h.symm, h'⟩))
  · exact .inr (.inr (.inl h))

end Component

theorem go_cons_iff {a b : Component} {as bs : List Component} :
    lt.go (a :: as) (b :: bs) ↔ a.lt b ∨ a = b ∧ lt.go as bs := by
  simp [lt.go]

theorem go_irrefl (as : List Component) : ¬ lt.go as as := by
  induction as with
  | nil => simp [lt.go]
  | cons a as ih =>
    rw [go_cons_iff]
    rintro (h | ⟨-, h⟩)
    · exact Component.lt_irrefl a h
    · exact ih h

theorem go_trans {as bs cs : List Component} (h₁ : lt.go as bs) (h₂ : lt.go bs cs) :
    lt.go as cs := by
  induction as generalizing bs cs with
  | nil =>
    cases cs with
    | nil => cases bs <;> simp [lt.go] at h₂
    | cons c cs => rfl
  | cons a as ih =>
    cases bs with
    | nil => simp [lt.go] at h₁
    | cons b bs =>
      cases cs with
      | nil => simp [lt.go] at h₂
      | cons c cs =>
        rw [go_cons_iff] at *
        rcases h₁ with h₁ | ⟨rfl, h₁⟩ <;> rcases h₂ with h₂ | ⟨rfl, h₂⟩
        · exact .inl (Component.lt_trans h₁ h₂)
        · exact .inl h₁
        · exact .inl h₂
        · exact .inr ⟨rfl, ih h₁ h₂⟩

theorem go_or_eq_or_go (as bs : List Component) : lt.go as bs ∨ as = bs ∨ lt.go bs as := by
  induction as generalizing bs with
  | nil => cases bs <;> simp [lt.go]
  | cons a as ih =>
    cases bs with
    | nil => simp [lt.go]
    | cons b bs =>
      simp only [go_cons_iff, List.cons.injEq]
      rcases Component.lt_or_eq_or_gt a b with h | rfl | h
      · exact .inl (.inl h)
      · rcases ih bs with h | rfl | h
        · exact .inl (.inr ⟨rfl, h⟩)
        · exact .inr (.inl ⟨rfl, rfl⟩)
        · exact .inr (.inr (.inr ⟨rfl, h⟩))
      · exact .inr (.inr (.inl h))

/-- No path comes before another spelling of itself. -/
theorem not_lt_of_beq {p q : Path} (h : p == q) : ¬ p.lt q := by
  unfold lt
  rw [beq_iff.1 h]
  exact go_irrefl _

theorem lt_trans {p q r : Path} (h₁ : p.lt q) (h₂ : q.lt r) : p.lt r := go_trans h₁ h₂

/-- Of two paths that are not equal one comes first. -/
theorem lt_of_not_lt {p q : Path} (hne : ¬ p == q) (h : ¬ p.lt q) : q.lt p := by
  rcases go_or_eq_or_go p.components q.components with h' | h' | h'
  · exact absurd h' h
  · exact absurd (beq_iff.2 h') hne
  · exact h'

end Path

namespace PathSet

/-- The form of a set of paths: strictly increasing, so that no path is there in two spellings. -/
def IsSorted (s : PathSet) : Prop := s.Pairwise fun p q => p.lt q

@[simp] theorem contains_insert (p q : Path) (s : PathSet) :
    (insert p s).contains q = (p == q || s.contains q) := by
  induction s with
  | nil => simp [insert, BEq.comm]
  | cons r s ih =>
    unfold insert
    by_cases h : p == r
    · have hq : (q == p) = (q == r) := BEq.congr_right h
      simp [h, BEq.comm (a := p), hq]
    · by_cases hlt : p.lt r
      · simp [h, hlt, BEq.comm (a := p)]
      · simp only [h, hlt, Bool.false_eq_true, if_false, List.contains_cons, ih]
        rw [← Bool.or_assoc, ← Bool.or_assoc, Bool.or_comm (q == r)]

theorem mem_insert {p q : Path} {s : PathSet} (h : q ∈ insert p s) : q = p ∨ q ∈ s := by
  induction s with
  | nil => simpa [insert] using h
  | cons r s ih =>
    unfold insert at h
    split at h
    · exact .inr h
    · split at h
      · simpa using h
      · rcases List.mem_cons.1 h with rfl | h
        · exact .inr List.mem_cons_self
        · exact (ih h).imp_right (List.mem_cons_of_mem _)

theorem IsSorted.insert {s : PathSet} (h : IsSorted s) (p : Path) :
    IsSorted (PathSet.insert p s) := by
  induction s with
  | nil => exact List.pairwise_singleton _ _
  | cons r s ih =>
    obtain ⟨hr, hs⟩ := List.pairwise_cons.1 h
    unfold PathSet.insert
    by_cases hp : p == r
    · rw [if_pos hp]
      exact h
    rw [if_neg hp]
    by_cases hlt : p.lt r
    · rw [if_pos hlt]
      refine List.pairwise_cons.2 ⟨fun q hq => ?_, h⟩
      rcases List.mem_cons.1 hq with rfl | hq
      · exact hlt
      · exact Path.lt_trans hlt (hr q hq)
    · rw [if_neg hlt]
      refine List.pairwise_cons.2 ⟨fun q hq => ?_, ih hs⟩
      rcases mem_insert hq with rfl | hq
      · exact Path.lt_of_not_lt hp hlt
      · exact hr q hq

theorem isSorted_ofList (ps : List Path) : IsSorted (ofList ps) := by
  induction ps with
  | nil => exact List.Pairwise.nil
  | cons p ps ih => exact ih.insert p

theorem contains_ofList (ps : List Path) (q : Path) : (ofList ps).contains q = ps.contains q := by
  induction ps with
  | nil => rfl
  | cons p ps ih =>
    calc (ofList (p :: ps)).contains q = (p == q || (ofList ps).contains q) := contains_insert ..
      _ = (p :: ps).contains q := by rw [ih, List.contains_cons, BEq.comm]

/-- A path that comes before all others of a set is not in it. -/
theorem not_contains_of_lt {s : PathSet} {p : Path} (h : ∀ q ∈ s, p.lt q) :
    s.contains p = false := by
  rw [← Bool.not_eq_true, List.contains_iff_exists_mem_beq]
  rintro ⟨q, hq, hpq⟩
  exact Path.not_lt_of_beq hpq (h q hq)

/-- Adding a path that is there changes nothing. -/
theorem insert_of_contains {s : PathSet} (h : IsSorted s) {p : Path} (hp : s.contains p) :
    insert p s = s := by
  induction s with
  | nil => simp at hp
  | cons r s ih =>
    obtain ⟨hr, hs⟩ := List.pairwise_cons.1 h
    unfold insert
    by_cases hpr : p == r
    · rw [if_pos hpr]
    have hps : s.contains p := by simpa [hpr] using hp
    have hlt : ¬ p.lt r := by
      intro hlt
      rw [not_contains_of_lt fun q hq => Path.lt_trans hlt (hr q hq)] at hps
      exact Bool.false_ne_true hps
    rw [if_neg hpr, if_neg hlt, ih hs hps]

/-- The others of a sorted set are other paths. -/
theorem IsSorted.not_contains_head {p : Path} {s : PathSet} (h : IsSorted (p :: s)) :
    s.contains p = false :=
  not_contains_of_lt (List.pairwise_cons.1 h).1

theorem IsSorted.tail {p : Path} {s : PathSet} (h : IsSorted (p :: s)) : IsSorted s :=
  (List.pairwise_cons.1 h).2

end PathSet

end ModuleWorkers
