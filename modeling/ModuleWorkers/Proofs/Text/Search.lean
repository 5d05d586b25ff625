import Mathlib.Data.List.Infix
import Mathlib.Data.List.TakeWhile
import ModuleWorkers.Text.Search

/-!
# Searches

A search by a test ends at the first element that does not pass it, whatever follows
(`takeWhile_append_of_head`). A text is cut where another one stands in it (`Text.eq_of_cut?`),
wherever that is (`Text.isSome_cut?`), so it is not cut at all if it lacks a character of the other
one.
-/

namespace ModuleWorkers

/-! ## Stretches on which a test holds -/

section

variable {α : Type} {p : α → Bool}

/-- What stops a search does not pass the test. -/
theorem not_of_mem_head?_dropWhile {l : List α} {x : α} (h : x ∈ (l.dropWhile p).head?) :
    ¬ p x := by
  have := List.head?_dropWhile_not p l
  rw [Option.mem_def.1 h] at this
  simpa using this

theorem takeWhile_append_of_head {l r : List α} (hl : ∀ x ∈ l, p x)
    (hr : ∀ x ∈ r.head?, ¬ p x) :
    (l ++ r).takeWhile p = l ∧ (l ++ r).dropWhile p = r := by
  rw [List.takeWhile_append_of_pos hl, List.dropWhile_append_of_pos hl]
  cases r with
  | nil => simp
  | cons x r =>
    have hy := hr x rfl
    rw [List.takeWhile_cons_of_neg hy, List.dropWhile_cons_of_neg hy, List.append_nil]
    exact ⟨rfl, rfl⟩

/-- A stretch that a search passes is passed in front of other lists that start with the same
element. -/
theorem takeWhile_append_of_dropWhile {xs ys zs : List α} (h : (xs ++ ys).dropWhile p = ys)
    (hhead : ys.head? = zs.head?) :
    (xs ++ ys).takeWhile p = xs ∧ (xs ++ zs).takeWhile p = xs ∧ (xs ++ zs).dropWhile p = zs := by
  have hxs : (xs ++ ys).takeWhile p = xs := by
    have := List.takeWhile_append_dropWhile (p := p) (l := xs ++ ys)
    rw [h] at this
    exact List.append_cancel_right this
  refine ⟨hxs, takeWhile_append_of_head (fun x hx => ?_) fun x hx => ?_⟩
  · rw [← hxs] at hx
    exact List.mem_takeWhile_imp hx
  · rw [← hhead, ← h] at hx
    exact not_of_mem_head?_dropWhile hx

theorem dropWhile_append_cons {x : α} (hx : ¬ p x) (xs ys : List α) :
    (xs ++ x :: ys).dropWhile p = xs.dropWhile p ++ x :: ys := by
  induction xs with
  | nil => rw [List.nil_append, List.dropWhile_cons_of_neg hx]; rfl
  | cons y xs ih =>
    by_cases hy : p y
    · rw [List.cons_append, List.dropWhile_cons_of_pos hy, List.dropWhile_cons_of_pos hy, ih]
    · rw [List.cons_append, List.dropWhile_cons_of_neg hy, List.dropWhile_cons_of_neg hy]; rfl

theorem takeWhile_append_cons {x : α} (hx : ¬ p x) (xs ys : List α) :
    (xs ++ x :: ys).takeWhile p = xs.takeWhile p := by
  induction xs with
  | nil => rw [List.nil_append, List.takeWhile_cons_of_neg hx]; rfl
  | cons y xs ih =>
    by_cases hy : p y
    · rw [List.cons_append, List.takeWhile_cons_of_pos hy, List.takeWhile_cons_of_pos hy, ih]
    · rw [List.cons_append, List.takeWhile_cons_of_neg hy, List.takeWhile_cons_of_neg hy]

/-- An element of two lists that are put together is one of the first or one of the second. -/
theorem cases_of_append_eq {xs ys as bs : List α} {x : α} (h : xs ++ ys = as ++ x :: bs) :
    (∃ es, xs = as ++ x :: es ∧ bs = es ++ ys) ∨ ∃ es, as = xs ++ es ∧ ys = es ++ x :: bs := by
  rcases List.append_eq_append_iff.1 h with ⟨es, rfl, rfl⟩ | ⟨es, rfl, hes⟩
  · exact .inr ⟨es, rfl, rfl⟩
  · cases es with
    | nil => exact .inr ⟨[], by simp, hes.symm⟩
    | cons e es =>
      obtain ⟨rfl, rfl⟩ := List.cons.inj hes
      exact .inl ⟨es, rfl, rfl⟩

end

/-! ## Texts in texts -/

namespace Text

theorem eq_of_cut? {part cs : List Char} {r : List Char × List Char}
    (h : cut? part cs = some r) : cs = r.1 ++ (part ++ r.2) := by
  induction cs generalizing r with
  | nil =>
    unfold cut? at h
    split at h
    · rename_i hpart
      cases h
      rw [hpart]
      rfl
    · cases h
  | cons c cs ih =>
    unfold cut? at h
    split at h
    · rename_i hpart
      cases h
      exact (List.prefix_iff_eq_append.1 (List.isPrefixOf_iff_prefix.1 hpart)).symm
    · obtain ⟨r', hr', rfl⟩ := Option.map_eq_some_iff.1 h
      exact congrArg (c :: ·) (ih hr')

theorem cut?_eq_none {c : Char} {cs : List Char} (h : c ∉ cs) : cut? [c] cs = none := by
  cases hcut : cut? [c] cs with
  | none => rfl
  | some r =>
    rw [eq_of_cut? hcut] at h
    simp at h

/-- A text is found where it stands. -/
theorem isSome_cut? (part front back : List Char) :
    (cut? part (front ++ (part ++ back))).isSome := by
  induction front with
  | nil =>
    rw [List.nil_append]
    have hprefix : part.isPrefixOf (part ++ back) :=
      List.isPrefixOf_iff_prefix.2 (List.prefix_append part back)
    cases hall : part ++ back with
    | nil => rw [(List.append_eq_nil_iff.1 hall).1]; rfl
    | cons c cs =>
      rw [hall] at hprefix
      rw [cut?, if_pos hprefix]
      rfl
  | cons c front ih =>
    rw [List.cons_append, cut?]
    split
    · rfl
    · rwa [Option.isSome_map]

theorem not_mem_of_cut? {c : Char} {cs before after : List Char}
    (h : cut? [c] cs = some (before, after)) : c ∉ before := by
  induction cs generalizing before with
  | nil => cases h
  | cons d cs ih =>
    unfold cut? at h
    split at h
    · cases h
      exact List.not_mem_nil
    · rename_i hne
      obtain ⟨⟨before', after'⟩, hcut, heq⟩ := Option.map_eq_some_iff.1 h
      obtain ⟨rfl, rfl⟩ := Prod.mk.inj heq
      rw [List.mem_cons, not_or]
      refine ⟨fun hc => hne ?_, ih hcut⟩
      rw [hc]
      simp

theorem not_mem_of_cut?_eq_none {c : Char} {cs : List Char} (h : cut? [c] cs = none) :
    c ∉ cs := by
  intro hc
  obtain ⟨front, back, rfl⟩ := List.append_of_mem hc
  have := isSome_cut? [c] front back
  rw [List.singleton_append, h] at this
  cases this

theorem contains_of_eq {text part : String} {before after : List Char}
    (h : text.toList = before ++ (part.toList ++ after)) : contains text part = true := by
  rw [contains, h]
  exact isSome_cut? part.toList before after

/-- What stands in a text cuts it in two. -/
theorem exists_eq_of_contains {text part : String} (h : contains text part = true) :
    ∃ before after, text.toList = before ++ (part.toList ++ after) := by
  obtain ⟨r, hr⟩ := Option.isSome_iff_exists.1 h
  exact ⟨r.1, r.2, eq_of_cut? hr⟩

theorem contains_eq_false {text part : String} {c : Char}
    (hpart : c ∈ part.toList) (htext : c ∉ text.toList) : contains text part = false := by
  rw [Bool.eq_false_iff]
  intro h
  obtain ⟨before, after, heq⟩ := exists_eq_of_contains h
  rw [heq] at htext
  simp [hpart] at htext

end Text

end ModuleWorkers
