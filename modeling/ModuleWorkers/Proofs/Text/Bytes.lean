import Mathlib.Data.List.Basic
import ModuleWorkers.Edits.Basic

/-!
# Byte offsets of texts

An offset is a boundary of a text if the text has a front of that many bytes (`isBoundary_iff`), and
there the text is split into that front and the rest (`splitBytes_byteLength`). Two boundaries in
their order cut a text into three (`exists_between`).
-/

namespace ModuleWorkers

namespace Text

@[simp] theorem byteLength_nil : byteLength [] = 0 := rfl

theorem foldl_utf8Size (cs : List Char) (n : Nat) :
    cs.foldl (fun n c => n + c.utf8Size) n = n + byteLength cs := by
  induction cs generalizing n with
  | nil => rfl
  | cons c cs ih =>
    unfold byteLength
    rw [List.foldl_cons, List.foldl_cons, ih, ih (0 + c.utf8Size)]
    omega

@[simp] theorem byteLength_cons (c : Char) (cs : List Char) :
    byteLength (c :: cs) = c.utf8Size + byteLength cs := by
  unfold byteLength
  rw [List.foldl_cons, foldl_utf8Size, Nat.zero_add]
  rfl

@[simp] theorem byteLength_append (as bs : List Char) :
    byteLength (as ++ bs) = byteLength as + byteLength bs := by
  induction as with
  | nil => simp
  | cons a as ih => rw [List.cons_append, byteLength_cons, byteLength_cons, ih, Nat.add_assoc]

theorem byteLength_pos {cs : List Char} (h : cs ≠ []) : 0 < byteLength cs := by
  cases cs with
  | nil => exact absurd rfl h
  | cons c cs =>
    have := c.utf8Size_pos
    rw [byteLength_cons]
    omega

/-- Of two fronts of a text the shorter one is a front of the other. -/
theorem exists_append_of_byteLength_le {as bs cs ds : List Char} (h : as ++ bs = cs ++ ds)
    (hle : byteLength as ≤ byteLength cs) : ∃ es, cs = as ++ es ∧ bs = es ++ ds := by
  rcases List.append_eq_append_iff.1 h with ⟨es, rfl, rfl⟩ | ⟨es, rfl, rfl⟩
  · exact ⟨es, rfl, rfl⟩
  · have he : es = [] := by
      by_contra hne
      have := byteLength_pos hne
      rw [byteLength_append] at hle
      omega
    subst he
    exact ⟨[], by simp, rfl⟩

theorem append_inj_of_byteLength_eq {as bs cs ds : List Char} (h : as ++ bs = cs ++ ds)
    (hlength : byteLength as = byteLength cs) : as = cs ∧ bs = ds := by
  obtain ⟨es, rfl, rfl⟩ := exists_append_of_byteLength_le h (Nat.le_of_eq hlength)
  have hes : es = [] := by
    by_contra hne
    have := byteLength_pos hne
    rw [byteLength_append] at hlength
    omega
  subst hes
  exact ⟨(List.append_nil as).symm, rfl⟩

end Text

open Text

theorem splitBytes_byteLength (front back : List Char) :
    splitBytes (byteLength front) (front ++ back) = (front, back) := by
  induction front with
  | nil =>
    cases back <;> rfl
  | cons c cs ih =>
    obtain ⟨n, hn⟩ := Nat.exists_eq_succ_of_ne_zero (Nat.pos_iff_ne_zero.1 c.utf8Size_pos)
    have hsub : n + byteLength cs + 1 - c.utf8Size = byteLength cs := by omega
    rw [byteLength_cons, hn, List.cons_append, Nat.succ_add, splitBytes, hsub, ih]

theorem isBoundary_byteLength (front back : List Char) :
    isBoundary (byteLength front) (front ++ back) := by
  induction front with
  | nil => cases back <;> rfl
  | cons c cs ih =>
    obtain ⟨n, hn⟩ := Nat.exists_eq_succ_of_ne_zero (Nat.pos_iff_ne_zero.1 c.utf8Size_pos)
    have hsub : n + byteLength cs + 1 - c.utf8Size = byteLength cs := by omega
    rw [byteLength_cons, hn, List.cons_append, Nat.succ_add, isBoundary, hsub, ih]
    simp only [Bool.and_true, decide_eq_true_eq]
    omega

theorem isBoundary_iff {n : Nat} {cs : List Char} :
    isBoundary n cs ↔ ∃ front back, cs = front ++ back ∧ n = byteLength front := by
  constructor
  · intro h
    induction cs generalizing n with
    | nil =>
      cases n with
      | zero => exact ⟨[], [], rfl, rfl⟩
      | succ n => cases h
    | cons c cs ih =>
      cases n with
      | zero => exact ⟨[], c :: cs, rfl, rfl⟩
      | succ n =>
        rw [isBoundary, Bool.and_eq_true, decide_eq_true_eq] at h
        obtain ⟨front, back, rfl, hn⟩ := ih h.2
        refine ⟨c :: front, back, rfl, ?_⟩
        rw [byteLength_cons]
        omega
  · rintro ⟨front, back, rfl, rfl⟩
    exact isBoundary_byteLength front back

theorem isBoundary_le {n : Nat} {cs : List Char} (h : isBoundary n cs) : n ≤ byteLength cs := by
  obtain ⟨front, back, rfl, rfl⟩ := isBoundary_iff.1 h
  rw [byteLength_append]
  omega

/-- A boundary in the middle of a text cuts the middle. -/
theorem exists_between {n : Nat} {front middle back : List Char}
    (h : isBoundary n (front ++ (middle ++ back))) (hstart : byteLength front ≤ n)
    (hstop : n ≤ byteLength (front ++ middle)) :
    ∃ as bs, middle = as ++ bs ∧ n = byteLength (front ++ as) := by
  obtain ⟨cs, ds, hcs, rfl⟩ := isBoundary_iff.1 h
  obtain ⟨as, rfl, has⟩ := exists_append_of_byteLength_le hcs hstart
  rw [byteLength_append, byteLength_append] at hstop
  obtain ⟨bs, rfl, -⟩ := exists_append_of_byteLength_le has.symm (by omega)
  exact ⟨as, bs, rfl, rfl⟩

end ModuleWorkers
