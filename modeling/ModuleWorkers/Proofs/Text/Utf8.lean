import ModuleWorkers.Proofs.Encoding.DataUrl
import ModuleWorkers.Proofs.Text.Bytes
import ModuleWorkers.Proofs.Text.Search

/-!
# Bytes of texts

The bytes of a character are its code if it is in ASCII, and all beyond ASCII otherwise
(`Text.toNat_of_mem_utf8EncodeChar`). So a byte of ASCII stands for its character wherever it is
found (`Text.ofUInt8_eq_iff`), and a search for such bytes goes along with the search for their
characters (`takeWhile_flatMap`, `dropWhile_flatMap`).
-/

namespace ModuleWorkers

/-! ## Stretches of lists that are put together -/

section Spans

variable {α β : Type} {f : α → List β} {p : β → Bool} {q : α → Bool} {l : List α}

theorem takeWhile_flatMap (hne : ∀ a ∈ l, f a ≠ []) (h : ∀ a ∈ l, ∀ b ∈ f a, p b = q a) :
    (l.flatMap f).takeWhile p = (l.takeWhile q).flatMap f := by
  induction l with
  | nil => rfl
  | cons a l ih =>
    obtain ⟨hnea, hne⟩ := List.forall_mem_cons.1 hne
    obtain ⟨ha, hl⟩ := List.forall_mem_cons.1 h
    rw [List.flatMap_cons]
    cases hq : q a with
    | true =>
      rw [List.takeWhile_append_of_pos fun b hb => (ha b hb).trans hq, ih hne hl,
        List.takeWhile_cons_of_pos hq, List.flatMap_cons]
    | false =>
      obtain ⟨b, bs, hb⟩ := List.exists_cons_of_ne_nil hnea
      have hp : ¬ p b := by rw [ha b (hb ▸ List.mem_cons_self), hq]; exact Bool.false_ne_true
      rw [hb, List.cons_append, List.takeWhile_cons_of_neg hp,
        List.takeWhile_cons_of_neg (Bool.eq_false_iff.1 hq), List.flatMap_nil]

theorem dropWhile_flatMap (hne : ∀ a ∈ l, f a ≠ []) (h : ∀ a ∈ l, ∀ b ∈ f a, p b = q a) :
    (l.flatMap f).dropWhile p = (l.dropWhile q).flatMap f := by
  have hall : (l.takeWhile q).flatMap f ++ (l.flatMap f).dropWhile p =
      (l.takeWhile q).flatMap f ++ (l.dropWhile q).flatMap f := by
    rw [← takeWhile_flatMap hne h, List.takeWhile_append_dropWhile, takeWhile_flatMap hne h,
      ← List.flatMap_append, List.takeWhile_append_dropWhile]
  exact List.append_cancel_left hall

theorem any_head?_flatMap (hne : ∀ a ∈ l, f a ≠ []) (h : ∀ a ∈ l, ∀ b ∈ f a, p b = q a) :
    (l.flatMap f).head?.any p = l.head?.any q := by
  cases l with
  | nil => rfl
  | cons a l =>
    obtain ⟨b, bs, hb⟩ := List.exists_cons_of_ne_nil (hne a List.mem_cons_self)
    rw [List.flatMap_cons, hb]
    exact h a List.mem_cons_self b (hb ▸ List.mem_cons_self)

end Spans

namespace Text

/-! ## Bytes of characters -/

/-- The bytes of a text. -/
def utf8 (cs : List Char) : List UInt8 := cs.flatMap String.utf8EncodeChar

@[simp] theorem utf8_nil : utf8 [] = [] := rfl

@[simp] theorem utf8_cons (c : Char) (cs : List Char) :
    utf8 (c :: cs) = String.utf8EncodeChar c ++ utf8 cs := rfl

@[simp] theorem utf8_append (as bs : List Char) : utf8 (as ++ bs) = utf8 as ++ utf8 bs :=
  List.flatMap_append

@[simp] theorem length_utf8 (cs : List Char) : (utf8 cs).length = byteLength cs := by
  induction cs with
  | nil => rfl
  | cons c cs ih => simp [ih]

theorem toList_toUTF8 (text : String) : text.toUTF8.toList = utf8 text.toList := by
  have hbytes : text.toUTF8 = (utf8 text.toList).toByteArray := by
    conv_lhs => rw [← String.ofList_toList (s := text)]
    rfl
  rw [toList_byteArray, hbytes, List.data_toByteArray, List.toList_toArray]

theorem utf8_injective {as bs : List Char} (h : utf8 as = utf8 bs) : as = bs := by
  have hbytes : (String.ofList as).toByteArray = (String.ofList bs).toByteArray := by
    rw [String.toByteArray_ofList, String.toByteArray_ofList]
    exact congrArg List.toByteArray h
  exact String.ofList_injective (String.toByteArray_inj.1 hbytes)

theorem toNat_of_mem_utf8EncodeChar {c : Char} {b : UInt8} (hb : b ∈ String.utf8EncodeChar c) :
    (c.toNat < 128 ∧ b.toNat = c.toNat) ∨ (128 ≤ c.toNat ∧ 128 ≤ b.toNat) := by
  have hc : c.toNat = c.val.toNat := rfl
  unfold String.utf8EncodeChar at hb
  dsimp only at hb
  split_ifs at hb <;>
    simp only [List.mem_cons, List.not_mem_nil, or_false] at hb <;>
    rcases hb with rfl | rfl | rfl | rfl <;>
    simp only [UInt8.toNat_ofNat'] <;>
    omega

/-- A byte of a character, taken for a character, is that one, or both are beyond ASCII. -/
theorem ofUInt8_of_mem_utf8EncodeChar {c : Char} {b : UInt8} (hb : b ∈ String.utf8EncodeChar c) :
    Char.ofUInt8 b = c ∨ (128 ≤ c.toNat ∧ 128 ≤ (Char.ofUInt8 b).toNat) := by
  have hcode : (Char.ofUInt8 b).toNat = b.toNat := rfl
  rcases toNat_of_mem_utf8EncodeChar hb with ⟨-, h⟩ | ⟨hc, h⟩
  · exact .inl (Char.toNat_inj.1 (hcode.trans h))
  · exact .inr ⟨hc, hcode ▸ h⟩

/-- A byte of ASCII stands for its character. -/
theorem ofUInt8_eq_iff {c d : Char} {b : UInt8} (hb : b ∈ String.utf8EncodeChar c)
    (hd : d.toNat < 128) : Char.ofUInt8 b = d ↔ c = d := by
  rcases ofUInt8_of_mem_utf8EncodeChar hb with rfl | ⟨hc, hb⟩
  · rfl
  · constructor <;> rintro rfl <;> omega

/-- The bytes of a character start with one that no other byte of a character looks like. -/
theorem exists_utf8EncodeChar_eq (c : Char) : ∃ b bs, String.utf8EncodeChar c = b :: bs ∧
    (b.toNat < 128 ∨ 192 ≤ b.toNat) ∧ ∀ d ∈ bs, 128 ≤ (Char.ofUInt8 d).toNat := by
  have hc : c.toNat = c.val.toNat := rfl
  have hcode : ∀ n, (Char.ofUInt8 (UInt8.ofNat n)).toNat = n % 256 := fun n => UInt8.toNat_ofNat'
  unfold String.utf8EncodeChar
  dsimp only
  split_ifs <;> refine ⟨_, _, rfl, ?_, ?_⟩ <;>
    simp only [List.mem_cons, List.not_mem_nil, or_false, forall_eq_or_imp, forall_eq, hcode,
      UInt8.toNat_ofNat', false_imp_iff, implies_true] <;>
    omega

theorem utf8EncodeChar_ne_nil (c : Char) : String.utf8EncodeChar c ≠ [] := by
  obtain ⟨b, bs, h, -⟩ := exists_utf8EncodeChar_eq c
  simp [h]

/-- A character of ASCII has one byte. -/
theorem exists_utf8EncodeChar_eq_singleton {c : Char} (h : c.toNat < 128) :
    ∃ b, String.utf8EncodeChar c = [b] ∧ Char.ofUInt8 b = c := by
  have hsize : c.utf8Size = 1 := by
    rw [Char.utf8Size_eq_one_iff, UInt32.le_iff_toNat_le]
    exact Nat.le_of_lt_succ h
  have hbytes := String.utf8EncodeChar_eq_singleton hsize
  refine ⟨_, hbytes, (ofUInt8_eq_iff (c := c) ?_ h).2 rfl⟩
  rw [hbytes]
  exact List.mem_singleton_self _

/-- A text of ASCII is in front of another one if its bytes are. -/
theorem utf8_prefix_iff {as cs : List Char} (has : ∀ a ∈ as, a.toNat < 128) :
    utf8 as <+: utf8 cs ↔ as <+: cs := by
  induction as generalizing cs with
  | nil => simp
  | cons a as ih =>
    obtain ⟨ha, has⟩ := List.forall_mem_cons.1 has
    obtain ⟨x, hx, hcode⟩ := exists_utf8EncodeChar_eq_singleton ha
    cases cs with
    | nil => simp [hx]
    | cons c cs =>
      by_cases hac : a = c
      · subst hac
        rw [utf8_cons, utf8_cons, List.prefix_append_right_inj, ih has, List.cons_prefix_cons]
        simp
      · obtain ⟨b, bs, hb, -⟩ := exists_utf8EncodeChar_eq c
        have hxb : x ≠ b := by
          rintro rfl
          exact hac ((ofUInt8_eq_iff (hb ▸ List.mem_cons_self) ha).1 hcode).symm
        simp [hx, hb, hxb, hac]

end Text

end ModuleWorkers
