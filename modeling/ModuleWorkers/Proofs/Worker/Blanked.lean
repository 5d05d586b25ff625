import Mathlib.Data.List.Forall2
import ModuleWorkers.Proofs.Worker.ByteMasking
import ModuleWorkers.Proofs.Worker.Construction

/-!
# Masking keeps offsets

The bytes of a masked script are those of the script with blanks in place of whole characters
(`Masking.IsMasking`), so an offset into one is an offset into the other, and between characters of
one if it is between characters of the other. Every script is masked that way, unless one of its
literals or comments has no end (`Masking.maskBytes_isMasking`), whatever stands behind a backslash,
or does not stand there any more.
-/

namespace ModuleWorkers

open Text Masked

namespace Masking

/-- Whether bytes are those of a text, with blanks in place of some of its characters. -/
structure IsMasking (text : List Char) (out : List UInt8) : Prop where
  /-- There are as many, and each one is kept or a blank. Those of line ends are kept. -/
  bytes : List.Forall₂ (fun b b' => b' = b ∨
    b' = ' '.toUInt8 ∧ ¬ (Char.ofUInt8 b = '\n' ∨ Char.ofUInt8 b = '\r')) (utf8 text) out
  /-- All bytes of a character are kept, or none of them is. -/
  whole : ∀ front c back, text = front ++ c :: back →
    (out.drop (byteLength front)).take c.utf8Size = String.utf8EncodeChar c ∨
      (out.drop (byteLength front)).take c.utf8Size = List.replicate c.utf8Size ' '.toUInt8

/-- What is written for a character is that one, or a blank for each of its bytes, unless it is a
line end. -/
theorem utf8_written_cases (m : Masked) : utf8 m.written = String.utf8EncodeChar m.char ∨
    utf8 m.written = List.replicate m.char.utf8Size ' '.toUInt8 ∧
      m.char ≠ '\n' ∧ m.char ≠ '\r' := by
  unfold written
  split
  · rename_i hhidden
    simp only [Bool.and_eq_true, bne_iff_ne] at hhidden
    exact .inr ⟨Bytes.utf8_replicate_blank _, hhidden.1.2, hhidden.2⟩
  · exact .inl (List.append_nil _)

theorem isMasking_written (ms : List Masked) :
    IsMasking (ms.map Masked.char) (utf8 (ms.flatMap written)) where
  bytes := by
    induction ms with
    | nil => exact .nil
    | cons m ms ih =>
      rw [List.map_cons, utf8_cons, List.flatMap_cons, utf8_append]
      refine List.rel_append ?_ ih
      rcases utf8_written_cases m with hkept | ⟨hblank, hline⟩
      · rw [hkept, List.forall₂_same]
        exact fun b _ => .inl rfl
      · rw [hblank, ← String.length_utf8EncodeChar, ← List.map_const', List.forall₂_map_right_iff,
          List.forall₂_same]
        intro b hb
        rw [ofUInt8_eq_iff hb (by decide), ofUInt8_eq_iff hb (by decide), not_or]
        exact .inr ⟨rfl, hline⟩
  whole := by
    intro front c back htext
    obtain ⟨ms₁, ms₂, rfl, rfl, hms₂⟩ := List.map_eq_append_iff.1 htext
    obtain ⟨m, ms₃, rfl, rfl, rfl⟩ := List.map_eq_cons_iff.1 hms₂
    have hdrop : (utf8 ((ms₁ ++ m :: ms₃).flatMap written)).drop
        (byteLength (ms₁.map Masked.char)) = utf8 m.written ++ utf8 (ms₃.flatMap written) := by
      rw [List.flatMap_append, utf8_append, ← Bytes.byteLength_flatMap_written, ← length_utf8,
        List.drop_left, List.flatMap_cons, utf8_append]
    have htake : (utf8 m.written ++ utf8 (ms₃.flatMap written)).take m.char.utf8Size =
        utf8 m.written := by
      rw [← Bytes.byteLength_written, ← length_utf8, List.take_left]
    rw [hdrop, htake]
    exact (utf8_written_cases m).imp_right And.left

/-- Masking the bytes of a script goes out of no range. It gives those of the masked script, or an
error at an offset in the script; and all argument lists that are found are stretches of it. -/
theorem maskBytes_isMasking (text : String) :
    (match maskBytes text.toUTF8.toList with
      | .ok out => IsMasking text.toList out ∧
          ∃ masked, mask text = .ok masked ∧ masked.toUTF8.toList = out
      | .error (.lex e) => mask text = .error e ∧ e.offset < text.toUTF8.toList.length
      | .error .outOfRange => False) ∧
    match findConstructions text with
      | .ok found => ∀ w ∈ found, w.start ≤ w.stop ∧
          isBoundary w.start text.toList ∧ isBoundary w.stop text.toList
      | .error e => mask text = .error e := by
  refine ⟨?_, ?_⟩
  · have hmasks := maskBytes_utf8 text.toList
    rw [← toList_toUTF8] at hmasks
    unfold mask
    cases hms : maskCharacters text.toList with
    | ok ms =>
      rw [hms] at hmasks
      dsimp only at hmasks
      rw [hmasks, ← map_char_maskCharacters hms]
      refine ⟨isMasking_written ms, _, rfl, ?_⟩
      rw [toList_toUTF8, String.toList_ofList]
    | error e =>
      rw [hms] at hmasks
      obtain ⟨hmasks, hoffset⟩ := hmasks
      rw [hmasks, toList_toUTF8, length_utf8]
      exact ⟨rfl, hoffset⟩
  · cases hfound : findConstructions text with
    | ok found =>
      intro w hw
      obtain ⟨front, arguments, behind, htext, hstart, hstop⟩ :=
        isClosedIn_findConstructions hfound hw
      refine ⟨by omega, ?_, ?_⟩
      · rw [htext, hstart]
        exact isBoundary_byteLength _ _
      · rw [htext, hstop, hstart, ← byteLength_append, ← List.append_assoc]
        exact isBoundary_byteLength _ _
    | error e =>
      unfold findConstructions at hfound
      unfold mask
      cases hms : maskCharacters text.toList with
      | ok ms =>
        rw [hms] at hfound
        cases hfound
      | error e' =>
        rw [hms] at hfound
        cases hfound
        rfl

end Masking

end ModuleWorkers
