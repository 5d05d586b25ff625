import ModuleWorkers.Proofs.Text.Bytes
import ModuleWorkers.Proofs.Worker.Masking
import ModuleWorkers.Worker.Construction

/-!
# Argument lists of constructions

A cursor lies behind another one (`MaskedCursor.LiesBehind`) if what it has passed makes up the
difference of their offsets. All readers keep it there, so the argument list of a construction is a
stretch of the text, and ends where the text has its closing parenthesis
(`isClosedIn_findConstructions`).
-/

namespace ModuleWorkers

open Text

namespace MaskedCursor

theorem byteLength_eq (ms : List Masked) : byteLength ms = Text.byteLength (source ms) := by
  rw [byteLength, Text.byteLength, source, List.foldl_map]

/-- Whether a cursor lies behind another one in the same text. -/
def LiesBehind (c front : MaskedCursor) : Prop :=
  ∃ passed, front.rest = passed ++ c.rest ∧
    c.offset = front.offset + Text.byteLength (source passed)

theorem LiesBehind.refl (c : MaskedCursor) : c.LiesBehind c := ⟨[], rfl, rfl⟩

section

variable {front c c' : MaskedCursor}

theorem LiesBehind.past (h : c.LiesBehind front) {ms rest : List Masked}
    (hrest : c.rest = ms ++ rest) : (c.past ms rest).LiesBehind front := by
  obtain ⟨passed, hall, hoffset⟩ := h
  refine ⟨passed ++ ms, by rw [hall, hrest, List.append_assoc]; rfl, ?_⟩
  rw [MaskedCursor.past, hoffset, byteLength_eq, source, source, source, List.map_append,
    byteLength_append, Nat.add_assoc]

theorem LiesBehind.next {m : Masked} {rest : List Masked} {offset : Nat}
    (h : LiesBehind ⟨m :: rest, offset⟩ front) :
    LiesBehind ⟨rest, offset + m.char.utf8Size⟩ front := by
  have hpast : LiesBehind (MaskedCursor.past ⟨m :: rest, offset⟩ [m] rest) front := h.past rfl
  simpa [MaskedCursor.past, byteLength] using hpast

theorem LiesBehind.skipWhile (h : c.LiesBehind front) (p : Char → Bool) :
    (c.skipWhile p).LiesBehind front :=
  h.past List.takeWhile_append_dropWhile.symm

theorem LiesBehind.skipBlanks (h : c.LiesBehind front) : c.skipBlanks.LiesBehind front :=
  h.skipWhile _

/-- What is eaten is a character of the text. -/
theorem LiesBehind.exists_of_eat? (h : c.LiesBehind front) {char : Char}
    (he : c.eat? char = some c') :
    ∃ passed m, front.rest = passed ++ m :: c'.rest ∧ m.visible = char ∧
      c'.offset = front.offset + Text.byteLength (source passed) + m.char.utf8Size := by
  have hblanks := h.skipBlanks
  unfold MaskedCursor.eat? at he
  split at he
  · rename_i m rest offset hskip
    rw [hskip] at hblanks
    split at he
    · rename_i hvisible
      obtain ⟨passed, hall, hoffset⟩ := hblanks
      cases he
      exact ⟨passed, m, hall, hvisible, congrArg (· + m.char.utf8Size) hoffset⟩
    · cases he
  · cases he

theorem LiesBehind.eat? (h : c.LiesBehind front) {char : Char} (he : c.eat? char = some c') :
    c'.LiesBehind front := by
  obtain ⟨passed, m, hall, -, hoffset⟩ := h.exists_of_eat? he
  refine ⟨passed ++ [m], by simpa using hall, ?_⟩
  rw [hoffset]
  simp [source, Nat.add_assoc]

theorem LiesBehind.eatText? (h : c.LiesBehind front) {text : List Char}
    (he : c.eatText? text = some c') : c'.LiesBehind front := by
  fun_induction MaskedCursor.eatText? c text with
  | case1 => exact Option.some.inj he ▸ h
  | case2 as m rest offset ih => exact ih h.next he
  | case3 => cases he
  | case4 => cases he

theorem LiesBehind.eatPiece? (h : c.LiesBehind front) {piece : PatternPiece}
    (he : c.eatPiece? piece = some c') : c'.LiesBehind front := by
  unfold MaskedCursor.eatPiece? at he
  cases piece with
  | text chars => exact h.eatText? he
  | blanks => exact Option.some.inj he ▸ h.skipWhile _
  | gap =>
    simp only at he
    split at he
    · exact Option.some.inj he ▸ h.skipWhile _
    · cases he
  | wordEnd =>
    simp only at he
    split at he
    · cases he
    · exact Option.some.inj he ▸ h

theorem LiesBehind.eatPattern? (h : c.LiesBehind front) {pattern : List PatternPiece}
    (he : c.eatPattern? pattern = some c') : c'.LiesBehind front := by
  unfold MaskedCursor.eatPattern? at he
  induction pattern generalizing c with
  | nil => exact Option.some.inj he ▸ h
  | cons piece pattern ih =>
    obtain ⟨c₁, hpiece, hrest⟩ := Option.bind_eq_some_iff.1 he
    exact ih (h.eatPiece? hpiece) hrest

end

end MaskedCursor

namespace Construction

open MaskedCursor

variable {front c c' : MaskedCursor}

theorem liesBehind_string? (h : c.LiesBehind front) {text : String}
    (hs : string? c = some (text, c')) : c'.LiesBehind front := by
  have hblanks := h.skipBlanks
  unfold string? at hs
  split at hs
  · cases hs
  · rename_i m rest offset hskip
    rw [hskip] at hblanks
    simp only at hs
    split at hs
    · split at hs
      · cases hs
      · rename_i q after hdrop
        split at hs
        · cases hs
        · have hrest : m :: rest =
              (m :: rest.takeWhile (·.visible != m.visible)) ++ (q :: after) := by
            rw [List.cons_append, ← hdrop, List.takeWhile_append_dropWhile]
          cases hs
          exact (hblanks.past hrest).next
    · cases hs

theorem append_of_objectEnd? {depth : Nat} {read rest : List Masked}
    {r : List Masked × List Masked} (h : objectEnd? depth read rest = some r) :
    read.reverse ++ rest = r.1 ++ r.2 := by
  fun_induction objectEnd? depth read rest with
  | case1 => cases h
  | case2 depth read m rest _ ih => simpa using ih h
  | case3 =>
    cases h
    simp
  | case4 depth read m rest _ _ _ ih => simpa using ih h
  | case5 depth read m rest _ _ ih => simpa using ih h

theorem liesBehind_object? (h : c.LiesBehind front) {text : String}
    (ho : object? c = some (text, c')) : c'.LiesBehind front := by
  unfold object? at ho
  simp only at ho
  split at ho
  · obtain ⟨⟨ms, rest⟩, hend, hpair⟩ := Option.map_eq_some_iff.1 ho
    cases hpair
    exact h.skipBlanks.past (append_of_objectEnd? hend)
  · cases ho

theorem liesBehind_eatComma (h : c.LiesBehind front) : (eatComma c).LiesBehind front := by
  unfold eatComma
  cases he : c.eat? ',' with
  | none => exact h
  | some c' => exact h.eat? he

theorem liesBehind_target? (h : c.LiesBehind front) {target : WorkerTarget}
    (ht : target? c = some (target, c')) : c'.LiesBehind front := by
  unfold target? at ht
  split at ht
  · rename_i c₁ hurl
    simp only [Option.bind_eq_bind, Option.bind_eq_some_iff, Option.pure_def, Option.some.injEq,
      Prod.mk.injEq] at ht
    obtain ⟨⟨text, c₂⟩, hstring, c₃, hcomma, c₄, hmeta, c₅, hclose, -, rfl⟩ := ht
    have h₂ := liesBehind_string? (h.skipBlanks.eatPattern? hurl) hstring
    exact (liesBehind_eatComma ((h₂.eat? hcomma).skipBlanks.eatPattern? hmeta)).eat? hclose
  · split at ht
    · rename_i c₁ hmeta
      cases ht
      exact h.skipBlanks.eatPattern? hmeta
    · obtain ⟨⟨text, c₁⟩, hstring, hpair⟩ := Option.map_eq_some_iff.1 ht
      cases hpair
      exact liesBehind_string? h hstring

theorem liesBehind_options? (h : c.LiesBehind front) {options : Option String}
    (ho : options? c = some (options, c')) : c'.LiesBehind front := by
  unfold options? at ho
  split at ho
  · cases ho
    exact h
  · rename_i c₁ hcomma
    split at ho
    · cases ho
      exact h.eat? hcomma
    · obtain ⟨⟨text, c₂⟩, hobject, hpair⟩ := Option.map_eq_some_iff.1 ho
      cases hpair
      exact liesBehind_eatComma (liesBehind_object? (h.eat? hcomma) hobject)

/-- Whether the argument list is a stretch of a text that has a closing parenthesis behind it. -/
def IsClosedIn (text : List Char) (w : Construction) : Prop :=
  ∃ front arguments behind, text = front ++ (arguments ++ ')' :: behind) ∧
    w.start = Text.byteLength front ∧ w.stop = w.start + Text.byteLength arguments

theorem isClosedIn_arguments? {all : List Masked} (h : c.LiesBehind ⟨all, 0⟩) {w : Construction}
    (hw : arguments? c = some w) : w.IsClosedIn (source all) := by
  unfold arguments? at hw
  simp only [Option.bind_eq_bind, Option.bind_eq_some_iff, Option.pure_def, Option.some.injEq] at hw
  obtain ⟨⟨target, c₁⟩, htarget, ⟨options, c₂⟩, hoptions, close, hclose, rfl⟩ := hw
  obtain ⟨passed, hall, hstart⟩ := h
  obtain ⟨arguments, m, hrest, hvisible, hoffset⟩ :=
    (liesBehind_options? (liesBehind_target? (.refl c) htarget) hoptions).exists_of_eat? hclose
  have hchar : m.char = ')' := by
    unfold Masked.visible at hvisible
    split at hvisible
    · cases hvisible
    · exact hvisible
  have hsize : ')'.utf8Size = 1 := rfl
  refine ⟨source passed, source arguments, source close.rest, ?_, ?_, ?_⟩
  · rw [show all = passed ++ (arguments ++ m :: close.rest) from hrest ▸ hall]
    simp [source, hchar]
  · rw [hstart, Nat.zero_add]
  · rw [hoffset, hchar, hsize, Nat.add_sub_cancel]

theorem isClosedIn_findFrom {all : List Masked} {found : List Construction}
    {previous : Option Char} (hfound : ∀ w ∈ found, w.IsClosedIn (source all)) {offset : Nat}
    {ms : List Masked} (h : LiesBehind ⟨ms, offset⟩ ⟨all, 0⟩) :
    ∀ w ∈ findFrom found previous offset ms, w.IsClosedIn (source all) := by
  induction ms generalizing found previous offset with
  | nil => exact fun w hw => hfound w (List.mem_reverse.1 hw)
  | cons m ms ih =>
    refine ih (fun w hw => ?_) h.next
    rcases List.mem_append.1 hw with hw | hw
    · have hhere : here? previous ⟨m :: ms, offset⟩ = some w := Option.mem_toList.1 hw
      unfold here? at hhere
      split at hhere
      · cases hhere
      · obtain ⟨c, hpattern, harguments⟩ := Option.bind_eq_some_iff.1 hhere
        exact isClosedIn_arguments? (h.eatPattern? hpattern) harguments
    · exact hfound w hw

end Construction

section

variable {text : String} {found : List Construction} {w : Construction}

/-- The argument list of a construction is a stretch of the text, which closes it there. -/
theorem isClosedIn_findConstructions (h : findConstructions text = .ok found) (hw : w ∈ found) :
    w.IsClosedIn text.toList := by
  unfold findConstructions at h
  cases hmask : maskCharacters text.toList with
  | error e =>
    rw [hmask] at h
    cases h
  | ok ms =>
    rw [hmask] at h
    cases h
    have hsource : MaskedCursor.source ms = text.toList := map_char_maskCharacters hmask
    rw [← hsource]
    exact Construction.isClosedIn_findFrom (by simp) (.refl _) w hw

theorem exists_parenthesis (h : findConstructions text = .ok found) (hw : w ∈ found) :
    ∃ before behind, text.toList = before ++ ')' :: behind ∧ w.stop = byteLength before := by
  obtain ⟨front, arguments, behind, htext, hstart, hstop⟩ := isClosedIn_findConstructions h hw
  refine ⟨front ++ arguments, behind, by rw [htext, List.append_assoc], ?_⟩
  rw [hstop, hstart, byteLength_append]

end

end ModuleWorkers
