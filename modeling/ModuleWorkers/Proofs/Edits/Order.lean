import Mathlib.Data.List.TakeWhile
import ModuleWorkers.Proofs.Text.Bytes

/-!
# Edits do not get into each other's way

In a well-formed buffer (`EditBuffer.WF`) each edit ends before the next one starts, and all of them
start and end between characters. Buffers without edits are well-formed, and `overwrite` keeps them
so (`EditBuffer.WF.overwrite`); it refuses an edit that fits the text only if it conflicts with
another one (`EditBuffer.exists_conflicts`). The pieces of a buffer make up its base text
(`EditBuffer.flatMap_old_pieces`), and the text behind the last edit stays
(`EditBuffer.exists_text_eq`), right behind what that edit writes
(`EditBuffer.exists_text_eq_of_last`).

`Edit.Replaces` describes an edited text without cutting anything: where an edit is, its content
stands in the place of the stretch that it replaces, and all characters between the edits stay.
There is only one such text (`Edit.Replaces.unique`), and a well-formed buffer gives it
(`EditBuffer.WF.replaces`).
-/

namespace ModuleWorkers

open Text

namespace Edit

/-- An edit of a text: a stretch of it, from one boundary to another. -/
structure Fits (e : Edit) (cs : List Char) : Prop where
  le : e.start ≤ e.stop
  start : isBoundary e.start cs
  stop : isBoundary e.stop cs

theorem conflicts_self {e : Edit} (h : e.start < e.stop) : e.conflicts e := by
  have hi : e.isInsertion = false := beq_false_of_ne (Nat.ne_of_lt h)
  simp [conflicts, hi, h]

/-- An edit in front of another one, or at its side, ends before it unless they conflict. -/
theorem stop_le_of_le {a e : Edit} (ha : a.start ≤ a.stop) (he : e.start ≤ e.stop)
    (hle : a.le e) (hc : ¬ e.conflicts a) : a.stop ≤ e.start := by
  simp only [le, conflicts, isInsertion, Bool.or_eq_true, Bool.and_eq_true, decide_eq_true_eq,
    beq_iff_eq, Bool.not_eq_true', beq_eq_false_iff_ne] at hle hc
  split_ifs at hc <;> simp only [Bool.and_eq_true, decide_eq_true_eq] at hc <;> omega

/-- An edit that is not in front of another one starts behind it unless they conflict. -/
theorem le_start_of_not_le {d e : Edit} (hd : d.start ≤ d.stop)
    (hle : ¬ d.le e) (hc : ¬ e.conflicts d) : e.stop ≤ d.start := by
  simp only [le, conflicts, isInsertion, Bool.or_eq_true, Bool.and_eq_true, decide_eq_true_eq,
    beq_iff_eq, Bool.not_eq_true', beq_eq_false_iff_ne] at hle hc
  split_ifs at hc <;> simp only [Bool.and_eq_true, decide_eq_true_eq] at hc <;> omega

/-- What does not conflict with a stretch that is replaced lies on one side of it. -/
theorem stop_le_or_le_start {d e : Edit} (he : e.start < e.stop) (hc : ¬ e.conflicts d) :
    d.stop ≤ e.start ∨ e.stop ≤ d.start := by
  simp only [conflicts, isInsertion, beq_iff_eq] at hc
  split_ifs at hc <;> simp only [Bool.and_eq_true, decide_eq_true_eq] at hc <;> omega

theorem le_of_stop_le {d e : Edit} (hd : d.start ≤ d.stop) (h : d.stop ≤ e.start) : d.le e := by
  simp only [le, isInsertion, Bool.or_eq_true, Bool.and_eq_true, decide_eq_true_eq, beq_iff_eq,
    Bool.not_eq_true', beq_eq_false_iff_ne]
  omega

end Edit

namespace EditBuffer

/-- A buffer whose edits are stretches of its text, one behind the other. -/
structure WF (b : EditBuffer) : Prop where
  fits : ∀ e ∈ b.edits, e.Fits b.base.toList
  ordered : b.edits.Pairwise fun a c => a.stop ≤ c.start

theorem WF.nil (base : String) : WF { base } :=
  ⟨by simp, List.Pairwise.nil⟩

/-! ## Adding an edit -/

theorem mem_insert {e d : Edit} {edits : List Edit} : d ∈ insert e edits ↔ d = e ∨ d ∈ edits := by
  have h := List.takeWhile_append_dropWhile (p := (·.le e)) (l := edits)
  constructor
  · intro hd
    rw [insert, List.mem_append, List.mem_cons] at hd
    rcases hd with hd | rfl | hd
    · exact .inr (List.takeWhile_subset _ hd)
    · exact .inl rfl
    · exact .inr (List.dropWhile_subset _ hd)
  · rintro (rfl | hd)
    · simp [insert]
    · rw [← h, List.mem_append] at hd
      rw [insert, List.mem_append, List.mem_cons]
      rcases hd with hd | hd
      · exact .inl hd
      · exact .inr (.inr hd)

/-- An edit behind all others comes last. -/
theorem insert_of_forall_stop_le {e : Edit} {edits : List Edit}
    (hle : ∀ d ∈ edits, d.start ≤ d.stop) (h : ∀ d ∈ edits, d.stop ≤ e.start) :
    insert e edits = edits ++ [e] := by
  have hall : ∀ d ∈ edits, d.le e := fun d hd => Edit.le_of_stop_le (hle d hd) (h d hd)
  rw [insert, List.takeWhile_eq_self_iff.2 hall, List.dropWhile_eq_nil_iff.2 hall]

theorem pairwise_insert {e : Edit} {edits : List Edit}
    (h : edits.Pairwise fun a c => a.stop ≤ c.start) (hle : ∀ d ∈ edits, d.start ≤ d.stop)
    (he : e.start ≤ e.stop) (hc : ∀ d ∈ edits, ¬ e.conflicts d) :
    (insert e edits).Pairwise fun a c => a.stop ≤ c.start := by
  have hsplit := List.takeWhile_append_dropWhile (p := (·.le e)) (l := edits)
  rw [← hsplit, List.pairwise_append] at h
  obtain ⟨hfront, hback, hcross⟩ := h
  have hbefore : ∀ a ∈ edits.takeWhile (·.le e), a.stop ≤ e.start := by
    intro a ha
    have hmem := List.takeWhile_subset _ ha
    have hae := List.mem_takeWhile_imp ha
    exact Edit.stop_le_of_le (hle a hmem) he hae (hc a hmem)
  have hbehind : ∀ d ∈ edits.dropWhile (·.le e), e.stop ≤ d.start := by
    intro d hd
    cases hdrop : edits.dropWhile (·.le e) with
    | nil => rw [hdrop] at hd; cases hd
    | cons c cs =>
      -- The first edit behind is not in front of the new one; the others are behind the first.
      have hcmem : c ∈ edits := List.dropWhile_subset _ (hdrop ▸ List.mem_cons_self)
      have hcle : ¬ c.le e := by
        have := List.head_dropWhile_not (·.le e) (l := edits)
          (by rw [hdrop]; exact List.cons_ne_nil c cs)
        simpa [hdrop] using this
      have hfirst := Edit.le_start_of_not_le (hle c hcmem) hcle (hc c hcmem)
      rw [hdrop] at hd hback
      rcases List.mem_cons.1 hd with rfl | hd
      · exact hfirst
      · have hnext := (List.pairwise_cons.1 hback).1 d hd
        have := hle c hcmem
        omega
  rw [insert, List.pairwise_append, List.pairwise_cons]
  refine ⟨hfront, ⟨hbehind, hback⟩, ?_⟩
  intro a ha d hd
  rcases List.mem_cons.1 hd with rfl | hd
  · exact hbefore a ha
  · exact hcross a ha d hd

/-- What `overwrite` does when it does not refuse. -/
theorem overwrite_eq_ok {b b' : EditBuffer} {start stop : Nat} {content : String}
    (h : b.overwrite start stop content = .ok b') :
    (⟨start, stop, content⟩ : Edit).Fits b.base.toList ∧
      (∀ d ∈ b.edits, ¬ (⟨start, stop, content⟩ : Edit).conflicts d) ∧
      b' = { b with edits := insert ⟨start, stop, content⟩ b.edits } := by
  unfold overwrite at h
  simp only at h
  split at h
  · cases h
  · rename_i hbounds
    split at h
    · cases h
    · rename_i hconflicts
      simp only [Bool.or_eq_true, decide_eq_true_eq, Bool.not_eq_true', not_or, Bool.not_eq_false]
        at hbounds
      obtain ⟨⟨⟨hle, -⟩, hstart⟩, hstop⟩ := hbounds
      refine ⟨⟨Nat.le_of_not_lt hle, hstart, hstop⟩, ?_, (Except.ok.inj h).symm⟩
      intro d hd hd'
      exact hconflicts (List.any_eq_true.2 ⟨d, hd, hd'⟩)

/-- An edit that fits the text is refused for another one only. -/
theorem exists_conflicts {b : EditBuffer} {start stop : Nat} {content : String} {error : EditError}
    (h : b.overwrite start stop content = .error error)
    (hfits : (⟨start, stop, content⟩ : Edit).Fits b.base.toList) :
    ∃ d ∈ b.edits, (⟨start, stop, content⟩ : Edit).conflicts d := by
  have hle : start ≤ stop := hfits.le
  have hstart : isBoundary start b.base.toList := hfits.start
  have hstop : isBoundary stop b.base.toList := hfits.stop
  have hlength := isBoundary_le hstop
  unfold overwrite at h
  simp only at h
  rw [if_neg (by simp [hstart, hstop]; omega)] at h
  split at h
  · rename_i hconflicts
    exact List.any_eq_true.1 hconflicts
  · cases h

theorem WF.overwrite {b b' : EditBuffer} {start stop : Nat} {content : String} (h : b.WF)
    (hb' : b.overwrite start stop content = .ok b') : b'.WF := by
  obtain ⟨hfits, hconflicts, rfl⟩ := overwrite_eq_ok hb'
  refine ⟨?_, pairwise_insert h.ordered (fun d hd => (h.fits d hd).le) hfits.le hconflicts⟩
  intro d hd
  rcases mem_insert.1 hd with rfl | hd
  · exact hfits
  · exact h.fits d hd

/-- A text can always be added at the end. -/
theorem WF.append_eq_ok {b : EditBuffer} (h : b.WF) (content : String) :
    b.append content = .ok { b with
      edits := b.edits ++ [⟨byteLength b.base.toList, byteLength b.base.toList, content⟩] } := by
  let e : Edit := ⟨byteLength b.base.toList, byteLength b.base.toList, content⟩
  have hend : isBoundary (byteLength b.base.toList) b.base.toList :=
    isBoundary_iff.2 ⟨_, [], (List.append_nil _).symm, rfl⟩
  have hstop : ∀ d ∈ b.edits, d.stop ≤ e.start := fun d hd => isBoundary_le (h.fits d hd).stop
  cases hb' : b.append content with
  | error error =>
    exfalso
    obtain ⟨d, hd, hd'⟩ := exists_conflicts hb' ⟨Nat.le_refl _, hend, hend⟩
    have hle : d.stop ≤ byteLength b.base.toList := hstop d hd
    simp only [Edit.conflicts, Edit.isInsertion, beq_self_eq_true, if_true, Bool.and_eq_true,
      decide_eq_true_eq] at hd'
    omega
  | ok b' =>
    obtain ⟨-, -, rfl⟩ := overwrite_eq_ok hb'
    rw [insert_of_forall_stop_le (fun d hd => (h.fits d hd).le) hstop]

/-! ## The edited text -/

theorem append_splitBytes (n : Nat) (cs : List Char) :
    (splitBytes n cs).1 ++ (splitBytes n cs).2 = cs := by
  fun_induction splitBytes n cs with
  | case1 => rfl
  | case2 => rfl
  | case3 n c cs front back hsplit ih =>
    rw [hsplit] at ih
    exact congrArg (c :: ·) ih

theorem flatMap_old_cut (offset : Nat) (text : List Char) (edits : List Edit) :
    (cut offset text edits).flatMap Piece.old = text := by
  induction edits generalizing offset text with
  | nil => simp [cut, Piece.old]
  | cons e es ih =>
    rw [cut, List.flatMap_cons, List.flatMap_cons, ih]
    simp only [Piece.old]
    rw [append_splitBytes, append_splitBytes]

/-- The pieces make up the base text. -/
theorem flatMap_old_pieces (b : EditBuffer) : b.pieces.flatMap Piece.old = b.base.toList :=
  flatMap_old_cut 0 _ _

/-- Edits in a front of a text cut this front only, and leave the rest to those behind them. -/
theorem exists_cut_append (passed front back : List Char) {edits : List Edit} (tail : List Edit)
    (hordered : edits.Pairwise fun a c => a.stop ≤ c.start)
    (hfits : ∀ e ∈ edits, e.Fits (passed ++ (front ++ back)))
    (hstart : ∀ e ∈ edits, byteLength passed ≤ e.start)
    (hstop : ∀ e ∈ edits, e.stop ≤ byteLength (passed ++ front)) :
    ∃ ps passed' rest, passed' ++ rest = passed ++ front ∧
      cut (byteLength passed) (front ++ back) (edits ++ tail) =
        ps ++ cut (byteLength passed') (rest ++ back) tail := by
  induction edits generalizing passed front with
  | nil => exact ⟨[], passed, front, rfl, rfl⟩
  | cons e es ih =>
    have he := hfits e List.mem_cons_self
    have hle := he.le
    have hfirst := hstart e List.mem_cons_self
    have hlast := hstop e List.mem_cons_self
    obtain ⟨before, rest, rfl, hbefore⟩ := exists_between he.start hfirst (by omega)
    have hstopFits : isBoundary e.stop ((passed ++ before) ++ (rest ++ back)) := by
      simpa using he.stop
    obtain ⟨old, rest, rfl, hold⟩ := exists_between hstopFits (by omega) (by simpa using hlast)
    obtain ⟨ps, passed', rest', hsplit, hps⟩ := ih (passed ++ before ++ old) rest
      (List.pairwise_cons.1 hordered).2
      (fun d hd => by simpa using hfits d (List.mem_cons_of_mem e hd))
      (fun d hd => hold ▸ (List.pairwise_cons.1 hordered).1 d hd)
      (fun d hd => by simpa using hstop d (List.mem_cons_of_mem e hd))
    refine ⟨.kept before :: .edited old e.content.toList :: ps, passed', rest',
      by simpa using hsplit, ?_⟩
    have h₁ : e.start - byteLength passed = byteLength before := by
      rw [hbefore, byteLength_append]
      omega
    have h₂ : e.stop - e.start = byteLength old := by
      rw [hbefore, hold, byteLength_append _ old]
      omega
    rw [List.cons_append, cut, h₁, List.append_assoc, List.append_assoc, splitBytes_byteLength]
    simp only
    rw [h₂, splitBytes_byteLength]
    simp only
    rw [hold, hps]
    rfl

theorem exists_mem_cut {e : Edit} {edits : List Edit} (he : e ∈ edits) (offset : Nat)
    (text : List Char) : ∃ old, .edited old e.content.toList ∈ cut offset text edits := by
  induction edits generalizing offset text with
  | nil => cases he
  | cons d ds ih =>
    rw [cut]
    rcases List.mem_cons.1 he with rfl | he
    · exact ⟨_, List.mem_cons_of_mem _ List.mem_cons_self⟩
    · obtain ⟨old, hold⟩ := ih he d.stop
        (splitBytes (d.stop - d.start) (splitBytes (d.start - offset) text).2).2
      exact ⟨old, List.mem_cons_of_mem _ (List.mem_cons_of_mem _ hold)⟩

/-- What an edit writes is in the edited text. -/
theorem mem_text_of_mem_content {b : EditBuffer} {e : Edit} (he : e ∈ b.edits) {c : Char}
    (hc : c ∈ e.content.toList) : c ∈ b.text.toList := by
  obtain ⟨old, hold⟩ := exists_mem_cut he 0 b.base.toList
  rw [text, String.toList_ofList, List.mem_flatMap]
  exact ⟨_, hold, hc⟩

/-- The text behind all edits stays. -/
theorem exists_text_eq {b : EditBuffer} (h : b.WF) (front back : List Char)
    (hbase : b.base.toList = front ++ back) (hstop : ∀ e ∈ b.edits, e.stop ≤ byteLength front) :
    ∃ cs, b.text.toList = cs ++ back := by
  obtain ⟨ps, passed, rest, -, hps⟩ := exists_cut_append [] front back [] h.ordered
    (fun e he => hbase ▸ h.fits e he) (fun e _ => Nat.zero_le e.start) hstop
  rw [List.append_nil, byteLength_nil] at hps
  refine ⟨ps.flatMap Piece.new ++ rest, ?_⟩
  rw [text, String.toList_ofList, pieces, hbase, hps]
  simp [cut, Piece.new]

/-- What the last edit writes stands in front of the text behind it. -/
theorem exists_text_eq_of_last {b : EditBuffer} (h : b.WF) {edits : List Edit} {e : Edit}
    (hedits : b.edits = edits ++ [e]) {front old back : List Char}
    (hbase : b.base.toList = front ++ (old ++ back)) (hstart : e.start = byteLength front)
    (hstop : e.stop = byteLength (front ++ old)) :
    ∃ cs, b.text.toList = cs ++ (e.content.toList ++ back) := by
  have hordered := h.ordered
  rw [hedits, List.pairwise_append] at hordered
  obtain ⟨ps, passed, rest, hsplit, hps⟩ := exists_cut_append [] front (old ++ back) [e] hordered.1
    (fun d hd => hbase ▸ h.fits d (hedits ▸ List.mem_append_left _ hd))
    (fun d _ => Nat.zero_le d.start)
    (fun d hd => hstart ▸ hordered.2.2 d hd e (List.mem_singleton_self e))
  rw [List.nil_append] at hsplit
  rw [byteLength_nil] at hps
  have h₁ : e.start - byteLength passed = byteLength rest := by
    rw [hstart, ← hsplit, byteLength_append]
    omega
  have h₂ : e.stop - e.start = byteLength old := by
    rw [hstart, hstop, byteLength_append]
    omega
  refine ⟨ps.flatMap Piece.new ++ rest, ?_⟩
  rw [text, String.toList_ofList, pieces, hbase, hedits, hps, cut, h₁, splitBytes_byteLength]
  simp only
  rw [h₂, splitBytes_byteLength]
  simp [cut, Piece.new]

end EditBuffer

/-! ## What edits make of a text -/

/-- What edits, one behind the other, make of the text that starts at an offset. -/
inductive Edit.Replaces : Nat → List Edit → List Char → List Char → Prop
  | kept (offset : Nat) (text : List Char) : Replaces offset [] text text
  | edited {offset : Nat} {e : Edit} {es : List Edit} {before old rest new : List Char} :
      e.start = offset + byteLength before → e.stop = e.start + byteLength old →
      Replaces e.stop es rest new →
      Replaces offset (e :: es) (before ++ (old ++ rest)) (before ++ (e.content.toList ++ new))

theorem Edit.Replaces.unique {offset : Nat} {es : List Edit} {text new new' : List Char}
    (h : Replaces offset es text new) (h' : Replaces offset es text new') : new = new' := by
  induction h generalizing new' with
  | kept => cases h'; rfl
  | @edited offset e es before old rest new hstart hstop h ih =>
    generalize htext : before ++ (old ++ rest) = text at h'
    cases h' with
    | @edited _ _ _ before' old' rest' new' hstart' hstop' h' =>
      obtain ⟨rfl, hrest⟩ := append_inj_of_byteLength_eq htext (by omega)
      obtain ⟨rfl, rfl⟩ := append_inj_of_byteLength_eq hrest (by omega)
      rw [ih h']

namespace EditBuffer

theorem replaces_cut (passed : List Char) {text : List Char} {edits : List Edit}
    (hordered : edits.Pairwise fun a c => a.stop ≤ c.start)
    (hfits : ∀ e ∈ edits, e.Fits (passed ++ text))
    (hstart : ∀ e ∈ edits, byteLength passed ≤ e.start) :
    Edit.Replaces (byteLength passed) edits text
      ((cut (byteLength passed) text edits).flatMap Piece.new) := by
  induction edits generalizing passed text with
  | nil => simpa [cut, Piece.new] using Edit.Replaces.kept (byteLength passed) text
  | cons e es ih =>
    have he := hfits e List.mem_cons_self
    have hle := he.le
    have hpassed := hstart e List.mem_cons_self
    have hstart : isBoundary e.start (passed ++ (text ++ [])) := by simpa using he.start
    obtain ⟨before, rest, rfl, hbefore⟩ := exists_between hstart hpassed
      (hle.trans (isBoundary_le he.stop))
    have hstop : isBoundary e.stop ((passed ++ before) ++ (rest ++ [])) := by simpa using he.stop
    obtain ⟨old, rest, rfl, hold⟩ := exists_between hstop (hbefore ▸ hle)
      (by simpa using isBoundary_le hstop)
    have h₁ : e.start - byteLength passed = byteLength before := by
      rw [hbefore, byteLength_append]
      omega
    have h₂ : e.stop - e.start = byteLength old := by
      rw [hbefore, hold, byteLength_append _ old]
      omega
    have hrest := ih (passed ++ before ++ old) (List.pairwise_cons.1 hordered).2
      (fun d hd => by simpa using hfits d (List.mem_cons_of_mem e hd))
      (fun d hd => hold ▸ (List.pairwise_cons.1 hordered).1 d hd)
    rw [← hold] at hrest
    rw [cut, h₁, splitBytes_byteLength]
    simp only
    rw [h₂, splitBytes_byteLength]
    simp only [List.flatMap_cons, Piece.new]
    exact .edited (by omega) (by omega) hrest

/-- The text of a buffer is its base text with the stretches of its edits replaced. -/
theorem WF.replaces {b : EditBuffer} (h : b.WF) :
    Edit.Replaces 0 b.edits b.base.toList b.text.toList := by
  rw [text, String.toList_ofList]
  exact replaces_cut [] h.ordered h.fits fun e _ => Nat.zero_le e.start

end EditBuffer

end ModuleWorkers
