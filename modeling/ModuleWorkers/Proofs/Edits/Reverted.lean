import Mathlib.Order.Monotone.Defs
import ModuleWorkers.Proofs.Edits.Kept
import ModuleWorkers.Proofs.Edits.Order

/-!
# Edits can be taken back

A call is refused exactly if its edit is no stretch of the text or clashes with one that was made
before (`EditBuffer.exists_answer_eq_error_iff`), and the edits of a buffer are those of the calls
that were not refused (`EditBuffer.perm_edits_foldl_call`). What `Edit.Replaces` says of an edited
text gives the rest, each by induction on the edits: the text and the spans are those of loops that
check every stretch and every subtraction (`EditBuffer.written?`, `EditBuffer.shifted?`), each span
holds what its edit wrote, offsets stay in their order, and the text is the base text again once the
old stretches are put back (`EditBuffer.reverted?`). `EditBuffer.isRevertible_after` puts this
together for all sequences of calls.
-/

namespace ModuleWorkers

open Text

/-! ## Stretches of a text -/

/-- A stretch of a text, if its offsets are in their order and lie between characters. -/
def slice? (start stop : Nat) (cs : List Char) : Option (List Char) :=
  if start ≤ stop ∧ isBoundary start cs ∧ isBoundary stop cs then
    some (splitBytes (stop - start) (splitBytes start cs).2).1
  else none

/-- A text with a stretch of it replaced, if the offsets of that are in their order and lie between
characters. -/
def replace? (start stop : Nat) (content cs : List Char) : Option (List Char) :=
  if start ≤ stop ∧ isBoundary start cs ∧ isBoundary stop cs then
    some ((splitBytes start cs).1 ++ (content ++ (splitBytes stop cs).2))
  else none

/-- An offset behind a text, moved over more of it. -/
theorem add_byteLength_eq {offset : Nat} {front : List Char} (h : offset = byteLength front)
    (cs : List Char) : offset + byteLength cs = byteLength (front ++ cs) := by
  rw [byteLength_append, h]

section

variable (front old back : List Char) {start stop : Nat} (hstart : start = byteLength front)
  (hstop : stop = start + byteLength old)

include hstart hstop

theorem isBoundary_stretch : start ≤ stop ∧ isBoundary start (front ++ (old ++ back)) ∧
    isBoundary stop (front ++ (old ++ back)) := by
  refine ⟨by omega, hstart ▸ isBoundary_byteLength _ _, ?_⟩
  have := isBoundary_byteLength (front ++ old) back
  rwa [byteLength_append, List.append_assoc, ← hstart, ← hstop] at this

theorem slice?_append : slice? start stop (front ++ (old ++ back)) = some old := by
  rw [slice?, if_pos (isBoundary_stretch front old back hstart hstop), hstart,
    splitBytes_byteLength, show stop - byteLength front = byteLength old by omega,
    splitBytes_byteLength]

theorem replace?_append (content : List Char) :
    replace? start stop content (front ++ (old ++ back)) = some (front ++ (content ++ back)) := by
  have hlength : stop = byteLength (front ++ old) := hstop.trans (add_byteLength_eq hstart old)
  rw [replace?, if_pos (isBoundary_stretch front old back hstart hstop), hstart,
    splitBytes_byteLength, hlength, ← List.append_assoc front old back, splitBytes_byteLength]

end

namespace Edit

/-- Whether an edit is for a stretch of a text. -/
def IsStretch (e : Edit) (cs : List Char) : Prop :=
  ∃ front old back, cs = front ++ (old ++ back) ∧ e.start = byteLength front ∧
    e.stop = e.start + byteLength old

theorem fits_iff_isStretch {e : Edit} {cs : List Char} : e.Fits cs ↔ e.IsStretch cs := by
  constructor
  · intro h
    obtain ⟨front, rest, rfl, hstart⟩ := isBoundary_iff.1 h.start
    have hle := h.le
    have hstop : isBoundary e.stop (front ++ (rest ++ [])) := by simpa using h.stop
    obtain ⟨old, back, rfl, hold⟩ := exists_between hstop (hstart ▸ hle)
      (by simpa using isBoundary_le hstop)
    refine ⟨front, old, back, rfl, hstart, ?_⟩
    rw [hold, hstart, byteLength_append]
  · rintro ⟨front, old, back, rfl, hstart, hstop⟩
    obtain ⟨hle, hfirst, hlast⟩ := isBoundary_stretch front old back hstart hstop
    exact ⟨hle, hfirst, hlast⟩

/-- Whether two edits cannot both be made: they replace a common byte, or one of them inserts inside
of what the other one replaces. -/
def Clashes (a b : Edit) : Prop :=
  (∃ i, (a.start ≤ i ∧ i < a.stop) ∧ (b.start ≤ i ∧ i < b.stop)) ∨
    (a.start = a.stop ∧ b.start < a.start ∧ a.start < b.stop) ∨
    (b.start = b.stop ∧ a.start < b.start ∧ b.start < a.stop)

theorem conflicts_iff_clashes {a b : Edit} (ha : a.start ≤ a.stop) (hb : b.start ≤ b.stop) :
    a.conflicts b ↔ a.Clashes b := by
  have hshared : (∃ i, (a.start ≤ i ∧ i < a.stop) ∧ (b.start ≤ i ∧ i < b.stop)) ↔
      a.start < a.stop ∧ b.start < b.stop ∧ a.start < b.stop ∧ b.start < a.stop := by
    constructor
    · rintro ⟨i, hi⟩
      omega
    · intro h
      exact ⟨max a.start b.start, by omega⟩
  rw [Clashes, hshared]
  simp only [conflicts, isInsertion, beq_iff_eq]
  split_ifs <;> simp only [Bool.and_eq_true, decide_eq_true_eq] <;> omega

end Edit

/-! ## Calls -/

/-- The edit that a call asks for. -/
def EditCall.edit (base : String) : EditCall → Edit
  | .overwrite start stop content => ⟨start, stop, content⟩
  | .append content => ⟨byteLength base.toList, byteLength base.toList, content⟩

namespace EditBuffer

/-- The edits of the calls that are not refused. -/
def accepted (b : EditBuffer) : List EditCall → List Edit
  | [] => []
  | c :: cs =>
    match b.answer c with
    | .ok changed => c.edit b.base :: accepted changed cs
    | .error _ => accepted b cs

theorem answer_eq_overwrite (b : EditBuffer) (c : EditCall) :
    b.answer c =
      b.overwrite (c.edit b.base).start (c.edit b.base).stop (c.edit b.base).content := by
  cases c <;> rfl

/-- A call is refused exactly if its edit is no stretch of the text or clashes with another one. -/
theorem WF.exists_answer_eq_error_iff {b : EditBuffer} (h : b.WF) (c : EditCall) :
    (∃ error, b.answer c = .error error) ↔ ¬ (c.edit b.base).IsStretch b.base.toList ∨
      ∃ d ∈ b.edits, (c.edit b.base).Clashes d := by
  rw [answer_eq_overwrite, ← Edit.fits_iff_isStretch]
  cases hb : b.overwrite (c.edit b.base).start (c.edit b.base).stop (c.edit b.base).content with
  | error error =>
    refine iff_of_true ⟨error, rfl⟩ (Classical.or_iff_not_imp_left.2 fun hfits => ?_)
    have hfits := Classical.not_not.1 hfits
    obtain ⟨d, hd, hconflicts⟩ := exists_conflicts hb hfits
    exact ⟨d, hd, (Edit.conflicts_iff_clashes hfits.le (h.fits d hd).le).1 hconflicts⟩
  | ok b' =>
    obtain ⟨hfits, hconflicts, -⟩ := overwrite_eq_ok hb
    refine iff_of_false (by simp) ?_
    rintro (hnot | ⟨d, hd, hclashes⟩)
    · exact hnot hfits
    · exact hconflicts d hd
        ((Edit.conflicts_iff_clashes hfits.le (h.fits d hd).le).2 hclashes)

theorem perm_insert (e : Edit) (edits : List Edit) : (insert e edits).Perm (e :: edits) := by
  have hsplit := List.takeWhile_append_dropWhile (p := (·.le e)) (l := edits)
  rw [insert]
  nth_rewrite 3 [← hsplit]
  exact List.perm_middle

/-- The edits of a buffer are those that it had and those of the calls that were not refused. -/
theorem perm_edits_foldl_call (b : EditBuffer) (calls : List EditCall) :
    (calls.foldl call b).edits.Perm (b.edits ++ accepted b calls) := by
  induction calls generalizing b with
  | nil => simp [accepted]
  | cons c calls ih =>
    have hrest := ih (b.call c)
    rw [List.foldl_cons, accepted]
    cases hb : b.answer c with
    | error error =>
      have hcall : b.call c = b := by rw [call, hb]
      rwa [hcall] at hrest ⊢
    | ok b' =>
      have hcall : b.call c = b' := by rw [call, hb]
      rw [answer_eq_overwrite] at hb
      obtain ⟨-, -, rfl⟩ := overwrite_eq_ok hb
      rw [hcall] at hrest ⊢
      refine hrest.trans ?_
      exact ((perm_insert _ _).append_right _).trans List.perm_middle.symm

/-! ## Loops that check what they do -/

/-- The text that edits make of a base text from an offset on, if all that stays between them can be
taken. -/
def written? (base : List Char) (offset : Nat) : List Edit → Option (List Char)
  | [] => slice? offset (byteLength base) base
  | e :: es => do
    return (← slice? offset e.start base) ++ (e.content.toList ++ (← written? base e.stop es))

/-- The spans of edits, given how far the text in front was moved, if none is moved too far. -/
def shifted? (delta : Int) : List Edit → Option (List EditSpan)
  | [] => some []
  | e :: es => do
    let start := e.start + delta
    let length := byteLength e.content.toList
    if start < 0 ∨ e.stop < e.start then none
    else
      return ⟨e.start, e.stop, start.toNat, start.toNat + length⟩ ::
        (← shifted? (delta + length - (e.stop - e.start : Nat)) es)

/-- The edited text with the old stretches put back in the place of the new ones, the last one
first, if all of them can be. -/
def reverted? (b : EditBuffer) : Option (List Char) :=
  b.spans.foldrM (fun s cs => do
    replace? s.newStart s.newStop (← slice? s.oldStart s.oldStop b.base.toList) cs) b.text.toList

end EditBuffer

/-! ## What edits make of a text -/

namespace Edit.Replaces

variable {offset : Nat} {es : List Edit} {text new : List Char}

/-- The edited text is cut at the edits. -/
theorem cut_cons {e : Edit} {before old : List Char} (rest : List Char)
    (hstart : e.start = offset + byteLength before) (hstop : e.stop = e.start + byteLength old) :
    EditBuffer.cut offset (before ++ (old ++ rest)) (e :: es) =
      .kept before :: .edited old e.content.toList :: EditBuffer.cut e.stop rest es := by
  rw [EditBuffer.cut, show e.start - offset = byteLength before by omega, splitBytes_byteLength]
  simp only
  rw [show e.stop - e.start = byteLength old by omega, splitBytes_byteLength]

/-- The spans of the edits, given where the edited text starts. -/
def spans (offset moved : Nat) (es : List Edit) (text : List Char) : List EditSpan :=
  EditSpan.ofPieces offset moved (EditBuffer.cut offset text es)

theorem spans_cons {e : Edit} {before old : List Char} (rest : List Char) (moved : Nat)
    (hstart : e.start = offset + byteLength before) (hstop : e.stop = e.start + byteLength old) :
    spans offset moved (e :: es) (before ++ (old ++ rest)) =
      ⟨e.start, e.stop, moved + byteLength before,
        moved + byteLength before + byteLength e.content.toList⟩ ::
      spans e.stop (moved + byteLength before + byteLength e.content.toList) es rest := by
  rw [spans, cut_cons rest hstart hstop, EditSpan.ofPieces, EditSpan.ofPieces, ← hstart, ← hstop]
  rfl

theorem written?_eq (h : Replaces offset es text new) (passed : List Char)
    (hpassed : offset = byteLength passed) :
    EditBuffer.written? (passed ++ text) offset es = some new := by
  induction h generalizing passed with
  | kept offset text =>
    have := slice?_append passed text [] hpassed rfl
    rwa [List.append_nil, hpassed, ← byteLength_append, ← hpassed] at this
  | @edited offset e es before old rest new hstart hstop _ ih =>
    have hbefore := slice?_append passed before (old ++ rest) hpassed hstart
    have hpassed' := hstart.trans (add_byteLength_eq hpassed before)
    have hrest := ih (passed ++ before ++ old) (hstop.trans (add_byteLength_eq hpassed' old))
    simp only [List.append_assoc] at hrest hbefore ⊢
    rw [EditBuffer.written?, hbefore, hrest]
    rfl

theorem shifted?_eq (h : Replaces offset es text new) (moved : Nat) :
    EditBuffer.shifted? ((moved : Int) - offset) es = some (spans offset moved es text) := by
  induction h generalizing moved with
  | kept => rfl
  | @edited offset e es before old rest new hstart hstop _ ih =>
    have hmoved : (e.start : Int) + (moved - offset) = (moved + byteLength before : Nat) := by omega
    have hrest := ih (moved + byteLength before + byteLength e.content.toList)
    have hdelta : ((moved + byteLength before + byteLength e.content.toList : Nat) : Int) - e.stop =
        (moved - offset) + byteLength e.content.toList - (e.stop - e.start : Nat) := by omega
    rw [hdelta] at hrest
    rw [spans_cons rest moved hstart hstop, EditBuffer.shifted?]
    simp only [hmoved, hrest, Int.toNat_natCast]
    rw [if_neg (by omega)]
    rfl

/-- Each span holds what its edit wrote. -/
theorem forall₂_spans (h : Replaces offset es text new) (passed : List Char) {moved : Nat}
    (hmoved : moved = byteLength passed) :
    List.Forall₂ (fun e s => s.oldStart = e.start ∧ s.oldStop = e.stop ∧
      slice? s.newStart s.newStop (passed ++ new) = some e.content.toList) es
      (spans offset moved es text) := by
  induction h generalizing passed moved with
  | kept => exact .nil
  | @edited offset e es before old rest new hstart hstop _ ih =>
    have hstart' := add_byteLength_eq hmoved before
    have hstop' := add_byteLength_eq hstart' e.content.toList
    have hrest := ih (passed ++ before ++ e.content.toList) hstop'
    have hcontent := slice?_append (passed ++ before) e.content.toList new hstart' rfl
    rw [spans_cons rest moved hstart hstop]
    simp only [List.append_assoc] at hrest hcontent ⊢
    exact .cons ⟨rfl, rfl, hcontent⟩ hrest

/-- Putting the old stretches back gives the base text. -/
theorem foldrM_spans (h : Replaces offset es text new) (passed written : List Char) {moved : Nat}
    (hpassed : offset = byteLength passed) (hmoved : moved = byteLength written) :
    (spans offset moved es text).foldrM (fun s cs => do
        replace? s.newStart s.newStop (← slice? s.oldStart s.oldStop (passed ++ text)) cs)
      (written ++ new) = some (written ++ text) := by
  induction h generalizing passed written moved with
  | kept => rfl
  | @edited offset e es before old rest new hstart hstop _ ih =>
    have hstart' := add_byteLength_eq hmoved before
    have hstop' := add_byteLength_eq hstart' e.content.toList
    have hpassed' := hstart.trans (add_byteLength_eq hpassed before)
    have hrest := ih (passed ++ before ++ old) (written ++ before ++ e.content.toList)
      (hstop.trans (add_byteLength_eq hpassed' old)) hstop'
    have hold := slice?_append (passed ++ before) old rest hpassed' hstop
    have hput := replace?_append (written ++ before) e.content.toList rest hstart' rfl old
    rw [spans_cons rest moved hstart hstop, List.foldrM_cons]
    simp only [List.append_assoc] at hrest hold hput ⊢
    rw [hrest]
    simp only [Option.bind_eq_bind, Option.bind_some, hold, hput]

/-- Offsets behind the start stay behind it, and in their order. -/
theorem moved_le_moved (h : Replaces offset es text new) (moved : Nat) {i j : Nat}
    (hi : offset ≤ i) (hij : i ≤ j) :
    moved ≤ EditSpan.moved ((moved : Int) - offset) i (spans offset moved es text) ∧
      EditSpan.moved ((moved : Int) - offset) i (spans offset moved es text) ≤
        EditSpan.moved ((moved : Int) - offset) j (spans offset moved es text) := by
  induction h generalizing moved i j with
  | kept =>
    simp only [spans, EditBuffer.cut, EditSpan.ofPieces, EditSpan.moved]
    omega
  | @edited offset e es before old rest new hstart hstop _ ih =>
    rw [spans_cons rest moved hstart hstop]
    have hrest := @ih (moved + byteLength before + byteLength e.content.toList)
    simp only [EditSpan.moved]
    by_cases hjstop : j < e.stop
    · split_ifs <;> omega
    · have hj := hrest (i := j) (j := j) (by omega) (Nat.le_refl j)
      by_cases histop : i < e.stop
      · split_ifs <;> omega
      · have hi := hrest (i := i) (j := j) (by omega) hij
        split_ifs <;> omega

/-- The end goes to the end. -/
theorem moved_end (h : Replaces offset es text new) (moved : Nat) :
    EditSpan.moved ((moved : Int) - offset) (offset + byteLength text)
      (spans offset moved es text) = moved + byteLength new := by
  induction h generalizing moved with
  | kept =>
    simp only [spans, EditBuffer.cut, EditSpan.ofPieces, EditSpan.moved]
    omega
  | @edited offset e es before old rest new hstart hstop _ ih =>
    have hrest := ih (moved + byteLength before + byteLength e.content.toList)
    have hend : offset + byteLength (before ++ (old ++ rest)) = e.stop + byteLength rest := by
      simp only [byteLength_append]
      omega
    rw [spans_cons rest moved hstart hstop, hend, EditSpan.moved, if_neg (by simp only; omega),
      if_neg (by simp only; omega), hrest]
    simp only [byteLength_append]
    omega

end Edit.Replaces

namespace EditBuffer

/-- Whether the edits of a buffer can be taken back: they are stretches of the text, one behind the
other in the order of their keys; the text and the spans are what loops give that check every
stretch and every subtraction; each span holds what its edit wrote; putting the old stretches back
gives the base text; and offsets stay in their order, up to the end. -/
structure IsRevertible (b : EditBuffer) : Prop where
  isStretch : ∀ e ∈ b.edits, e.IsStretch b.base.toList
  ordered : b.edits.Pairwise fun a c => a.stop ≤ c.start ∧ a.le c
  written?_eq : written? b.base.toList 0 b.edits = some b.text.toList
  shifted?_eq : shifted? 0 b.edits = some b.spans
  holds : List.Forall₂ (fun e s => s.oldStart = e.start ∧ s.oldStop = e.stop ∧
    slice? s.newStart s.newStop b.text.toList = some e.content.toList) b.edits b.spans
  reverted?_eq : b.reverted? = some b.base.toList
  monotone : Monotone b.newOffset
  newOffset_end : b.newOffset (byteLength b.base.toList) = byteLength b.text.toList

theorem WF.isRevertible {b : EditBuffer} (h : b.WF) : b.IsRevertible := by
  have hreplaces := h.replaces
  have hspans : b.spans = Edit.Replaces.spans 0 0 b.edits b.base.toList := rfl
  refine ⟨fun e he => Edit.fits_iff_isStretch.1 (h.fits e he), ?_,
    hreplaces.written?_eq [] rfl, hreplaces.shifted?_eq 0, hreplaces.forall₂_spans [] rfl,
    hreplaces.foldrM_spans [] [] rfl rfl, fun i j hij => ?_, ?_⟩
  · exact h.ordered.imp_of_mem fun ha _ hle => ⟨hle, Edit.le_of_stop_le (h.fits _ ha).le hle⟩
  · exact (hreplaces.moved_le_moved 0 (Nat.zero_le i) hij).2
  · have hend := hreplaces.moved_end 0
    rw [Nat.zero_add, Nat.zero_add] at hend
    exact hend

/-- After all calls, a call is refused exactly if its edit is no stretch of the text or clashes with
one of a call that was not refused, and the buffer stays as it is. The edits are those of the calls
that were not refused, and can be taken back. -/
theorem isRevertible_after (base : String) (calls : List EditCall) :
    let b := after base calls
    b.IsRevertible ∧ b.base = base ∧ b.edits.Perm (accepted { base } calls) ∧
      ∀ c, ((∃ error, b.answer c = .error error) ↔ ¬ (c.edit base).IsStretch base.toList ∨
          ∃ d ∈ accepted { base } calls, (c.edit base).Clashes d) ∧
        ((∃ error, b.answer c = .error error) → after base (calls ++ [c]) = b) := by
  intro b
  have hwf : b.WF := wf_after base calls
  have hbase : b.base = base := base_after base calls
  have hperm : b.edits.Perm (accepted { base } calls) := perm_edits_foldl_call { base } calls
  refine ⟨hwf.isRevertible, hbase, hperm, fun c => ⟨?_, ?_⟩⟩
  · rw [hwf.exists_answer_eq_error_iff c, hbase]
    simp only [hperm.mem_iff]
  · rintro ⟨error, herror⟩
    rw [after, List.foldl_concat]
    change b.call c = b
    rw [call, herror]

end EditBuffer

end ModuleWorkers
