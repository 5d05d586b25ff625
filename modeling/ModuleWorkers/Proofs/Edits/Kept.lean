import ModuleWorkers.Edits.Span
import ModuleWorkers.Proofs.Edits.Order

/-!
# Characters that edits keep

A character of the base text that no edit replaces lies in a piece that was kept
(`EditBuffer.WF.exists_pieces_eq`). `EditBuffer.newOffset` leads from its offset to the offset that
it has in the edited text (`EditBuffer.newOffset_eq`).
-/

namespace ModuleWorkers

open Text

/-! ## Calls -/

/-- A request to change a buffer. -/
inductive EditCall
  | overwrite (start stop : Nat) (content : String)
  | append (content : String)
  deriving DecidableEq, Repr

namespace EditBuffer

/-- What a buffer answers to a call. -/
def answer (b : EditBuffer) : EditCall → Except EditError EditBuffer
  | .overwrite start stop content => b.overwrite start stop content
  | .append content => b.append content

/-- Makes a change; a buffer that refuses it stays as it is. -/
def call (b : EditBuffer) (c : EditCall) : EditBuffer :=
  match b.answer c with
  | .ok changed => changed
  | .error _ => b

/-- The buffer of a text after calls. -/
def after (base : String) (calls : List EditCall) : EditBuffer := calls.foldl call { base }

/-- A call that is not refused adds an edit. -/
theorem exists_answer_eq_overwrite (b : EditBuffer) (c : EditCall) :
    ∃ start stop content, b.answer c = b.overwrite start stop content := by
  cases c with
  | overwrite start stop content => exact ⟨start, stop, content, rfl⟩
  | append content => exact ⟨_, _, content, rfl⟩

theorem WF.call {b : EditBuffer} (h : b.WF) (c : EditCall) : (b.call c).WF := by
  obtain ⟨start, stop, content, hc⟩ := exists_answer_eq_overwrite b c
  unfold EditBuffer.call
  rw [hc]
  cases hb : b.overwrite start stop content with
  | error error => exact h
  | ok b' => exact h.overwrite hb

theorem base_call (b : EditBuffer) (c : EditCall) : (b.call c).base = b.base := by
  obtain ⟨start, stop, content, hc⟩ := exists_answer_eq_overwrite b c
  unfold call
  rw [hc]
  cases hb : b.overwrite start stop content with
  | error error => rfl
  | ok b' =>
    obtain ⟨-, -, rfl⟩ := overwrite_eq_ok hb
    rfl

theorem wf_foldl_call {b : EditBuffer} (h : b.WF) (calls : List EditCall) :
    (calls.foldl call b).WF ∧ (calls.foldl call b).base = b.base := by
  induction calls generalizing b with
  | nil => exact ⟨h, rfl⟩
  | cons c calls ih =>
    obtain ⟨hwf, hbase⟩ := ih (h.call c)
    exact ⟨hwf, hbase.trans (base_call b c)⟩

theorem wf_after (base : String) (calls : List EditCall) : (after base calls).WF :=
  (wf_foldl_call (.nil base) calls).1

theorem base_after (base : String) (calls : List EditCall) : (after base calls).base = base :=
  (wf_foldl_call (.nil base) calls).2

/-! ## The piece of a character -/

/-- Whether an edit replaces what is at an offset of the base text. -/
def Replaces (b : EditBuffer) (offset : Nat) : Prop :=
  ∃ e ∈ b.edits, e.start ≤ offset ∧ offset < e.stop

instance (b : EditBuffer) (offset : Nat) : Decidable (b.Replaces offset) :=
  inferInstanceAs (Decidable (∃ e ∈ b.edits, e.start ≤ offset ∧ offset < e.stop))

theorem exists_cut_eq_of_forall (passed front : List Char) (c : Char) (back : List Char)
    {edits : List Edit} (hordered : edits.Pairwise fun a d => a.stop ≤ d.start)
    (hfits : ∀ e ∈ edits, e.Fits (passed ++ (front ++ c :: back)))
    (hstart : ∀ e ∈ edits, byteLength passed ≤ e.start)
    (hkept : ∀ e ∈ edits, ¬ (e.start ≤ byteLength (passed ++ front) ∧
      byteLength (passed ++ front) < e.stop)) :
    ∃ before as bs behind,
      cut (byteLength passed) (front ++ c :: back) edits =
        before ++ .kept (as ++ c :: bs) :: behind ∧
      front = before.flatMap Piece.old ++ as := by
  induction edits generalizing passed front with
  | nil => exact ⟨[], front, back, [], rfl, rfl⟩
  | cons e es ih =>
    have he := hfits e List.mem_cons_self
    have hle := he.le
    have hfirst := hstart e List.mem_cons_self
    have hcut : ∀ before rest : List Char, front ++ c :: back = before ++ rest →
        e.start = byteLength (passed ++ before) →
        cut (byteLength passed) (front ++ c :: back) (e :: es) =
          .kept before :: .edited (splitBytes (e.stop - e.start) rest).1 e.content.toList ::
            cut e.stop (splitBytes (e.stop - e.start) rest).2 es := by
      intro before rest htext hbefore
      have hlength : e.start - byteLength passed = byteLength before := by
        rw [hbefore, byteLength_append]
        omega
      rw [cut, htext, hlength, splitBytes_byteLength]
    by_cases hlt : byteLength (passed ++ front) < e.start
    · -- The first edit is behind the character.
      have hend : isBoundary e.start (passed ++ ((front ++ c :: back) ++ [])) := by
        simpa using he.start
      obtain ⟨before, rest, htext, hbefore⟩ := exists_between hend hfirst
        (by simpa using isBoundary_le he.start)
      rw [hbefore, byteLength_append, byteLength_append] at hlt
      obtain ⟨es', rfl, hes'⟩ := exists_append_of_byteLength_le htext (by omega)
      cases es' with
      | nil =>
        rw [List.append_nil] at hlt
        omega
      | cons d bs =>
        rw [List.cons_append, List.cons.injEq] at hes'
        obtain ⟨rfl, rfl⟩ := hes'
        exact ⟨[], front, bs, _, hcut _ rest (by simp) hbefore, rfl⟩
    · have hstop : e.stop ≤ byteLength (passed ++ front) := by
        have := hkept e List.mem_cons_self
        omega
      obtain ⟨before, rest, rfl, hbefore⟩ := exists_between he.start hfirst (by omega)
      have hstopFits : isBoundary e.stop ((passed ++ before) ++ (rest ++ c :: back)) := by
        simpa using he.stop
      obtain ⟨old, rest, rfl, hold⟩ := exists_between hstopFits (by omega) (by simpa using hstop)
      obtain ⟨before', as, bs, behind, hrest, rfl⟩ := ih (passed ++ before ++ old) rest
        (List.pairwise_cons.1 hordered).2
        (fun d hd => by simpa using hfits d (List.mem_cons_of_mem e hd))
        (fun d hd => hold ▸ (List.pairwise_cons.1 hordered).1 d hd)
        (fun d hd => by simpa using hkept d (List.mem_cons_of_mem e hd))
      have hlength : e.stop - e.start = byteLength old := by
        rw [hbefore, hold, byteLength_append _ old]
        omega
      refine ⟨.kept before :: .edited old e.content.toList :: before', as, bs, behind, ?_, ?_⟩
      · rw [hcut before (old ++ (before'.flatMap Piece.old ++ as ++ c :: back)) (by simp) hbefore,
          hlength, splitBytes_byteLength]
        simp only
        rw [hold, hrest]
        rfl
      · simp [Piece.old]

/-- A character that is not replaced lies in a piece that was kept. -/
theorem WF.exists_pieces_eq {b : EditBuffer} (h : b.WF) {front back : List Char} {c : Char}
    (hbase : b.base.toList = front ++ c :: back) (hkept : ¬ b.Replaces (byteLength front)) :
    ∃ before as bs behind, b.pieces = before ++ .kept (as ++ c :: bs) :: behind ∧
      front = before.flatMap Piece.old ++ as := by
  rw [pieces, hbase]
  exact exists_cut_eq_of_forall [] front c back h.ordered (fun e he => hbase ▸ h.fits e he)
    (fun e _ => Nat.zero_le e.start) (fun e he hin => hkept ⟨e, he, hin⟩)

/-! ## Offsets -/

theorem moved_of_lt (delta : Int) {offset old : Nat} (new : Nat) (ps : List Piece)
    (h : offset < old) :
    EditSpan.moved delta offset (EditSpan.ofPieces old new ps) = (offset + delta).toNat := by
  induction ps generalizing old new with
  | nil => rfl
  | cons p ps ih =>
    cases p with
    | kept text => exact ih _ (by omega)
    | edited before after => rw [EditSpan.ofPieces, EditSpan.moved, if_pos h]

theorem moved_ofPieces (old new : Nat) (before : List Piece) (as : List Char) (c : Char)
    (bs : List Char) (behind : List Piece) :
    EditSpan.moved ((new : Int) - old)
        (old + byteLength (before.flatMap Piece.old) + byteLength as)
        (EditSpan.ofPieces old new (before ++ .kept (as ++ c :: bs) :: behind)) =
      new + byteLength (before.flatMap Piece.new) + byteLength as := by
  induction before generalizing old new with
  | nil =>
    have := c.utf8Size_pos
    rw [List.nil_append, EditSpan.ofPieces, moved_of_lt]
    · simp only [List.flatMap_nil, byteLength_nil]
      omega
    · simp only [List.flatMap_nil, byteLength_nil, byteLength_append, byteLength_cons]
      omega
  | cons p before ih =>
    cases p with
    | kept text =>
      have := ih (old + byteLength text) (new + byteLength text)
      simp only [List.cons_append, List.flatMap_cons, Piece.old, Piece.new, byteLength_append,
        EditSpan.ofPieces] at this ⊢
      rw [← Nat.add_assoc, ← Nat.add_assoc, ← this]
      congr 1
      omega
    | edited text after =>
      have := ih (old + byteLength text) (new + byteLength after)
      simp only [List.cons_append, List.flatMap_cons, Piece.old, Piece.new, byteLength_append,
        EditSpan.ofPieces] at this ⊢
      rw [← Nat.add_assoc, ← Nat.add_assoc, ← this, EditSpan.moved]
      rw [if_neg (by simp only; omega), if_neg (by simp only; omega)]

/-- The offset of a character that was kept is that of the same character in the edited text. -/
theorem newOffset_eq {b : EditBuffer} {before behind : List Piece} {as bs : List Char} {c : Char}
    (h : b.pieces = before ++ .kept (as ++ c :: bs) :: behind) :
    b.newOffset (byteLength (before.flatMap Piece.old ++ as)) =
      byteLength (before.flatMap Piece.new ++ as) := by
  have := moved_ofPieces 0 0 before as c bs behind
  rw [newOffset, spans, h, byteLength_append, byteLength_append]
  simpa using this

end EditBuffer

end ModuleWorkers
