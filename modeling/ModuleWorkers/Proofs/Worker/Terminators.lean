import ModuleWorkers.Proofs.Worker.InStep

/-!
# Line terminators

The reader of scripts knows line feeds, and one character behind a backslash. So a comment up to the
end of its line ends at a line feed, with or without a carriage return in front, but not at another
line terminator (`Masking.State.endsComment_iff`); and a string may go over the end of a line in any
way but over a carriage return and a line feed, where it is taken to have no end
(`Masking.stringBody_pieces`). Hence scripts with other line ends are masked alike as far as
`Masking.takesLineEnds` says, and others are not (`Masking.not_takesLineEnds_carriageReturn`).
-/

namespace ModuleWorkers

open Text Masked

namespace Masking

open LineEnd

/-! ## Comments -/

/-- Whether a comment up to the end of its line is over there: only the comment is hidden, and what
is behind it is read as code. A carriage return may be hidden with it, since it stays as it is. -/
def State.EndsComment (s : State) (line behind : List Char) : Prop :=
  s.next '/' ('/' :: (line ++ behind)) = .ok (s.hide ('/' :: '/' :: line), behind) ∨
    ∃ rest, behind = '\r' :: rest ∧
      s.next '/' ('/' :: (line ++ behind)) = .ok (s.hide ('/' :: '/' :: (line ++ ['\r'])), rest)

/-- Comments are over at line feeds, at a carriage return in front of one, and at the end. -/
theorem State.endsComment_iff (s : State) {line : List Char}
    (hline : ∀ c ∈ line, ¬ isLineTerminator c) (behind : List Char) :
    s.EndsComment line behind ↔ (∀ c ∈ behind.head?, c = '\n') ∨
      ∃ rest, behind = '\r' :: rest ∧ ∀ c ∈ rest.head?, c = '\n' := by
  have hfeed : '\n' ∉ line := fun hmem => hline _ hmem rfl
  constructor
  · intro h
    obtain ⟨front, rest, rfl, hfront, hrest⟩ := exists_line behind
    have hnone : '\n' ∉ line ++ front := by simp [hfeed, hfront]
    have hnext := s.next_lineComment hnone hrest
    rw [List.append_assoc] at hnext
    unfold EndsComment at h
    rw [hnext] at h
    rcases h with h | ⟨rest', hbehind, h⟩
    · have heq : rest = front ++ rest := congrArg Prod.snd (Except.ok.inj h)
      rw [← heq]
      exact .inl hrest
    · obtain rfl : rest = rest' := congrArg Prod.snd (Except.ok.inj h)
      exact .inr ⟨rest, hbehind, hrest⟩
  · rintro (hbehind | ⟨rest, rfl, hrest⟩)
    · exact .inl (s.next_lineComment hfeed hbehind)
    · have hnone : '\n' ∉ line ++ ['\r'] := by simp [hfeed]
      exact .inr ⟨rest, rfl, by simpa using s.next_lineComment hnone hrest⟩

/-! ## Strings -/

/-- A piece of the body of a string. -/
inductive StringPiece
  | plain (c : Char)
  | escaped (c : Char)
  /-- A backslash at the end of a line. -/
  | continued (e : LineEnd)
  deriving DecidableEq, Inhabited, Repr

namespace StringPiece

def text : StringPiece → List Char
  | plain c => [c]
  | escaped c => ['\\', c]
  | continued e => '\\' :: e.chars

/-- Whether a piece may stand between these quotes. -/
def Fits (quote : Char) : StringPiece → Prop
  | plain c => c ∉ [quote, '\\', '\n', '\r']
  | escaped c => ¬ isLineTerminator c
  | continued _ => True

end StringPiece

open StringPiece in
/-- A string has an end unless it goes over a carriage return and a line feed. -/
theorem stringBody_pieces {quote : Char} (hquote : quote = '\'' ∨ quote = '"')
    {pieces : List StringPiece} (h : ∀ p ∈ pieces, p.Fits quote) (read rest : List Char) :
    stringBody quote read (pieces.flatMap text ++ quote :: rest) =
      if continued crlf ∈ pieces then none
      else some (read.reverse ++ pieces.flatMap text, rest) := by
  induction pieces generalizing read with
  | nil =>
    have hne : quote ≠ '\\' ∧ quote ≠ '\n' := by rcases hquote with rfl | rfl <;> decide
    rw [List.flatMap_nil, List.nil_append, stringBody_cons hne.1, if_neg hne.2, if_pos rfl,
      if_neg List.not_mem_nil, List.append_nil]
  | cons p pieces ih =>
    obtain ⟨hp, hpieces⟩ := List.forall_mem_cons.1 h
    have hescape : ∀ c, p.text = ['\\', c] → p ≠ continued crlf →
        stringBody quote read ((p :: pieces).flatMap text ++ quote :: rest) =
          if continued crlf ∈ p :: pieces then none
          else some (read.reverse ++ (p :: pieces).flatMap text, rest) := by
      intro c htext hne
      rw [List.flatMap_cons, htext, List.append_assoc, List.cons_append, List.singleton_append,
        stringBody_escape, ih hpieces]
      simp [Ne.symm hne]
    cases p with
    | plain c =>
      have hc : c ≠ quote ∧ c ≠ '\\' ∧ c ≠ '\n' ∧ c ≠ '\r' := by simpa [Fits] using hp
      rw [List.flatMap_cons, List.append_assoc, text, List.singleton_append,
        stringBody_cons hc.2.1, if_neg hc.2.2.1, if_neg hc.1, ih hpieces]
      simp
    | escaped c => exact hescape c rfl nofun
    | continued e =>
      cases e with
      | lf | cr | ls | ps => exact hescape _ rfl nofun
      | crlf =>
        have hread : stringBody quote read ('\\' :: '\r' :: '\n' ::
            (pieces.flatMap text ++ quote :: rest)) = none := by
          rw [stringBody_escape, stringBody_cons (by decide), if_pos rfl]
        rw [if_pos List.mem_cons_self]
        exact hread

/-! ## Scripts -/

open StringPiece in
/-- Wherever the reader of a script comes to a comment up to the end of its line, the comment is
over at the first line terminator if that is a line feed, or a carriage return in front of one or of
the end of the script. Wherever it comes to a string, it goes on behind it as code, unless the string
goes over a carriage return and a line feed: then it is taken to have no end. Saved with carriage
returns and line feeds, a script is masked alike exactly if none of its strings and regular
expressions goes over the end of a line; saved with carriage returns, if no line stands behind a
comment in it. -/
theorem takesLineEnds (text : List Char) :
    (∀ ms s line behind,
      Passes (start text).1 (start text).2 ms s ('/' :: '/' :: (line ++ behind)) →
      (∀ c ∈ line, ¬ isLineTerminator c) → (∀ c ∈ behind.head?, isLineTerminator c) →
        (s.EndsComment line behind ↔ (∀ c ∈ behind.head?, c = '\n') ∨
          ∃ rest, behind = '\r' :: rest ∧ ∀ c ∈ rest.head?, c = '\n')) ∧
    (∀ ms s quote (pieces : List StringPiece) rest,
      Passes (start text).1 (start text).2 ms s
        (quote :: (pieces.flatMap StringPiece.text ++ quote :: rest)) →
      (quote = '\'' ∨ quote = '"') → (∀ p ∈ pieces, p.Fits quote) →
        if continued crlf ∈ pieces then maskCharacters text = .error (.unterminatedString s.offset)
        else ∃ s', s'.nesting = s.nesting ∧ s'.atExpression = false ∧
          Passes (start text).1 (start text).2
            (ms ++ ⟨quote, false⟩ ::
              (veiled (pieces.flatMap StringPiece.text) ++ [⟨quote, false⟩])) s' rest) ∧
    (crlf.AlikeWith text ↔ ((masked? text).isSome → crlf.Suits text)) ∧
    (cr.Suits text → cr.AlikeWith text) := by
  refine ⟨fun ms s line behind _ hline _ => s.endsComment_iff hline behind, ?_,
    alikeWith_crlf_iff text, alikeWith_of_suits (.inl rfl)⟩
  intro ms s quote pieces rest hreach hquote hpieces
  have hnext : ∀ cs : List Char, s.next quote cs = s.string quote cs := by
    rcases hquote with rfl | rfl <;> exact fun _ => rfl
  have hbody := stringBody_pieces hquote hpieces [] rest
  split
  · rename_i hover
    rw [if_pos hover] at hbody
    have hrun : (start text).1.run (start text).2 = .error (.unterminatedString s.offset) := by
      rw [hreach.run_trans, State.run_of_error]
      rw [hnext, State.string, hbody]
    unfold maskCharacters
    generalize start text = r at hrun
    simp only [bind, Except.bind, hrun]
  · rename_i hover
    rw [if_neg hover] at hbody
    have hstring : s.next quote (pieces.flatMap StringPiece.text ++ quote :: rest) = .ok
        ((((s.keep [quote]).hide (pieces.flatMap StringPiece.text)).keep [quote]).before false,
          rest) := by
      rw [hnext, State.string, hbody]
      rfl
    refine ⟨_, ?_, ?_, hreach.trans (.single hstring (by simp [shown]))⟩ <;> rfl

/-- A string that goes over a line feed, and a comment at the end of the script. -/
theorem takesLineEnds_continuedString :
    ∃ text, text = "'\\\nb'//c".toList ∧
      (∃ ms s, Passes (start text).1 (start text).2 ms s "//c".toList ∧
        s.EndsComment ['c'] []) ∧
      cr.Suits text ∧ cr.AlikeWith text ∧ ¬ crlf.Suits text := by
  have htakes := takesLineEnds "'\\\nb'//c".toList
  obtain ⟨hcomments, hstrings, hcrlf, hcr⟩ := htakes
  have hstring := hstrings [] {} '\'' [.continued lf, .plain 'b'] "//c".toList (.refl _ _)
    (.inl rfl) (by simp [StringPiece.Fits])
  rw [if_neg (by decide)] at hstring
  obtain ⟨s, -, -, hpasses⟩ := hstring
  have hsuits : cr.Suits "'\\\nb'//c".toList := by
    refine ⟨fun _ hprefix => absurd hprefix (by decide), ?_⟩
    refine .cons (fun hc => absurd hc (by decide)) rfl ?_
    exact .cons (fun _ _ => by decide) rfl (.nil _)
  refine ⟨_, rfl, ⟨_, s, hpasses, ?_⟩, hsuits, hcr hsuits, fun hcrlf' => ?_⟩
  · exact (hcomments _ s ['c'] [] hpasses (by simp [isLineTerminator]) nofun).2 (.inl nofun)
  · exact absurd (hcrlf.2 fun _ => hcrlf') (by decide +kernel)

/-- A comment is not over at a carriage return, and a string that goes over a carriage return and a
line feed is taken to have no end. -/
theorem not_takesLineEnds_carriageReturn :
    ¬ State.EndsComment {} ['a'] ['\r', 'b'] ∧ mask "//a\rb" = .ok "   \r " ∧
      mask "'\\\r\n'" = .error (.unterminatedString 0) ∧
      ¬ cr.AlikeWith "//a\nb".toList ∧ ¬ crlf.AlikeWith "'\\\n'".toList := by
  refine ⟨?_, by decide +kernel, by decide +kernel, by decide +kernel, by decide +kernel⟩
  rw [State.endsComment_iff _ (by simp [isLineTerminator])]
  simp

end Masking

end ModuleWorkers
