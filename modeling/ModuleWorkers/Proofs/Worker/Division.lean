import ModuleWorkers.Proofs.Worker.LineEnds
import ModuleWorkers.Proofs.Worker.Nested

/-!
# Slashes behind members

A name behind a point is that of a member, whatever the name is, so a slash behind it divides. The
reader of scripts goes by the last word in front of the slash, where only ASCII blanks and comments
may stand in between (`Masking.lastWord`). It takes the slash for the start of a regular expression
if that is one of the words before expressions, and also if there is none: behind a vertical tab,
and behind a name that ends in an escaped code point (`Masking.divides_behind_member_iff`).
-/

namespace ModuleWorkers

open Text Masked

namespace Masking

/-! ## Members -/

/-- A piece of a member: of its name, or of what stands around the name. -/
inductive MemberPiece
  | blank (c : Char)
  | lineComment (line : List Char) (e : LineEnd)
  | blockComment (body : List Char)
  | part (c : Char)
  /-- A part of a name, escaped with four digits. -/
  | escape (digits : List Char)
  /-- A part of a name, escaped with digits in braces. -/
  | codePoint (digits : List Char)
  deriving DecidableEq, Inhabited, Repr

namespace MemberPiece

def text : MemberPiece → List Char
  | blank c => [c]
  | lineComment line e => '/' :: '/' :: (line ++ e.chars)
  | blockComment body => '/' :: '*' :: (body ++ ['*', '/'])
  | part c => [c]
  | escape digits => '\\' :: 'u' :: digits
  | codePoint digits => '\\' :: 'u' :: '{' :: (digits ++ ['}'])

/-- Whether a piece is a blank or a comment. -/
def IsAround : MemberPiece → Prop
  | blank c => isScriptBlank c
  | lineComment line _ => ∀ c ∈ line, ¬ isLineTerminator c
  | blockComment body => ¬ ['*', '/'] <:+: body
  | _ => False

/-- Whether a piece is one of a name. -/
def IsNamed : MemberPiece → Prop
  | part c => isIdentPart c
  | escape digits => digits.length = 4 ∧ ∀ c ∈ digits, (Json.hexValue? c).isSome
  | codePoint digits => digits ≠ [] ∧ ∀ c ∈ digits, (Json.hexValue? c).isSome
  | _ => False

/-- Whether a comment up to the end of its line ends where the reader has it end. -/
def EndsAtLineFeed : MemberPiece → Prop
  | lineComment _ e => e = .lf ∨ e = .crlf
  | _ => True

/-- What a search sees of a piece. -/
def seen : MemberPiece → List Char
  | lineComment _ _ => ['\n']
  | blockComment _ => [' ']
  | blank c => (blank c).text
  | part c => (part c).text
  | escape digits => (escape digits).text
  | codePoint digits => (codePoint digits).text

end MemberPiece

/-! ## The last word -/

/-- The word that ends a text, blanks behind it aside. -/
def lastWord (cs : List Char) : List Char :=
  ((cs.reverse.dropWhile isAsciiBlank).takeWhile isWordPart).reverse

/-- Whether a word stands for a value, so that a slash behind it divides. -/
def IsValueWord (word : List Char) : Prop := word ≠ [] ∧ String.ofList word ∉ wordsBeforeExpression

instance (word : List Char) : Decidable (IsValueWord word) := inferInstanceAs (Decidable (_ ∧ _))

theorem not_isWordPart_of_isAsciiBlank {c : Char} (h : isAsciiBlank c) : ¬ isWordPart c := by
  simp only [isAsciiBlank, Bool.or_eq_true, beq_iff_eq] at h
  rcases h with (((rfl | rfl) | rfl) | rfl) | rfl <;> decide

/-- All characters but those of ASCII are taken for parts of words. -/
theorem isWordPart_of_le {c : Char} (h : 0x80 ≤ c.toNat) : isWordPart c := by
  rw [isWordPart, Bool.or_eq_true]
  exact .inr (decide_eq_true h)

theorem isWordPart_of_isIdentPart {c : Char} (h : isIdentPart c) : isWordPart c := by
  unfold isIdentPart at h
  split at h
  · rw [isWordPart, Bool.or_eq_true]
    exact .inl h
  · rename_i hc
    exact isWordPart_of_le (Nat.le_of_not_lt hc)

theorem isWordPart_of_hexValue? {c : Char} (h : (Json.hexValue? c).isSome) : isWordPart c := by
  rcases Nat.lt_or_ge c.toNat 0x80 with hc | hc
  · have hall : ∀ n < 0x80, (Json.hexValue? (.ofNat n)).isSome → isWordPart (.ofNat n) := by decide
    have := hall c.toNat hc
    rw [Char.ofNat_toNat] at this
    exact this h
  · exact isWordPart_of_le hc

/-- A blank of scripts is one of ASCII, or a vertical tab, or it is taken for part of a word. -/
theorem cases_of_isScriptBlank {c : Char} (h : isScriptBlank c) :
    isAsciiBlank c ∨ c = '\x0b' ∨ isWordPart c := by
  rcases Nat.lt_or_ge c.toNat 0x80 with hc | hc
  · have hall : ∀ n < 0x80, isScriptBlank (.ofNat n) →
        isAsciiBlank (.ofNat n) ∨ Char.ofNat n = '\x0b' := by decide
    have := hall c.toNat hc
    rw [Char.ofNat_toNat] at this
    exact (this h).imp_right .inl
  · exact .inr (.inr (isWordPart_of_le hc))

/-- Blanks behind a text make no difference to its last word. -/
theorem lastWord_append_blanks {cs bs : List Char} (hbs : ∀ c ∈ bs, isAsciiBlank c) :
    lastWord (cs ++ bs) = lastWord cs := by
  have hreverse : ∀ c ∈ bs.reverse, isAsciiBlank c := fun c hc => hbs c (List.mem_reverse.1 hc)
  rw [lastWord, List.reverse_append, List.dropWhile_append_of_pos hreverse, lastWord]

/-- Whether no word goes from a text over into what follows it. -/
def Apart (as cs : List Char) : Prop :=
  ∀ c ∈ as.getLast?, isWordPart c → ∀ d ∈ cs.head?, ¬ isWordPart d

theorem apart_of_head (as : List Char) {cs : List Char} (h : ∀ d ∈ cs.head?, ¬ isWordPart d) :
    Apart as cs :=
  fun _ _ _ => h

theorem apart_of_getLast {as : List Char} (h : ∀ c ∈ as.getLast?, ¬ isWordPart c)
    (cs : List Char) : Apart as cs :=
  fun c hc hword => absurd hword (h c hc)

/-- Nothing in front of a text counts unless the text is blank, or a word goes over its start. -/
theorem lastWord_append {as cs : List Char} (hcs : ¬ ∀ c ∈ cs, isAsciiBlank c)
    (hapart : Apart as cs) : lastWord (as ++ cs) = lastWord cs := by
  have hblank : ¬ ∀ c ∈ cs.reverse, isAsciiBlank c := by simpa using hcs
  obtain ⟨x, l, hl⟩ := List.exists_cons_of_ne_nil (mt List.dropWhile_eq_nil_iff.1 hblank)
  have hsplit : (x :: l).reverse ++ (cs.reverse.takeWhile isAsciiBlank).reverse = cs := by
    rw [← hl, ← List.reverse_append, List.takeWhile_append_dropWhile, List.reverse_reverse]
  rw [lastWord, List.reverse_append, List.dropWhile_append, hl, List.isEmpty_cons,
    if_neg Bool.false_ne_true, lastWord, hl]
  congr 1
  by_cases hword : ∀ d ∈ x :: l, isWordPart d
  · -- The whole text is a word, so what is in front of it is none.
    have hfront : ∀ c ∈ as.reverse.head?, ¬ isWordPart c := by
      intro c hc hpart
      rw [List.head?_reverse] at hc
      obtain ⟨d, hd⟩ := Option.isSome_iff_exists.1
        (List.isSome_head?.2 (List.reverse_ne_nil_iff.2 (List.cons_ne_nil x l)))
      have hhead : cs.head? = some d := by rw [← hsplit, List.head?_append, hd, Option.some_or]
      exact hapart c hc hpart d hhead (hword d (List.mem_reverse.1 (List.mem_of_mem_head? hd)))
    rw [(takeWhile_append_of_head hword hfront).1, List.takeWhile_eq_self_iff.2 hword]
  · push Not at hword
    obtain ⟨d, hd, hnot⟩ := hword
    obtain ⟨front, back, hfront⟩ := List.append_of_mem hd
    have hnot' : ¬ isWordPart d = true := by simpa using hnot
    rw [hfront, List.append_assoc, List.cons_append, takeWhile_append_cons hnot',
      takeWhile_append_cons hnot']

/-- Whether the reader expects an expression behind a text, given whether it did in front of it. -/
def expects (before : Bool) (seen : List Char) : Bool :=
  if seen.all isAsciiBlank then before else !decide (IsValueWord (lastWord seen))

theorem expects_of_blank {seen : List Char} (h : ∀ c ∈ seen, isAsciiBlank c) (before : Bool) :
    expects before seen = before :=
  if_pos (List.all_eq_true.2 h)

theorem expects_of_not_blank {seen : List Char} (h : ¬ ∀ c ∈ seen, isAsciiBlank c) (before : Bool) :
    expects before seen = !decide (IsValueWord (lastWord seen)) :=
  if_neg (mt List.all_eq_true.1 h)

theorem expects_append (before : Bool) {as cs : List Char} (hapart : Apart as cs) :
    expects before (as ++ cs) = expects (expects before as) cs := by
  by_cases hcs : ∀ c ∈ cs, isAsciiBlank c
  · rw [expects_of_blank hcs, expects, expects, lastWord_append_blanks hcs, List.all_append,
      List.all_eq_true.2 hcs, Bool.and_true]
  · rw [expects_of_not_blank hcs, expects_of_not_blank fun h => hcs (List.forall_mem_append.1 h).2,
      lastWord_append hcs hapart]

theorem expects_word {word : List Char} (hne : word ≠ []) (hword : ∀ c ∈ word, isWordPart c)
    (before : Bool) :
    expects before word = wordsBeforeExpression.contains (String.ofList word) := by
  have hlast : lastWord word = word := by
    have hblank : word.reverse.dropWhile isAsciiBlank = word.reverse := by
      obtain ⟨c, cs, hcs⟩ := List.exists_cons_of_ne_nil (List.reverse_ne_nil_iff.2 hne)
      rw [hcs, List.dropWhile_cons_of_neg fun hc =>
        not_isWordPart_of_isAsciiBlank hc (hword c (List.mem_reverse.1 (hcs ▸ List.mem_cons_self)))]
    rw [lastWord, hblank, List.takeWhile_eq_self_iff.2 fun c hc => hword c (List.mem_reverse.1 hc),
      List.reverse_reverse]
  obtain ⟨c, hc⟩ := List.exists_mem_of_ne_nil word hne
  rw [expects_of_not_blank fun h => not_isWordPart_of_isAsciiBlank (h c hc) (hword c hc), hlast]
  simp [IsValueWord, hne]

theorem expects_sign {c : Char} (hblank : ¬ isAsciiBlank c) (hword : ¬ isWordPart c)
    (before : Bool) : expects before [c] = true := by
  have hlast : lastWord [c] = [] := by
    rw [lastWord, List.reverse_singleton, List.dropWhile_cons_of_neg hblank,
      List.takeWhile_cons_of_neg hword, List.reverse_nil]
  rw [expects_of_not_blank (by simpa using hblank), hlast]
  rfl

/-! ## Going through a member -/

namespace State

/-- Whether reading gets over a stretch, comes out as deep as it went in, and expects behind it what
follows from what a search sees of the stretch. -/
def Reads (s : State) (cs seen rest : List Char) : Prop :=
  ∃ ms s', Passes s cs ms s' rest ∧ s'.nesting = s.nesting ∧
    s'.atExpression = expects s.atExpression seen

variable {s : State} {cs cs' seen seen' rest : List Char}

theorem Reads.append (h : s.Reads cs seen cs')
    (h' : ∀ s₁ : State, s₁.nesting = s.nesting → s₁.Reads cs' seen' rest)
    (hapart : Apart seen seen') : s.Reads cs (seen ++ seen') rest := by
  obtain ⟨ms, s₁, hms, hnesting, hat⟩ := h
  obtain ⟨ms', s', hms', hnesting', hat'⟩ := h' s₁ hnesting
  exact ⟨ms ++ ms', s', hms.trans hms', hnesting'.trans hnesting,
    by rw [hat', hat, expects_append _ hapart]⟩

/-- A word, which may be empty, in front of something else. -/
theorem reads_word {word : List Char} (hword : ∀ c ∈ word, isWordPart c)
    (hrest : ∀ c ∈ rest.head?, ¬ isWordPart c) (s : State) : s.Reads (word ++ rest) word rest := by
  cases word with
  | nil => exact ⟨[], s, .refl s rest, rfl, (expects_of_blank (List.forall_mem_nil _) _).symm⟩
  | cons c cs =>
    obtain ⟨htake, hdrop⟩ := takeWhile_append_of_head
      (fun d hd => hword d (List.mem_cons_of_mem c hd)) hrest
    have hc : isWordPart c := hword c List.mem_cons_self
    have hnot {d : Char} (hd : ¬ isWordPart d) : c ≠ d := fun h => hd (h ▸ hc)
    have hnext : s.next c (cs ++ rest) =
        .ok ((s.keep (c :: cs)).before (expects s.atExpression (c :: cs)), rest) := by
      rw [State.next, if_neg (hnot (by decide)),
        if_neg (not_or.2 ⟨hnot (by decide), hnot (by decide)⟩), if_neg (hnot (by decide)),
        if_neg (hnot (by decide)), if_pos hc, State.word, htake, hdrop,
        expects_word (List.cons_ne_nil c cs) hword]
    exact ⟨_, _, .single hnext (done_keep _ _), rfl, rfl⟩

/-- Blanks, and signs behind which an expression may stand. -/
theorem reads_sign {c : Char} (hc : isAsciiBlank c ∨ c = '\x0b' ∨ c = '\\') (s : State)
    (rest : List Char) : s.Reads (c :: rest) [c] rest := by
  refine ⟨shown [c], (s.keep [c]).before (expects s.atExpression [c]),
    .single ?_ (done_keep _ _), rfl, rfl⟩
  rcases hc with hblank | rfl | rfl
  · rw [expects_of_blank (by simpa using hblank)]
    simp only [isAsciiBlank, Bool.or_eq_true, beq_iff_eq] at hblank
    rcases hblank with (((rfl | rfl) | rfl) | rfl) | rfl <;> rfl
  all_goals
    rw [expects_sign (by decide) (by decide)]
    rfl

/-- A word in braces. -/
theorem reads_braces (hs : s.nesting.WF) {word : List Char} (hword : ∀ c ∈ word, isWordPart c)
    (rest : List Char) : s.Reads ('{' :: (word ++ '}' :: rest)) ('{' :: (word ++ ['}'])) rest := by
  have hopen : Passes s ('{' :: (word ++ '}' :: rest)) (shown ['{'])
      { (s.keep ['{']).before true with depth := s.depth + 1 } (word ++ '}' :: rest) :=
    .single rfl rfl
  have hend : ∀ c ∈ ('}' :: rest).head?, ¬ isWordPart c := fun c hc => by cases hc; decide
  obtain ⟨ms, s₂, hms, hnesting, -⟩ := reads_word hword hend
    { (s.keep ['{']).before true with depth := s.depth + 1 }
  have hnesting : s₂.nesting = { s.nesting with depth := s.nesting.depth + 1 } := hnesting
  -- The brace is deeper than the substitution around, so it does not end it.
  have hnext := next_closeBrace (s := s₂) rest fun t ht => by
    rw [hnesting] at ht ⊢
    have := hs.le_depth t ht
    simp only
    omega
  have hclose : Passes s₂ ('}' :: rest) (shown ['}']) _ rest := .single hnext rfl
  have hseen : expects s.atExpression ('{' :: (word ++ ['}'])) = true := by
    rw [← List.cons_append, expects_append _ (apart_of_head _ fun d hd => by cases hd; decide),
      expects_sign (by decide) (by decide)]
  refine ⟨_, _, hopen.trans (hms.trans hclose), ?_, hseen.symm⟩
  change ({ s₂.nesting with depth := s₂.nesting.depth - 1 } : Nesting) = s.nesting
  rw [hnesting]
  rfl

/-- A comment up to a line feed. -/
theorem reads_lineComment {line : List Char} (hline : '\n' ∉ line) (s : State) (rest : List Char) :
    s.Reads ('/' :: '/' :: (line ++ '\n' :: rest)) ['\n'] rest := by
  have hfeed : ∀ c ∈ ('\n' :: rest).head?, c = '\n' := by simp
  have hnext := s.next_lineComment hline hfeed
  have hcomment : s.Reads ('/' :: '/' :: (line ++ '\n' :: rest)) [] ('\n' :: rest) :=
    ⟨_, _, .single hnext (done_hide _ _), rfl, (expects_of_blank (List.forall_mem_nil _) _).symm⟩
  exact hcomment.append (fun s₁ _ => reads_sign (.inl (by decide)) s₁ rest) (by simp [Apart])

theorem reads_blockComment {body : List Char} (hbody : ¬ ['*', '/'] <:+: body) (s : State)
    (rest : List Char) : s.Reads ('/' :: '*' :: (body ++ '*' :: '/' :: rest)) [' '] rest := by
  have hnext : s.next '/' ('*' :: (body ++ '*' :: '/' :: rest)) =
      .ok (s.hide ('/' :: '*' :: (body ++ ['*', '/'])), rest) := by
    rw [State.next, if_pos rfl, State.slash, cut?_close hbody]
    rfl
  have hblank : ∀ c ∈ [' '], isAsciiBlank c := List.forall_mem_singleton.2 rfl
  exact ⟨_, _, .single hnext (done_hide _ _), rfl, (expects_of_blank hblank _).symm⟩

theorem reads_codePoint (hs : s.nesting.WF) {digits : List Char}
    (hdigits : ∀ c ∈ digits, isWordPart c) (rest : List Char) :
    s.Reads ('\\' :: 'u' :: '{' :: (digits ++ '}' :: rest))
      ('\\' :: 'u' :: '{' :: (digits ++ ['}'])) rest := by
  have hletter (s₁ : State) :
      s₁.Reads (['u'] ++ '{' :: (digits ++ '}' :: rest)) ['u'] ('{' :: (digits ++ '}' :: rest)) :=
    reads_word (List.forall_mem_singleton.2 rfl) (fun d hd => by cases hd; decide) s₁
  have hcoded (s₁ : State) (h₁ : s₁.nesting = s.nesting) :
      s₁.Reads ('u' :: '{' :: (digits ++ '}' :: rest)) ('u' :: '{' :: (digits ++ ['}'])) rest :=
    (hletter s₁).append (fun s₂ h₂ => reads_braces (h₂.trans h₁ ▸ hs) hdigits rest)
      (apart_of_head _ fun d hd => by cases hd; decide)
  exact (reads_sign (.inr (.inr rfl)) s _).append hcoded
    (apart_of_getLast (fun c hc => by cases hc; decide) _)

/-- Whether a stretch starts with no word and ends with none, wherever it is read. -/
structure Stands (cs seen : List Char) : Prop where
  head : ∃ c ∈ cs.head?, ¬ isWordPart c
  seen_head : ∃ c ∈ seen.head?, ¬ isWordPart c
  seen_last : ∀ c ∈ seen.getLast?, ¬ isWordPart c
  reads (s : State) (rest : List Char) : s.nesting.WF → s.Reads (cs ++ rest) seen rest

theorem stands_sign {c : Char} (hc : isAsciiBlank c ∨ c = '\x0b' ∨ c = '\\') :
    Stands [c] [c] := by
  have hword : ¬ isWordPart c := by
    rcases hc with hblank | rfl | rfl
    · exact not_isWordPart_of_isAsciiBlank hblank
    all_goals decide
  exact ⟨⟨c, rfl, hword⟩, ⟨c, rfl, hword⟩, fun d hd => by cases hd; exact hword,
    fun s rest _ => reads_sign hc s rest⟩

/-- A piece of a member stands on its own, up to a word that it may end with. -/
theorem exists_stands {p : MemberPiece} (hp : p.IsAround ∨ p.IsNamed) (hline : p.EndsAtLineFeed) :
    ∃ cs seen word, p.text = cs ++ word ∧ p.seen = seen ++ word ∧ (∀ c ∈ word, isWordPart c) ∧
      (cs = [] ∧ seen = [] ∨ Stands cs seen) := by
  cases p with
  | blank c =>
    have hsign (hc : isAsciiBlank c ∨ c = '\x0b') : Stands [c] [c] :=
      stands_sign (hc.imp_right .inl)
    rcases cases_of_isScriptBlank (hp.resolve_right id) with hblank | htab | hword
    · exact ⟨[c], [c], [], rfl, rfl, List.forall_mem_nil _, .inr (hsign (.inl hblank))⟩
    · exact ⟨[c], [c], [], rfl, rfl, List.forall_mem_nil _, .inr (hsign (.inr htab))⟩
    · exact ⟨[], [], [c], rfl, rfl, by simpa using hword, .inl ⟨rfl, rfl⟩⟩
  | part c =>
    have hword := isWordPart_of_isIdentPart (hp.resolve_left id)
    exact ⟨[], [], [c], rfl, rfl, by simpa using hword, .inl ⟨rfl, rfl⟩⟩
  | lineComment line e =>
    have hfeed : '\n' ∉ line := fun hmem => hp.resolve_right id '\n' hmem rfl
    have hstands : ∀ line, '\n' ∉ line → Stands ('/' :: '/' :: (line ++ ['\n'])) ['\n'] :=
      fun line hline => ⟨⟨'/', rfl, by decide⟩, ⟨'\n', rfl, by decide⟩,
        fun c hc => by cases hc; decide,
        fun s rest _ => by simpa using reads_lineComment hline s rest⟩
    refine ⟨_, _, [], (List.append_nil _).symm, (List.append_nil _).symm, List.forall_mem_nil _,
      .inr ?_⟩
    rcases hline with rfl | rfl
    · exact hstands line hfeed
    · have := hstands (line ++ ['\r']) (by simpa using hfeed)
      rwa [List.append_assoc] at this
  | blockComment body =>
    refine ⟨_, _, [], (List.append_nil _).symm, (List.append_nil _).symm, List.forall_mem_nil _,
      .inr ⟨⟨'/', rfl, by decide⟩, ⟨' ', rfl, by decide⟩, fun c hc => by cases hc; decide,
        fun s rest _ => ?_⟩⟩
    simpa [MemberPiece.text, MemberPiece.seen] using reads_blockComment (hp.resolve_right id) s rest
  | escape digits =>
    have hdigits := (hp.resolve_left id).2
    refine ⟨['\\'], ['\\'], 'u' :: digits, rfl, rfl, ?_, .inr (stands_sign (.inr (.inr rfl)))⟩
    exact List.forall_mem_cons.2 ⟨by decide, fun c hc => isWordPart_of_hexValue? (hdigits c hc)⟩
  | codePoint digits =>
    have hdigits := fun c hc => isWordPart_of_hexValue? ((hp.resolve_left id).2 c hc)
    refine ⟨_, _, [], (List.append_nil _).symm, (List.append_nil _).symm, List.forall_mem_nil _,
      .inr ⟨⟨'\\', rfl, by decide⟩, ⟨'\\', rfl, by decide⟩, fun c hc => ?_, fun s rest hs => ?_⟩⟩
    · rw [MemberPiece.seen, MemberPiece.text, ← List.cons_append, ← List.cons_append,
        ← List.cons_append, List.getLast?_concat] at hc
      cases hc
      decide
    · simpa [MemberPiece.text, MemberPiece.seen] using reads_codePoint hs hdigits rest

/-- Reading gets over the pieces of a member, and over a word in front of them, which may go on in
the first of them. -/
theorem reads_pieces {pieces : List MemberPiece}
    (hpieces : ∀ p ∈ pieces, (p.IsAround ∨ p.IsNamed) ∧ p.EndsAtLineFeed) (hs : s.nesting.WF)
    {word : List Char} (hword : ∀ c ∈ word, isWordPart c)
    (hrest : ∀ c ∈ rest.head?, ¬ isWordPart c) :
    s.Reads (word ++ (pieces.flatMap MemberPiece.text ++ rest))
      (word ++ pieces.flatMap MemberPiece.seen) rest := by
  induction pieces generalizing s word with
  | nil =>
    rw [List.flatMap_nil, List.flatMap_nil, List.append_nil]
    exact reads_word hword hrest s
  | cons p pieces ih =>
    obtain ⟨⟨hp, hline⟩, hpieces⟩ := List.forall_mem_cons.1 hpieces
    obtain ⟨cs, seen, word', htext, hseen, hword', hstands⟩ := exists_stands hp hline
    rw [List.flatMap_cons, List.flatMap_cons, htext, hseen]
    simp only [List.append_assoc]
    rcases hstands with ⟨rfl, rfl⟩ | hstands
    · have := ih hpieces hs (List.forall_mem_append.2 ⟨hword, hword'⟩)
      simpa using this
    · obtain ⟨c, hc, hnot⟩ := hstands.head
      obtain ⟨d, hd, hnot'⟩ := hstands.seen_head
      refine (reads_word hword (fun e he => ?_) s).append (fun s₁ h₁ => ?_)
        (apart_of_head _ fun e he => ?_)
      · rw [List.head?_append, Option.mem_def.1 hc] at he
        cases he
        exact hnot
      · exact (hstands.reads s₁ _ (h₁ ▸ hs)).append
          (fun s₂ h₂ => ih hpieces (h₂.trans h₁ ▸ hs) hword')
          (apart_of_getLast hstands.seen_last _)
      · rw [List.head?_append, Option.mem_def.1 hd] at he
        cases he
        exact hnot'

/-- Whether a slash in front of a text divides: it is kept, and the text is read as code. -/
def Divides (s : State) (rest : List Char) : Prop :=
  s.next '/' rest = .ok ((s.keep ['/']).before true, rest)

theorem divides_iff (hrest : ∀ c ∈ rest.head?, c ≠ '/' ∧ c ≠ '*') :
    s.Divides rest ↔ ¬ s.atExpression := by
  have hslash : ∀ tail, rest ≠ '/' :: tail := fun tail htail => by
    subst htail
    exact (hrest _ rfl).1 rfl
  have hstar : ∀ tail, rest ≠ '*' :: tail := fun tail htail => by
    subst htail
    exact (hrest _ rfl).2 rfl
  refine ⟨fun h hat => ?_, fun hat => slash_eq_of_division hslash hstar hat⟩
  change s.slash rest = _ at h
  rw [slash_eq_of_expression hslash hstar hat] at h
  split at h
  · cases h
  · -- Behind a regular expression none is expected, behind a division one is.
    have hbefore := congrArg (fun r => r.1.atExpression) (Except.ok.inj h)
    cases hbefore

end State

/-- The pieces of a member behind its point: a name, with blanks and comments around it. -/
structure IsMember (front name behind : List MemberPiece) : Prop where
  isAround_front : ∀ p ∈ front, p.IsAround
  isNamed : ∀ p ∈ name, p.IsNamed
  name_ne_nil : name ≠ []
  isAround_behind : ∀ p ∈ behind, p.IsAround

theorem IsMember.not_forall_isAsciiBlank {front name behind : List MemberPiece}
    (h : IsMember front name behind) :
    ¬ ∀ c ∈ (front ++ name ++ behind).flatMap MemberPiece.seen, isAsciiBlank c := by
  obtain ⟨p, hp⟩ := List.exists_mem_of_ne_nil name h.name_ne_nil
  obtain ⟨c, hc, hblank⟩ : ∃ c ∈ p.seen, ¬ isAsciiBlank c := by
    have hnamed := h.isNamed p hp
    cases p with
    | part c =>
      exact ⟨c, List.mem_singleton_self c,
        fun hblank => not_isWordPart_of_isAsciiBlank hblank (isWordPart_of_isIdentPart hnamed)⟩
    | escape | codePoint => exact ⟨'\\', List.mem_cons_self, by decide⟩
    | blank | lineComment | blockComment => exact hnamed.elim
  have hmem : p ∈ front ++ name ++ behind := List.mem_append_left _ (List.mem_append_right _ hp)
  exact fun hall => hblank (hall c (List.mem_flatMap.2 ⟨p, hmem, hc⟩))

theorem wf_start (text : List Char) : (start text).1.nesting.WF := by
  have hnesting : (start text).1.nesting = ⟨[], [], 0⟩ := by
    unfold start
    split <;> rfl
  rw [hnesting]
  exact List.pairwise_singleton _ _

/-- Wherever the reader of a script comes to a point, a name, and a slash that starts no comment,
with blanks and comments around the name, it takes the slash for a division if the last word in
front of it stands for a value, and for the start of a regular expression otherwise: if the name is
one of the words before expressions, or no word stands last. Comments up to the end of their line
have to end at a line feed, with or without a carriage return in front. -/
theorem divides_behind_member_iff {text : List Char} {ms : List Masked} {s : State}
    {front name behind : List MemberPiece} {rest : List Char}
    (hreach : Passes (start text).1 (start text).2 ms s
      ('.' :: ((front ++ name ++ behind).flatMap MemberPiece.text ++ '/' :: rest)))
    (hmember : IsMember front name behind)
    (hlines : ∀ p ∈ front ++ name ++ behind, p.EndsAtLineFeed)
    (hrest : ∀ c ∈ rest.head?, c ≠ '/' ∧ c ≠ '*') :
    ∃ ms' s', Passes (start text).1 (start text).2 (ms ++ ms') s' ('/' :: rest) ∧
      s'.nesting = s.nesting ∧
      (s'.Divides rest ↔
        IsValueWord (lastWord ((front ++ name ++ behind).flatMap MemberPiece.seen))) := by
  have hpieces : ∀ p ∈ front ++ name ++ behind, (p.IsAround ∨ p.IsNamed) ∧ p.EndsAtLineFeed := by
    refine fun p hp => ⟨?_, hlines p hp⟩
    rcases List.mem_append.1 hp with hp | hp
    · exact (List.mem_append.1 hp).imp (hmember.isAround_front p) (hmember.isNamed p)
    · exact .inl (hmember.isAround_behind p hp)
  have hpoint : Passes s ('.' :: ((front ++ name ++ behind).flatMap MemberPiece.text ++
      '/' :: rest)) (shown ['.']) ((s.keep ['.']).before false) _ := .single rfl rfl
  have hslash : ∀ c ∈ ('/' :: rest).head?, ¬ isWordPart c := fun c hc => by cases hc; decide
  have hwf : ((s.keep ['.']).before false).nesting.WF := hreach.wf (wf_start text)
  obtain ⟨ms', s', hms', hnesting, hat⟩ :=
    State.reads_pieces hpieces hwf (List.forall_mem_nil _) hslash
  refine ⟨_, s', hreach.trans (hpoint.trans hms'), hnesting, ?_⟩
  rw [State.divides_iff hrest, hat, List.nil_append,
    expects_of_not_blank hmember.not_forall_isAsciiBlank, Bool.not_eq_true', Bool.not_eq_false,
    decide_eq_true_eq]

/-- A reserved word may be the name of a member. -/
theorem divides_behind_member_iff_reserved :
    IsMember [.blank ' '] [.part 'i', .part 'f'] [.lineComment [] .lf] ∧
      ∃ ms s, Passes {} "a. if//\n/2".toList ms s "/2".toList ∧ s.Divides ['2'] := by
  have htext : "a. if//\n/2".toList = ['a', '.', ' ', 'i', 'f', '/', '/', '\n', '/', '2'] := by
    decide
  have hmember : IsMember [.blank ' '] [.part 'i', .part 'f'] [.lineComment [] .lf] :=
    ⟨by simp [MemberPiece.IsAround]; decide, by simp [MemberPiece.IsNamed]; decide, by decide,
      by simp [MemberPiece.IsAround]⟩
  have hreach : Passes (start ['a', '.', ' ', 'i', 'f', '/', '/', '\n', '/', '2']).1
      (start ['a', '.', ' ', 'i', 'f', '/', '/', '\n', '/', '2']).2 (shown ['a'])
      (({} : State).keep ['a'] |>.before false) ['.', ' ', 'i', 'f', '/', '/', '\n', '/', '2'] :=
    .single rfl rfl
  have hrest : ∀ c ∈ ['2'].head?, c ≠ '/' ∧ c ≠ '*' := fun c hc => by cases hc; decide
  obtain ⟨ms', s', hpasses, -, hdivides⟩ :=
    divides_behind_member_iff hreach hmember (by simp [MemberPiece.EndsAtLineFeed]) hrest
  rw [htext]
  exact ⟨hmember, _, s', hpasses, hdivides.2 (by decide)⟩

/-- A regular expression is read behind a member whose name is a word before expressions, behind a
vertical tab, and behind a name that ends in an escaped code point. -/
theorem exists_not_divides_behind_member :
    (∃ ms s, Passes {} "a.return / 2 / 'x'".toList ms s "/ 2 / 'x'".toList ∧
      ¬ s.Divides " 2 / 'x'".toList) ∧
    mask "a.return / 2 / 'x'" = .ok "a.return /   / ' '" ∧
    mask "a.b\x0b/ 2 / 'x'" = .ok "a.b\x0b/   / ' '" ∧
    mask "a.\\u\x7b62\x7d / 2 / 'x'" = .ok "a.\\u\x7b62\x7d /   / ' '" := by
  have hreach : Passes {} ['a', '.', 'r', 'e', 't', 'u', 'r', 'n', ' ', '/', ' ', '2', ' ', '/',
      ' ', '\'', 'x', '\''] _ _ ['/', ' ', '2', ' ', '/', ' ', '\'', 'x', '\''] :=
    .step (t := shown ['a']) rfl rfl <| .step (t := shown ['.']) rfl rfl <|
      .step (t := shown ['r', 'e', 't', 'u', 'r', 'n']) rfl rfl <|
        .step (t := shown [' ']) rfl rfl (.refl _ _)
  refine ⟨⟨_, _, hreach, ?_⟩, by decide +kernel, by decide +kernel, by decide +kernel⟩
  rw [State.divides_iff fun c hc => by cases hc; decide, Decidable.not_not]
  decide

end Masking

end ModuleWorkers
