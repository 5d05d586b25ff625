import ModuleWorkers.Proofs.Worker.ByteLiterals
import ModuleWorkers.Proofs.Worker.Ordered

/-!
# The reader of bytes stays in the text

The reader of bytes goes through a script in step with the reader of characters
(`Masking.Bytes.Mirrors`): at each step its offset is that of a character, and all stretches that it
looks at or writes over are in the bytes and between characters. So it never goes out of range, and
its bytes are those of the masked script.
-/

namespace ModuleWorkers

open Text Masked

/-- The offset that an error gives. -/
def LexError.offset : LexError → Nat
  | unterminatedString n | unterminatedComment n | unterminatedTemplate n | unterminatedRegex n => n

theorem Masking.State.offset_pass (s : Masking.State) (isHidden : Bool) (cs : List Char) :
    (s.pass isHidden cs).offset = s.offset + byteLength cs :=
  foldl_utf8Size cs s.offset

namespace Masking.Bytes

/-! ## Words -/

/-- A byte of a character is part of a word, or blank, if the character is. -/
theorem isWordPart_ofUInt8 {c : Char} {b : UInt8} (hb : b ∈ String.utf8EncodeChar c) :
    isWordPart (Char.ofUInt8 b) = isWordPart c := by
  rcases ofUInt8_of_mem_utf8EncodeChar hb with rfl | ⟨hc, hb⟩
  · rfl
  · simp [isWordPart, hc, hb]

theorem isAsciiBlank_ofUInt8 {c : Char} {b : UInt8} (hb : b ∈ String.utf8EncodeChar c) :
    isAsciiBlank (Char.ofUInt8 b) = isAsciiBlank c := by
  rcases ofUInt8_of_mem_utf8EncodeChar hb with rfl | ⟨hc, hb⟩
  · rfl
  · have hblank : ∀ d : Char, 128 ≤ d.toNat → isAsciiBlank d = false := by
      intro d hd
      simp only [isAsciiBlank, Bool.or_eq_false_iff, beq_eq_false_iff_ne]
      refine ⟨⟨⟨⟨?_, ?_⟩, ?_⟩, ?_⟩, ?_⟩ <;> rintro rfl <;> exact absurd hd (by decide)
    rw [hblank _ hc, hblank _ hb]

theorem beq_ofUInt8 {c d : Char} {b : UInt8} (hb : b ∈ String.utf8EncodeChar c)
    (hd : d.toNat < 128) : (Char.ofUInt8 b == d) = (c == d) := by
  rw [Bool.eq_iff_iff, beq_iff_eq, beq_iff_eq, ofUInt8_eq_iff hb hd]

theorem bne_ofUInt8 {c d : Char} {b : UInt8} (hb : b ∈ String.utf8EncodeChar c)
    (hd : d.toNat < 128) : (Char.ofUInt8 b != d) = (c != d) :=
  congrArg not (beq_ofUInt8 hb hd)

/-- Words are compared byte for byte. -/
theorem any_utf8_eq (words : List String) (word : List Char) :
    (words.any fun w => utf8 w.toList == utf8 word) = words.contains (.ofList word) := by
  induction words with
  | nil => rfl
  | cons w words ih =>
    have hsame : utf8 w.toList = utf8 word ↔ String.ofList word = w := by
      constructor
      · intro h
        rw [← utf8_injective h, String.ofList_toList]
      · rintro rfl
        rw [String.toList_ofList]
    rw [List.any_cons, List.contains_cons, ih]
    congr 1
    rw [Bool.eq_iff_iff, beq_iff_eq, beq_iff_eq, hsame]

/-! ## Written characters -/

/-- The bytes of what is written for a masked character are bytes of the character that is seen. -/
theorem mem_utf8_written {m : Masked} {b : UInt8} (hb : b ∈ utf8 m.written) :
    b ∈ String.utf8EncodeChar m.visible := by
  unfold written visible at *
  split at hb
  · rename_i hhidden
    rw [if_pos hhidden]
    obtain ⟨c, hc, hb⟩ := List.mem_flatMap.1 hb
    rwa [(List.mem_replicate.1 hc).2] at hb
  · rename_i hkept
    rw [if_neg hkept]
    simpa using hb

theorem byteLength_written (m : Masked) : byteLength m.written = m.char.utf8Size := by
  have hblanks : ∀ n, byteLength (List.replicate n ' ') = n := by
    intro n
    induction n with
    | zero => rfl
    | succ n ih =>
      rw [List.replicate_succ, byteLength_cons, ih, Nat.add_comm]
      rfl
  unfold written
  split
  · exact hblanks _
  · simp

/-- What was written for the characters that were read, last byte first. -/
def back (ms : List Masked) : List UInt8 := ms.flatMap fun m => (utf8 m.written).reverse

theorem reverse_utf8_written (ms : List Masked) :
    (utf8 (ms.reverse.flatMap written)).reverse = back ms := by
  rw [utf8, List.flatMap_assoc, List.reverse_flatMap, List.reverse_reverse]
  rfl

section Back

variable {p : UInt8 → Bool} {q : Char → Bool}

theorem mem_reverse_written {m : Masked} {b : UInt8} (hb : b ∈ (utf8 m.written).reverse) :
    b ∈ String.utf8EncodeChar m.visible :=
  mem_utf8_written (List.mem_reverse.1 hb)

theorem reverse_written_ne_nil (m : Masked) : (utf8 m.written).reverse ≠ [] := by
  have hpos := m.char.utf8Size_pos
  rw [← List.length_pos_iff, List.length_reverse, length_utf8, byteLength_written]
  exact hpos

variable (h : ∀ c, ∀ b ∈ String.utf8EncodeChar c, p b = q c) (ms : List Masked)

include h

/-- A search backwards from a place goes along with that for the characters that are seen. -/
theorem dropWhile_back : (back ms).dropWhile p = back (ms.dropWhile (q ·.visible)) :=
  dropWhile_flatMap (fun m _ => reverse_written_ne_nil m)
    fun m _ b hb => h m.visible b (mem_reverse_written hb)

theorem takeWhile_back : (back ms).takeWhile p = back (ms.takeWhile (q ·.visible)) :=
  takeWhile_flatMap (fun m _ => reverse_written_ne_nil m)
    fun m _ b hb => h m.visible b (mem_reverse_written hb)

theorem any_head?_back : (back ms).head?.any p = ms.head?.any (q ·.visible) :=
  any_head?_flatMap (fun m _ => reverse_written_ne_nil m)
    fun m _ b hb => h m.visible b (mem_reverse_written hb)

end Back

/-- What is part of a word is written as it is seen. -/
theorem written_of_isWordPart {m : Masked} (h : isWordPart m.visible) :
    m.written = [m.visible] := by
  unfold written visible at *
  split
  · rename_i hhidden
    rw [if_pos hhidden] at h
    exact absurd h (by decide)
  · rfl

theorem reverse_back_of_isWordPart {ms : List Masked} (h : ∀ m ∈ ms, isWordPart m.visible) :
    (back ms).reverse = utf8 (ms.map visible).reverse := by
  have hwritten : ms.reverse.flatMap written = ms.reverse.map visible := by
    rw [← List.flatMap_singleton' (ms.reverse.map visible), List.flatMap_map]
    exact List.flatMap_congr fun m hm => written_of_isWordPart (h m (List.mem_reverse.1 hm))
  rw [← reverse_utf8_written, List.reverse_reverse, hwritten, List.map_reverse]

theorem afterControlWord_eq (s : Masking.State) :
    afterControlWord (utf8 (s.done.reverse.flatMap written)) = s.afterControlWord := by
  have hword := takeWhile_back (fun _ _ => isWordPart_ofUInt8)
    (s.done.dropWhile (isAsciiBlank ·.visible))
  unfold afterControlWord State.afterControlWord
  rw [reverse_utf8_written]
  dsimp only
  rw [dropWhile_back (fun _ _ => isAsciiBlank_ofUInt8), hword, reverse_back_of_isWordPart,
    any_utf8_eq, dropWhile_back (fun _ _ => isWordPart_ofUInt8),
    dropWhile_back (fun _ _ => isAsciiBlank_ofUInt8),
    any_head?_back (q := (· == '.')) (fun c b hb => beq_ofUInt8 hb (by decide))]
  exact fun m hm => List.mem_takeWhile_imp (p := fun m : Masked => isWordPart m.visible) hm

/-! ## Slices -/

theorem isCharBoundary_utf8 (front back : List Char) :
    isCharBoundary (utf8 (front ++ back)) (byteLength front) := by
  cases back with
  | nil => simp [isCharBoundary]
  | cons c cs =>
    obtain ⟨b, bs, hb, hfirst, -⟩ := exists_utf8EncodeChar_eq c
    have hget : (utf8 (front ++ c :: cs))[byteLength front]? = some b := by
      rw [utf8_append, ← length_utf8, List.getElem?_append_right (Nat.le_refl _), Nat.sub_self,
        utf8_cons, hb]
      rfl
    rw [isCharBoundary, hget]
    simp [hfirst]

theorem slice_utf8 (front middle back : List Char) :
    slice (utf8 (front ++ (middle ++ back))) (byteLength front)
      (byteLength front + byteLength middle) = .ok (utf8 middle) := by
  have hstart := isCharBoundary_utf8 front (middle ++ back)
  have hstop := isCharBoundary_utf8 (front ++ middle) back
  rw [byteLength_append, List.append_assoc] at hstop
  have htake : (utf8 (front ++ (middle ++ back))).take (byteLength front + byteLength middle) =
      utf8 front ++ utf8 middle := by
    rw [← List.append_assoc, utf8_append, ← byteLength_append, ← length_utf8, List.take_left,
      utf8_append]
  rw [slice, if_pos ⟨Nat.le_add_right _ _, hstart, hstop⟩, htake, ← length_utf8, List.drop_left]

/-! ## Blanks -/

theorem utf8_replicate_blank (n : Nat) :
    utf8 (List.replicate n ' ') = List.replicate n ' '.toUInt8 := by
  induction n with
  | zero => rfl
  | succ n ih =>
    rw [List.replicate_succ, utf8_cons, ih]
    rfl

/-- The blanks for the bytes of a text are those for its characters. -/
theorem map_veil_utf8 (cs : List Char) : (utf8 cs).map veil = utf8 (blanks cs) := by
  induction cs with
  | nil => rfl
  | cons c cs ih =>
    have hchar : (String.utf8EncodeChar c).map veil =
        utf8 (if c = '\n' ∨ c = '\r' then [c] else List.replicate c.utf8Size ' ') := by
      split
      · rename_i hline
        rcases hline with rfl | rfl <;> decide
      · rename_i hline
        have hveil : ∀ b ∈ String.utf8EncodeChar c, veil b = ' '.toUInt8 := by
          intro b hb
          have hcode : ¬ (Char.ofUInt8 b = '\n' ∨ Char.ofUInt8 b = '\r') := by
            rwa [ofUInt8_eq_iff hb (by decide), ofUInt8_eq_iff hb (by decide)]
          exact if_neg hcode
        rw [List.map_congr_left hveil, List.map_const', String.length_utf8EncodeChar,
          utf8_replicate_blank]
    rw [utf8_cons, List.map_append, ih, hchar, ← utf8_append]
    rfl

theorem byteLength_flatMap_written (ms : List Masked) :
    byteLength (ms.flatMap written) = byteLength (ms.map Masked.char) := by
  induction ms with
  | nil => rfl
  | cons m ms ih =>
    rw [List.flatMap_cons, byteLength_append, ih, byteLength_written, List.map_cons,
      byteLength_cons]

/-! ## Going in step -/

/-- Whether a reader of bytes knows what a reader of characters knows at the same place of a
text. -/
structure Mirrors (text : List Char) (s : Masking.State) (rest : List Char) (b : State) : Prop where
  text_eq : s.text ++ rest = text
  length : byteLength s.text = s.offset
  offset : b.offset = s.offset
  out : b.out = utf8 (s.done.reverse.flatMap written ++ rest)
  templates : b.templates = s.templates
  depth : b.depth = s.depth
  parens : b.parens = s.parens
  atExpression : b.atExpression = s.atExpression
  inside : ∀ t ∈ s.templates, t.2 < byteLength text

/-- Whether a step of the reader of bytes has the same outcome as one of the reader of characters.
An error is at an offset in the text. -/
def Agrees (text : List Char) (b : Except ByteStop State) :
    Except LexError (Masking.State × List Char) → Prop
  | .ok (s, rest) => ∃ b', b = .ok b' ∧ Mirrors text s rest b'
  | .error e => b = .error (.lex e) ∧ e.offset < byteLength text

namespace Mirrors

variable {text cs rest : List Char} {s : Masking.State} {b : State} {c : Char}

theorem drop_eq (h : Mirrors text s cs b) : (utf8 text).drop b.offset = utf8 cs := by
  rw [← h.text_eq, h.offset, ← h.length, utf8_append, ← length_utf8, List.drop_left]

theorem length_written (h : Mirrors text s cs b) :
    (utf8 (s.done.reverse.flatMap written)).length = b.offset := by
  rw [length_utf8, byteLength_flatMap_written, h.offset, ← h.length]
  rfl

theorem before (h : Mirrors text s cs b) (at' : Bool) :
    Mirrors text (s.before at') cs (b.before at') :=
  { h with atExpression := rfl }

/-- Moves past characters that are written as they are given. -/
theorem pass (h : Mirrors text s (cs ++ rest) b) (isHidden : Bool) {b' : State}
    (hout : b'.out = utf8 ((s.pass isHidden cs).done.reverse.flatMap written ++ rest))
    (hoffset : b'.offset = b.offset + byteLength cs) (htemplates : b'.templates = b.templates)
    (hdepth : b'.depth = b.depth) (hparens : b'.parens = b.parens)
    (hat : b'.atExpression = b.atExpression) : Mirrors text (s.pass isHidden cs) rest b' where
  text_eq := by rw [State.text_pass, List.append_assoc, h.text_eq]
  length := by rw [State.text_pass, byteLength_append, h.length, State.offset_pass]
  offset := by rw [hoffset, h.offset, State.offset_pass]
  out := hout
  templates := htemplates.trans h.templates
  depth := hdepth.trans h.depth
  parens := hparens.trans h.parens
  atExpression := hat.trans h.atExpression
  inside := h.inside

theorem keep (h : Mirrors text s (cs ++ rest) b) :
    Mirrors text (s.keep cs) rest (b.past (byteLength cs)) := by
  refine h.pass false ?_ rfl rfl rfl rfl rfl
  change b.out = _
  rw [h.out, State.done_pass, ← List.append_assoc]
  have := flatMap_written_shown cs
  unfold shown at this
  simp [this]

theorem hide (h : Mirrors text s (cs ++ rest) b) :
    Mirrors text (s.hide cs) rest { b with
      out := utf8 (s.done.reverse.flatMap written) ++ ((utf8 cs).map veil ++ utf8 rest)
      offset := b.offset + byteLength cs } := by
  refine h.pass true ?_ rfl rfl rfl rfl rfl
  have := flatMap_written_veiled cs
  unfold veiled at this
  rw [State.done_pass, map_veil_utf8]
  simp [this]

theorem blank_eq (h : Mirrors text s (cs ++ rest) b) :
    b.blank b.offset (b.offset + byteLength cs) = .ok { b with
      out := utf8 (s.done.reverse.flatMap written) ++ ((utf8 cs).map veil ++ utf8 rest)
      offset := b.offset + byteLength cs } := by
  have hblank := blank_append (utf8 (s.done.reverse.flatMap written)) (utf8 cs) (utf8 rest)
  rw [h.length_written, length_utf8, ← utf8_append, ← utf8_append, ← h.out] at hblank
  rw [State.blank, hblank]
  rfl

theorem byteLength_eq (h : Mirrors text s cs b) : byteLength text = b.offset + byteLength cs := by
  rw [← h.text_eq, byteLength_append, h.length, h.offset]

theorem offset_lt (h : Mirrors text s (c :: cs) b) : s.offset < byteLength text := by
  have := c.utf8Size_pos
  rw [h.byteLength_eq, byteLength_cons, h.offset]
  omega

theorem keep_one (h : Mirrors text s (c :: cs) b) (hc : c.toNat < 128) :
    Mirrors text (s.keep [c]) cs (b.past 1) := by
  obtain ⟨byte, hbyte, -⟩ := exists_utf8EncodeChar_eq_singleton hc
  have hsize : byteLength [c] = 1 := by rw [← length_utf8, utf8_cons, hbyte]; rfl
  have hall : Mirrors text s ([c] ++ cs) b := h
  exact hsize ▸ hall.keep

/-! ### Literals -/

/-- A literal between two characters of ASCII. -/
theorem literal {open' close : Char} {body : List Char}
    (h : Mirrors text s (open' :: (body ++ close :: rest)) b) (hopen : open'.toNat < 128)
    (hclose : close.toNat < 128) :
    ∃ b₁, b.blank (b.offset + 1) (byteLength text - (byteLength rest + 1)) = .ok b₁ ∧
      Mirrors text ((((s.keep [open']).hide body).keep [close]).before false) rest
        ((b₁.past 1).before false) := by
  have hkeep := h.keep_one hopen
  have hlast := hkeep.hide.keep_one hclose
  have hstop : byteLength text - (byteLength rest + 1) = b.offset + 1 + byteLength body := by
    have hlength : byteLength text = b.offset + 1 + byteLength body + 1 + byteLength rest :=
      hlast.byteLength_eq
    omega
  rw [hstop]
  exact ⟨_, hkeep.blank_eq, hlast.before false⟩

theorem string (h : Mirrors text s (c :: cs) b) (hc : c = '\'' ∨ c = '"') :
    Agrees text (Bytes.string (utf8 text) b c) (s.string c cs) := by
  have hcode : c.toNat < 128 ∧ c ≠ '\\' := by rcases hc with rfl | rfl <;> decide
  obtain ⟨-, -, hdrop⟩ := exists_of_drop_eq_utf8 hcode.1 h.drop_eq
  unfold Bytes.string State.string
  rw [stringEnd?_eq hcode.1 hcode.2 hdrop []]
  cases hbody : stringBody c [] cs with
  | none => exact ⟨by rw [h.offset]; rfl, h.offset_lt⟩
  | some r =>
    obtain ⟨body, rest⟩ := r
    obtain rfl : cs = body ++ c :: rest := eq_of_stringBody hbody
    obtain ⟨b₁, hblank, hb₁⟩ := h.literal hcode.1 hcode.1
    rw [Option.map_some, length_utf8]
    dsimp only
    rw [hblank]
    exact ⟨_, rfl, hb₁⟩

/-- What is hidden up to the end of its line. -/
theorem lineComment (h : Mirrors text s (c :: cs) b) (hc : c ≠ '\n') :
    Agrees text (Bytes.lineComment (utf8 text) b)
      (.ok (s.hide (c :: cs.takeWhile (· != '\n')), cs.dropWhile (· != '\n'))) := by
  have htake : (c :: cs).takeWhile (· != '\n') = c :: cs.takeWhile (· != '\n') :=
    List.takeWhile_cons_of_pos (p := (· != '\n')) (bne_iff_ne.2 hc)
  have hline : ((utf8 (c :: cs)).takeWhile (Char.ofUInt8 · != '\n')).length =
      byteLength (c :: cs.takeWhile (· != '\n')) := by
    rw [← htake, ← length_utf8, utf8, takeWhile_flatMap (fun c _ => utf8EncodeChar_ne_nil c)
      fun c _ b hb => bne_ofUInt8 (d := '\n') hb (by decide)]
    rfl
  have hsplit : c :: cs = c :: cs.takeWhile (· != '\n') ++ cs.dropWhile (· != '\n') := by
    rw [List.cons_append, List.takeWhile_append_dropWhile]
  have hstop : lineEnd (utf8 text) b.offset =
      .ok (b.offset + byteLength (c :: cs.takeWhile (· != '\n'))) := by
    rw [lineEnd, length_utf8, if_pos (h.byteLength_eq ▸ Nat.le_add_right _ _), h.drop_eq, hline]
  rw [hsplit] at h
  rw [Bytes.lineComment, hstop]
  exact ⟨_, h.blank_eq, h.hide⟩

theorem blockComment (h : Mirrors text s ('/' :: '*' :: cs) b) :
    Agrees text (Bytes.blockComment (utf8 text) b) (s.slash ('*' :: cs)) := by
  have hsize : '/'.utf8Size = 1 ∧ '*'.utf8Size = 1 := ⟨rfl, rfl⟩
  have hbody : slice (utf8 text) (b.offset + 2) (utf8 text).length = .ok (utf8 cs) := by
    have hslice := slice_utf8 (s.text ++ ['/', '*']) cs []
    have hstart : byteLength (s.text ++ ['/', '*']) = b.offset + 2 := by
      simp only [byteLength_append, byteLength_cons, byteLength_nil, hsize, h.length, h.offset]
    have hstop : b.offset + 2 + byteLength cs = (utf8 text).length := by
      simp only [length_utf8, h.byteLength_eq, byteLength_cons, hsize]
      omega
    rw [hstart, hstop] at hslice
    simpa [← h.text_eq] using hslice
  rw [Bytes.blockComment, hbody, State.slash]
  simp only [bind, Except.bind, find?_utf8]
  cases hcut : cut? ['*', '/'] cs with
  | none => exact ⟨by rw [h.offset]; rfl, h.offset_lt⟩
  | some r =>
    obtain ⟨body, rest⟩ := r
    obtain rfl : cs = body ++ '*' :: '/' :: rest := eq_of_cut? hcut
    have hsplit : '/' :: '*' :: (body ++ '*' :: '/' :: rest) =
        '/' :: '*' :: (body ++ ['*', '/']) ++ rest := by simp
    have hstop : b.offset + 2 + byteLength body + 2 =
        b.offset + byteLength ('/' :: '*' :: (body ++ ['*', '/'])) := by
      simp only [byteLength_append, byteLength_cons, byteLength_nil, hsize]
      omega
    rw [hsplit] at h
    rw [Option.map_some]
    dsimp only
    rw [hstop]
    exact ⟨_, h.blank_eq, h.hide⟩

theorem regex (h : Mirrors text s ('/' :: cs) b) (hslash : ∀ tail, cs ≠ '/' :: tail)
    (hstar : ∀ tail, cs ≠ '*' :: tail) (hat : s.atExpression) :
    Agrees text (Bytes.regex (utf8 text) b) (s.slash cs) := by
  obtain ⟨-, -, hdrop⟩ := exists_of_drop_eq_utf8 (by decide) h.drop_eq
  rw [Bytes.regex, regexEnd?_eq hdrop [], State.slash_eq_of_expression hslash hstar hat]
  cases hbody : regexBody false [] cs with
  | none => exact ⟨by rw [h.offset]; rfl, h.offset_lt⟩
  | some r =>
    obtain ⟨body, rest⟩ := r
    obtain rfl : cs = body ++ '/' :: rest := eq_of_regexBody hbody
    obtain ⟨b₁, hblank, hb₁⟩ := h.literal (by decide) (by decide)
    rw [Option.map_some, length_utf8]
    dsimp only
    rw [hblank]
    exact ⟨_, rfl, hb₁⟩

theorem slash (h : Mirrors text s ('/' :: cs) b) :
    Agrees text (Bytes.slash (utf8 text) b) (s.slash cs) := by
  obtain ⟨-, -, hdrop⟩ := exists_of_drop_eq_utf8 (by decide) h.drop_eq
  have hbehind : ∀ d : Char, d.toNat < 128 → (behind? (utf8 text) b = some d ↔ cs.head? = some d) :=
    fun d hd => map_ofUInt8_eq_some_iff hdrop hd
  have hslash := hbehind '/' (by decide)
  have hstar := hbehind '*' (by decide)
  unfold Bytes.slash
  split
  · rename_i hnext
    obtain ⟨tail, rfl⟩ := List.head?_eq_some_iff.1 (hslash.1 hnext)
    exact h.lineComment (by decide)
  rename_i hnot
  have hnoSlash : ∀ tail, cs ≠ '/' :: tail := fun tail htail => hnot (hslash.2 (htail ▸ rfl))
  split
  · rename_i hnext
    obtain ⟨tail, rfl⟩ := List.head?_eq_some_iff.1 (hstar.1 hnext)
    exact h.blockComment
  rename_i hnot
  have hnoStar : ∀ tail, cs ≠ '*' :: tail := fun tail htail => hnot (hstar.2 (htail ▸ rfl))
  split
  · rename_i hat
    exact h.regex hnoSlash hnoStar (h.atExpression ▸ hat)
  · rename_i hat
    rw [State.slash_eq_of_division hnoSlash hnoStar (h.atExpression ▸ hat)]
    exact ⟨_, rfl, (h.keep_one (by decide)).before true⟩

theorem template (h : Mirrors text s (c :: cs) b) (hc : c.toNat < 128) {start : Nat}
    (hstart : start < byteLength text) :
    Agrees text (Bytes.template (utf8 text) b start) ((s.keep [c]).template start cs) := by
  have hkeep := h.keep_one hc
  have hfront : ∀ front : List UInt8, front = front ++ (utf8 [].reverse).map veil :=
    fun front => (List.append_nil front).symm
  have hread : Bytes.templateText (utf8 text) start _ _ = _ :=
    templateText_eq (hfront _) hkeep.length_written hkeep.drop_eq
  rw [← utf8_append, ← hkeep.out] at hread
  change Bytes.templateText (utf8 text) start b.out (b.offset + 1) = _ at hread
  unfold Bytes.template State.template
  rw [hread]
  cases hbody : Masking.templateText [] cs with
  | none => exact ⟨rfl, hstart⟩
  | some r =>
    obtain ⟨body, ends, rest⟩ := r
    obtain rfl : cs = body ++ (templateEnd ends ++ rest) := eq_of_templateText hbody
    have hlast := hkeep.hide.keep.before !ends
    have hend : (utf8 text).length - byteLength rest =
        b.offset + 1 + byteLength body + byteLength (templateEnd ends) := by
      rw [length_utf8]
      have hlength : byteLength text = b.offset + 1 + byteLength body +
        byteLength (templateEnd ends) + byteLength rest := hlast.byteLength_eq
      omega
    cases ends with
    | true => exact ⟨_, rfl, { hlast with offset := hend.trans hlast.offset }⟩
    | false =>
      exact ⟨_, rfl, { hlast with
        offset := hend.trans hlast.offset
        templates := by rw [h.templates, h.depth]; rfl
        inside := List.forall_mem_cons.2 ⟨hstart, h.inside⟩ }⟩

/-! ### Signs and words -/

theorem closeBrace (h : Mirrors text s ('}' :: cs) b) :
    Agrees text (Bytes.closeBrace (utf8 text) b) (s.closeBrace cs) := by
  have hclosed : Agrees text (.ok b.closed)
      (.ok ({ (s.keep ['}']).before true with depth := s.depth - 1 }, cs)) :=
    ⟨_, rfl, { (h.keep_one (by decide)).before true with depth := congrArg (· - 1) h.depth }⟩
  unfold Bytes.closeBrace State.closeBrace
  rw [h.templates, h.depth]
  cases htemplates : s.templates with
  | nil => exact hclosed
  | cons t outer =>
    obtain ⟨hstart, houter⟩ := List.forall_mem_cons.1 (htemplates ▸ h.inside)
    have hinner : Mirrors text { s with templates := outer } ('}' :: cs)
        { b with templates := outer, depth := s.depth } :=
      { h with templates := rfl, depth := rfl, inside := houter }
    dsimp only
    split
    · exact hinner.template (by decide) hstart
    · exact hclosed

theorem word (h : Mirrors text s (c :: cs) b) (hc : isWordPart c) :
    Agrees text (Bytes.word (utf8 text) b) (.ok (s.word c cs)) := by
  have hword : (utf8 (c :: cs)).takeWhile (isWordPart <| Char.ofUInt8 ·) =
      utf8 (c :: cs.takeWhile isWordPart) := by
    rw [utf8, takeWhile_flatMap (fun c _ => utf8EncodeChar_ne_nil c)
      fun c _ b hb => isWordPart_ofUInt8 hb, List.takeWhile_cons_of_pos hc]
    rfl
  have hsplit : c :: cs = c :: cs.takeWhile isWordPart ++ cs.dropWhile isWordPart := by
    rw [List.cons_append, List.takeWhile_append_dropWhile]
  have hslice := slice_utf8 s.text (c :: cs.takeWhile isWordPart) (cs.dropWhile isWordPart)
  rw [← hsplit, h.text_eq, h.length, ← h.offset] at hslice
  have hdrop := h.drop_eq
  rw [hsplit] at h
  unfold Bytes.word
  dsimp only
  rw [hdrop, hword, length_utf8]
  rw [hslice]
  exact ⟨_, rfl, { h.keep.before _ with atExpression := any_utf8_eq _ _ }⟩

theorem openParen (h : Mirrors text s ('(' :: cs) b) : Agrees text (Bytes.openParen b)
    (.ok ({ (s.keep ['(']).before true with parens := s.afterControlWord :: s.parens }, cs)) := by
  have htake : b.out.take b.offset = utf8 (s.done.reverse.flatMap written) := by
    rw [h.out, utf8_append, ← h.length_written, List.take_left]
  have hle : b.offset ≤ b.out.length := by
    rw [h.out, utf8_append, List.length_append, h.length_written]
    exact Nat.le_add_right _ _
  unfold Bytes.openParen
  rw [if_pos hle, htake, afterControlWord_eq, h.parens]
  exact ⟨_, rfl, { (h.keep_one (by decide)).before true with parens := rfl }⟩

theorem sign (h : Mirrors text s (c :: cs) b) (hc : c.toNat < 128) :
    Agrees text (Bytes.sign (utf8 text) b c) (.ok (s.sign c cs)) := by
  have hkeep := h.keep_one hc
  obtain ⟨-, -, hdrop⟩ := exists_of_drop_eq_utf8 hc h.drop_eq
  have hbehind : behind? (utf8 text) b = some c ↔ cs.head? = some c :=
    map_ofUInt8_eq_some_iff hdrop hc
  unfold Bytes.sign State.sign
  simp only [hbehind]
  split_ifs with hopen htwo hparen hclose hvalue hblank
  · exact ⟨_, rfl, { hkeep.before true with depth := congrArg (· + 1) h.depth }⟩
  · obtain ⟨tail, rfl⟩ := List.head?_eq_some_iff.1 htwo.2
    exact ⟨_, rfl, (hkeep.keep_one hc).before false⟩
  · subst hparen
    exact h.openParen
  · exact ⟨_, rfl, { hkeep with
      parens := congrArg List.tail h.parens
      atExpression := congrArg (List.headD · false) h.parens }⟩
  · exact ⟨_, rfl, hkeep.before false⟩
  · exact ⟨_, rfl, hkeep⟩
  · exact ⟨_, rfl, hkeep.before true⟩

/-! ### The whole text -/

/-- The reader of bytes takes what the reader of characters takes. -/
theorem step (h : Mirrors text s (c :: cs) b) (hlt : b.offset < (utf8 text).length) :
    Agrees text (Bytes.step (utf8 text) b (utf8 text)[b.offset]) (s.next c cs) := by
  obtain ⟨byte, bytes, hbytes, -⟩ := exists_utf8EncodeChar_eq c
  have hdrop : (utf8 text).drop b.offset = byte :: (bytes ++ utf8 cs) := by
    rw [h.drop_eq, utf8_cons, hbytes, List.cons_append]
  obtain ⟨_, hget, -⟩ := exists_of_drop_eq_cons hdrop
  have hmem : byte ∈ String.utf8EncodeChar c := hbytes ▸ List.mem_cons_self
  have hcode : ∀ d : Char, d.toNat < 128 → (Char.ofUInt8 byte = d ↔ c = d) :=
    fun d hd => ofUInt8_eq_iff hmem hd
  unfold Bytes.step State.next
  dsimp only
  rw [hget]
  simp only [hcode '/' (by decide), hcode '\'' (by decide), hcode '"' (by decide),
    hcode '`' (by decide), hcode '}' (by decide), isWordPart_ofUInt8 hmem]
  split_ifs with hslash hquote htick hbrace hword
  · subst hslash
    exact h.slash
  · have hc : c.toNat < 128 := by rcases hquote with rfl | rfl <;> decide
    rw [(hcode c hc).2 rfl]
    exact h.string hquote
  · subst htick
    rw [h.offset]
    exact h.template (by decide) h.offset_lt
  · subst hbrace
    exact h.closeBrace
  · exact h.word hword
  · have hc : c.toNat < 128 := by
      simp only [isWordPart, Bool.or_eq_true, not_or, decide_eq_true_eq] at hword
      omega
    rw [(hcode c hc).2 rfl]
    exact h.sign hc

theorem run (h : Mirrors text s cs b) :
    Agrees text (Bytes.run (utf8 text) b) ((s.run cs).map (·, [])) := by
  fun_induction State.run s cs generalizing b with
  | case1 s =>
    have hend : ¬ b.offset < (utf8 text).length := length_le_of_drop h.drop_eq
    rw [Bytes.run, dif_neg hend]
    exact ⟨_, rfl, h⟩
  | case2 s c cs e hnext =>
    have hlt : b.offset < (utf8 text).length := by
      rw [length_utf8, h.offset]
      exact h.offset_lt
    have hstep := h.step hlt
    rw [hnext] at hstep
    refine ⟨?_, hstep.2⟩
    rw [Bytes.run, dif_pos hlt]
    split <;> simp_all [Agrees]
  | case3 s c cs s' rest hnext _ ih =>
    have hlt : b.offset < (utf8 text).length := by
      rw [length_utf8, h.offset]
      exact h.offset_lt
    have hstep := h.step hlt
    rw [hnext] at hstep
    obtain ⟨b', hb', hmirrors⟩ := hstep
    have hrun : Bytes.run (utf8 text) b = Bytes.run (utf8 text) b' := by
      rw [Bytes.run, dif_pos hlt]
      split <;> simp_all
    rw [hrun]
    exact ih hmirrors

end Mirrors

theorem agrees_start (text : List Char) :
    Agrees text (Bytes.start (utf8 text)) (.ok (Masking.start text)) := by
  have hempty : Mirrors text {} text { out := utf8 text } :=
    ⟨rfl, rfl, rfl, rfl, rfl, rfl, rfl, rfl, nofun⟩
  have hiff : utf8 ['#', '!'] <+: utf8 text ↔ ['#', '!'] <+: text := utf8_prefix_iff (by simp)
  unfold Bytes.start
  split
  · rename_i hprefix
    obtain ⟨cs, rfl⟩ := hiff.1 hprefix
    exact hempty.lineComment (by decide)
  · rename_i hprefix
    rw [start_eq_self (mt hiff.2 hprefix)]
    exact ⟨_, rfl, hempty⟩

end Masking.Bytes

open Masking.Bytes in
/-- The reader of bytes never goes out of range, and its bytes are those of the masked script. -/
theorem Masking.maskBytes_utf8 (text : List Char) :
    match maskCharacters text with
    | .ok ms => maskBytes (utf8 text) = .ok (utf8 (ms.flatMap written))
    | .error e => maskBytes (utf8 text) = .error (.lex e) ∧ e.offset < byteLength text := by
  have hagrees := agrees_start text
  unfold maskCharacters maskBytes
  generalize Masking.start text = r at hagrees
  obtain ⟨s, rest⟩ := r
  obtain ⟨b, hstart, hb⟩ := hagrees
  have hrun := hb.run
  rw [hstart]
  cases hs : s.run rest with
  | error e =>
    rw [hs] at hrun
    obtain ⟨hrun, hoffset⟩ := hrun
    simp only [bind, Except.bind, hs, hrun]
    exact ⟨trivial, hoffset⟩
  | ok s =>
    rw [hs] at hrun
    obtain ⟨b', hrun, hmirrors⟩ := hrun
    simp only [bind, Except.bind, hs, hrun, hmirrors.templates]
    cases hlast : s.templates.getLast? with
    | none => simp [pure, Except.pure, hmirrors.out]
    | some t => exact ⟨rfl, hmirrors.inside t (List.mem_of_getLast? hlast)⟩

end ModuleWorkers
