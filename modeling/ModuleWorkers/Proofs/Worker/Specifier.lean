import ModuleWorkers.Proofs.Worker.FixedPoint
import ModuleWorkers.Proofs.Worker.Terminators

/-!
# The strings that constructions name scripts by

A string literal of a script has a value, which its escapes spell (`Construction.LiteralPiece`). The
value is made of UTF-16 code units, and may hold half of a surrogate pair. A construction is read
with the escapes for line feeds, carriage returns and tabs, and with characters that stand for
themselves behind a backslash; of other escapes it takes the letters for the value
(`Construction.unescape_text`). Hence what it says to run is the value of the literal exactly if the
literal has none of these (`Construction.specifier_eq_value_iff`).
-/

namespace ModuleWorkers

open Text Masked MaskedCursor Masking

/-! ## Code units -/

/-- The UTF-16 code units of a code point. -/
def Text.unitsOf (n : Nat) : List Nat :=
  if n < 0x10000 then [n] else [0xD800 + (n - 0x10000) / 0x400, 0xDC00 + (n - 0x10000) % 0x400]

/-- The UTF-16 code units of a text. -/
def Text.codeUnits (cs : List Char) : List Nat := cs.flatMap fun c => unitsOf c.toNat

theorem Text.length_unitsOf (n : Nat) : (unitsOf n).length = 1 ∨ (unitsOf n).length = 2 := by
  unfold unitsOf
  split
  · exact .inl rfl
  · exact .inr rfl

theorem Text.length_le_codeUnits (cs : List Char) : cs.length ≤ (codeUnits cs).length := by
  induction cs with
  | nil => exact Nat.le_refl 0
  | cons c cs ih =>
    have := length_unitsOf c.toNat
    rw [codeUnits, List.flatMap_cons, List.length_append, List.length_cons]
    change cs.length + 1 ≤ _ + (codeUnits cs).length
    omega

/-- Lists that are put together of parts are the same if the parts are, as long as no part of the
one is shorter than that of the other. -/
theorem flatMap_eq_flatMap_iff {α β : Type} {f g : α → List β} {l : List α}
    (h : ∀ a ∈ l, (g a).length ≤ (f a).length) :
    l.flatMap f = l.flatMap g ↔ ∀ a ∈ l, f a = g a := by
  -- Along with that, no list of parts is shorter in all.
  suffices hboth : (l.flatMap g).length ≤ (l.flatMap f).length ∧
      (l.flatMap f = l.flatMap g ↔ ∀ a ∈ l, f a = g a) from hboth.2
  induction l with
  | nil => simp
  | cons a l ih =>
    obtain ⟨ha, hl⟩ := List.forall_mem_cons.1 h
    obtain ⟨hlength, hiff⟩ := ih hl
    rw [List.flatMap_cons, List.flatMap_cons, List.forall_mem_cons, ← hiff, List.length_append,
      List.length_append]
    refine ⟨by omega, fun heq => ?_, fun heq => by rw [heq.1, heq.2]⟩
    have hsum := congrArg List.length heq
    rw [List.length_append, List.length_append] at hsum
    exact List.append_inj heq (by omega)

/-- Fronts of masked characters that are as long are the same. -/
theorem MaskedCursor.append_inj_of_byteLength_eq {as bs cs ds : List Masked}
    (h : as ++ bs = cs ++ ds) (hlength : byteLength as = byteLength cs) : as = cs ∧ bs = ds := by
  have hsource : source as ++ source bs = source cs ++ source ds := by
    rw [source, source, source, source, ← List.map_append, ← List.map_append, h]
  rw [byteLength_eq, byteLength_eq] at hlength
  have hfront := (Text.append_inj_of_byteLength_eq hsource hlength).1
  exact List.append_inj h (by simpa [source] using congrArg List.length hfront)

namespace Construction

/-! ## Pieces of string literals -/

/-- A piece of the body of a string literal. -/
inductive LiteralPiece
  | plain (c : Char)
  /-- A backslash in front of a character. -/
  | escaped (c : Char)
  /-- `\0`. -/
  | nul
  /-- `\x` and two digits. -/
  | hex (digits : List Char)
  /-- `\u` and four digits. -/
  | unit (digits : List Char)
  /-- `\u` and digits in braces. -/
  | codePoint (digits : List Char)
  /-- A backslash at the end of a line. -/
  | continued (e : LineEnd)
  deriving DecidableEq, Inhabited, Repr

/-- The number that hexadecimal digits make. -/
def hexNumber (digits : List Char) : Nat :=
  digits.foldl (fun n c => n * 16 + (Json.hexValue? c).getD 0) 0

namespace LiteralPiece

def text : LiteralPiece → List Char
  | plain c => [c]
  | escaped c => ['\\', c]
  | nul => ['\\', '0']
  | hex digits => '\\' :: 'x' :: digits
  | unit digits => '\\' :: 'u' :: digits
  | codePoint digits => '\\' :: 'u' :: '{' :: (digits ++ ['}'])
  | continued e => '\\' :: e.chars

/-- The code units that a piece stands for. -/
def value : LiteralPiece → List Nat
  | plain c => unitsOf c.toNat
  | escaped c => unitsOf (Json.Relaxed.escaped c).toNat
  | nul => [0]
  | hex digits => [hexNumber digits]
  | unit digits => [hexNumber digits]
  | codePoint digits => unitsOf (hexNumber digits)
  | continued _ => []

def AreDigits (digits : List Char) : Prop := ∀ c ∈ digits, (Json.hexValue? c).isSome

/-- Whether a piece may stand between these quotes. -/
def Fits (quote : Char) : LiteralPiece → Prop
  | plain c => c ∉ [quote, '\\', '\n', '\r']
  | escaped c => ¬ isLineTerminator c ∧ ¬ c.isDigit ∧ c ∉ ['x', 'u']
  | nul => True
  | hex digits => digits.length = 2 ∧ AreDigits digits
  | unit digits => digits.length = 4 ∧ AreDigits digits
  | codePoint digits => digits ≠ [] ∧ AreDigits digits ∧ hexNumber digits ≤ 0x10FFFF
  | continued _ => True

/-- Whether the reader of constructions knows what a piece stands for. -/
def IsKnown : LiteralPiece → Prop
  | plain _ => True
  | escaped c => c ∉ ['b', 'f', 'v']
  | _ => False

/-- The characters that the reader of constructions takes a piece for. -/
def taken : LiteralPiece → List Char
  | plain c => [c]
  | escaped c => [if c ∈ ['b', 'f', 'v'] then c else Json.Relaxed.escaped c]
  | nul => ['0']
  | hex digits => 'x' :: digits
  | unit digits => 'u' :: digits
  | codePoint digits => 'u' :: '{' :: (digits ++ ['}'])
  | continued e => e.chars

/-- The pieces of strings that a piece is made of for the reader of scripts. -/
def strings : LiteralPiece → List StringPiece
  | plain c => [.plain c]
  | escaped c => [.escaped c]
  | nul => [.escaped '0']
  | hex digits => .escaped 'x' :: digits.map .plain
  | unit digits => .escaped 'u' :: digits.map .plain
  | codePoint digits => .escaped 'u' :: ('{' :: (digits ++ ['}'])).map .plain
  | continued e => [.continued e]

end LiteralPiece

/-- Whether pieces make up the body of a string literal: no digit stands behind `\0`. -/
structure IsLiteralBody (quote : Char) (pieces : List LiteralPiece) : Prop where
  fits : ∀ p ∈ pieces, p.Fits quote
  nul_ahead : pieces.IsChain fun p q => p = .nul → ∀ c ∈ q.text.head?, ¬ c.isDigit

theorem LiteralPiece.AreDigits.not_mem {digits : List Char} (h : AreDigits digits) {c : Char}
    (hc : Json.hexValue? c = none) : c ∉ digits :=
  fun hmem => by simpa [hc] using h c hmem

/-! ## Reading them -/

theorem unescape_append {cs : List Char} (hcs : '\\' ∉ cs) (rest : List Char) :
    unescape (cs ++ rest) = cs ++ unescape rest := by
  induction cs with
  | nil => rfl
  | cons c cs ih =>
    obtain ⟨hc, hcs⟩ := not_or.1 (mt List.mem_cons.2 hcs)
    rw [List.cons_append, unescape, ih hcs, List.cons_append]
    · exact fun d ds h => absurd h.symm hc
    · exact fun h => absurd h.symm hc

theorem unescape_escape (c : Char) (rest : List Char) : unescape ('\\' :: c :: rest) =
    (if c ∈ ['b', 'f', 'v'] then c else Json.Relaxed.escaped c) :: unescape rest := by
  rw [unescape]
  congr 1
  by_cases hc : c ∈ ['b', 'f', 'n', 'r', 't', 'v']
  · simp only [List.mem_cons, List.not_mem_nil, or_false] at hc
    rcases hc with rfl | rfl | rfl | rfl | rfl | rfl <;> rfl
  · have hself : Json.Relaxed.escaped c = c := by
      unfold Json.Relaxed.escaped
      split <;> simp_all
    simp only [List.mem_cons, List.not_mem_nil, or_false, not_or] at hc
    simp [hself, hc]

/-- The letter of an escape that the reader does not know is taken for what it stands for. -/
theorem unescape_coded {letter : Char} (hletter : letter ∈ ['0', 'x', 'u']) {cs : List Char}
    (hcs : '\\' ∉ cs) (rest : List Char) :
    unescape ('\\' :: letter :: (cs ++ rest)) = letter :: (cs ++ unescape rest) := by
  rw [unescape_escape, unescape_append hcs]
  simp only [List.mem_cons, List.not_mem_nil, or_false] at hletter
  rcases hletter with rfl | rfl | rfl <;> rfl

namespace LiteralPiece

theorem unescape_text_append {quote : Char} {p : LiteralPiece} (hp : p.Fits quote)
    (rest : List Char) : unescape (p.text ++ rest) = p.taken ++ unescape rest := by
  have hnone : ∀ {digits}, AreDigits digits → '\\' ∉ digits := fun h => h.not_mem (by decide)
  cases p with
  | plain c =>
    have hc : '\\' ∉ [c] := by
      intro hmem
      cases List.mem_singleton.1 hmem
      exact hp (by simp)
    exact unescape_append hc rest
  | escaped c => exact unescape_escape c rest
  | nul => exact unescape_coded (by decide) (List.not_mem_nil (a := '\\')) rest
  | hex digits => exact unescape_coded (by decide) (hnone hp.2) rest
  | unit digits => exact unescape_coded (by decide) (hnone hp.2) rest
  | codePoint digits =>
    have hbraces : '\\' ∉ '{' :: (digits ++ ['}']) := by simpa using hnone hp.2.1
    exact unescape_coded (by decide) hbraces rest
  | continued e =>
    cases e with
    | crlf =>
      have hfeed : unescape (['\n'] ++ rest) = ['\n'] ++ unescape rest :=
        unescape_append (by decide) rest
      exact (unescape_escape '\r' ('\n' :: rest)).trans (congrArg ('\r' :: ·) hfeed)
    | lf | cr | ls | ps => exact unescape_escape _ rest

end LiteralPiece

/-- What a body is taken for. -/
theorem unescape_text {quote : Char} {pieces : List LiteralPiece}
    (h : ∀ p ∈ pieces, p.Fits quote) :
    unescape (pieces.flatMap LiteralPiece.text) = pieces.flatMap LiteralPiece.taken := by
  induction pieces with
  | nil => rfl
  | cons p pieces ih =>
    obtain ⟨hp, hpieces⟩ := List.forall_mem_cons.1 h
    rw [List.flatMap_cons, List.flatMap_cons, LiteralPiece.unescape_text_append hp, ih hpieces]

/-- A piece that the reader knows is taken for what it stands for. Another one is not, and not for
anything shorter. -/
theorem LiteralPiece.codeUnits_taken {quote : Char} {p : LiteralPiece} (hp : p.Fits quote) :
    (codeUnits p.taken = p.value ↔ p.IsKnown) ∧ p.value.length ≤ (codeUnits p.taken).length := by
  have hother : ∀ p : LiteralPiece, ¬ p.IsKnown → p.value.length ≤ (codeUnits p.taken).length →
      codeUnits p.taken ≠ p.value → (codeUnits p.taken = p.value ↔ p.IsKnown) ∧
        p.value.length ≤ (codeUnits p.taken).length :=
    fun p hknown hlength hne => ⟨⟨fun heq => absurd heq hne, fun h => absurd h hknown⟩, hlength⟩
  have hlonger : ∀ p : LiteralPiece, ¬ p.IsKnown → p.value.length < p.taken.length →
      (codeUnits p.taken = p.value ↔ p.IsKnown) ∧
        p.value.length ≤ (codeUnits p.taken).length := by
    intro p hknown hlength
    have hlt := Nat.lt_of_lt_of_le hlength (length_le_codeUnits p.taken)
    exact hother p hknown (Nat.le_of_lt hlt) fun heq => by simp [heq] at hlt
  have hone (c : Char) : codeUnits [c] = unitsOf c.toNat := List.append_nil _
  cases p with
  | plain c => exact ⟨iff_of_true (hone c) trivial, Nat.le_of_eq (congrArg _ (hone c).symm)⟩
  | escaped c =>
    by_cases hc : c ∈ ['b', 'f', 'v']
    · refine hother _ (not_not.2 hc) ?_ ?_ <;>
        (simp only [List.mem_cons, List.not_mem_nil, or_false] at hc
         rcases hc with rfl | rfl | rfl <;> decide)
    · have htaken : (escaped c).taken = [Json.Relaxed.escaped c] := by rw [taken, if_neg hc]
      have heq : codeUnits (escaped c).taken = (escaped c).value := by rw [htaken, hone, value]
      exact ⟨iff_of_true heq hc, Nat.le_of_eq (congrArg _ heq.symm)⟩
  | nul => exact hother _ id (by decide) (by decide)
  | hex digits =>
    exact hlonger _ id (by simp [value, taken, hp.1])
  | unit digits => exact hlonger _ id (by simp [value, taken, hp.1])
  | codePoint digits =>
    refine hlonger _ id ?_
    have := length_unitsOf (hexNumber digits)
    have := List.length_pos_of_ne_nil hp.1
    simp only [value, taken, List.length_cons, List.length_append]
    omega
  | continued e => exact hlonger _ id (by cases e <;> decide)

/-- A body is taken for what it stands for if the reader knows all of its escapes. -/
theorem codeUnits_unescape_eq_iff {quote : Char} {pieces : List LiteralPiece}
    (h : ∀ p ∈ pieces, p.Fits quote) :
    codeUnits (unescape (pieces.flatMap LiteralPiece.text)) =
      pieces.flatMap LiteralPiece.value ↔ ∀ p ∈ pieces, p.IsKnown := by
  rw [unescape_text h, codeUnits, List.flatMap_assoc]
  refine (flatMap_eq_flatMap_iff fun p hp => (LiteralPiece.codeUnits_taken (h p hp)).2).trans ?_
  exact forall₂_congr fun p hp => (LiteralPiece.codeUnits_taken (h p hp)).1

/-! ## Where they end -/

namespace LiteralPiece

theorem flatMap_text_strings (p : LiteralPiece) : p.strings.flatMap StringPiece.text = p.text := by
  have hplain : ∀ cs : List Char, (cs.map StringPiece.plain).flatMap StringPiece.text = cs := by
    intro cs
    rw [List.flatMap_map]
    exact List.flatMap_singleton' cs
  cases p with
  | plain | escaped | nul => rfl
  | hex | unit | codePoint =>
    rw [strings, List.flatMap_cons, hplain]
    rfl
  | continued e => exact List.append_nil _

theorem fits_strings {quote : Char} (hquote : quote = '\'' ∨ quote = '"') {p : LiteralPiece}
    (hp : p.Fits quote) : ∀ s ∈ p.strings, s.Fits quote := by
  have hplain : ∀ {digits : List Char}, AreDigits digits →
      ∀ s ∈ digits.map StringPiece.plain, s.Fits quote := by
    intro digits hdigits
    refine List.forall_mem_map.2 fun c hc hmem => ?_
    have hsome := hdigits c hc
    simp only [List.mem_cons, List.not_mem_nil, or_false] at hmem
    rcases hmem with rfl | rfl | rfl | rfl
    · rcases hquote with rfl | rfl <;> cases hsome
    all_goals cases hsome
  cases p with
  | plain => exact List.forall_mem_singleton.2 hp
  | escaped => exact List.forall_mem_singleton.2 hp.1
  | nul => exact List.forall_mem_singleton.2 (by decide : ¬ isLineTerminator '0')
  | hex => exact List.forall_mem_cons.2 ⟨(by decide : ¬ isLineTerminator 'x'), hplain hp.2⟩
  | unit => exact List.forall_mem_cons.2 ⟨(by decide : ¬ isLineTerminator 'u'), hplain hp.2⟩
  | codePoint digits =>
    have hbraces : '{' ∉ [quote, '\\', '\n', '\r'] ∧ '}' ∉ [quote, '\\', '\n', '\r'] := by
      rcases hquote with rfl | rfl <;> decide
    refine List.forall_mem_cons.2 ⟨(by decide : ¬ isLineTerminator 'u'), ?_⟩
    rw [List.map_cons, List.map_append]
    exact List.forall_mem_cons.2 ⟨hbraces.1, List.forall_mem_append.2
      ⟨hplain hp.2.1, List.forall_mem_singleton.2 hbraces.2⟩⟩
  | continued => exact List.forall_mem_singleton.2 trivial

theorem flatMap_text {pieces : List LiteralPiece} :
    (pieces.flatMap strings).flatMap StringPiece.text = pieces.flatMap text := by
  rw [List.flatMap_assoc]
  exact List.flatMap_congr fun p _ => p.flatMap_text_strings

end LiteralPiece

/-- A string literal that the reader of scripts comes to is hidden from quote to quote. -/
theorem exists_of_passes_body {quote : Char} (hquote : quote = '\'' ∨ quote = '"')
    {pieces : List LiteralPiece} (hpieces : ∀ p ∈ pieces, p.Fits quote) {s s' : State}
    {cs rest : List Char} {after : List Masked}
    (hp : Passes s cs (⟨quote, false⟩ :: after) s' [])
    (hafter : source after = pieces.flatMap LiteralPiece.text ++ quote :: rest) :
    ∃ after', after =
      veiled (pieces.flatMap LiteralPiece.text) ++ ⟨quote, false⟩ :: after' := by
  obtain rfl : cs = quote :: (pieces.flatMap LiteralPiece.text ++ quote :: rest) := by
    rw [hp.text_eq, List.append_nil, ← hafter]
    rfl
  have hstring : ∀ s : State, ∀ cs : List Char, s.next quote cs = s.string quote cs := by
    rcases hquote with rfl | rfl <;> exact fun _ _ => rfl
  have hfits : ∀ p ∈ pieces.flatMap LiteralPiece.strings, p.Fits quote :=
    List.forall_mem_flatMap.2 fun p hp => LiteralPiece.fits_strings hquote (hpieces p hp)
  have hbody := stringBody_pieces hquote hfits [] rest
  rw [LiteralPiece.flatMap_text] at hbody
  generalize hall : (⟨quote, false⟩ : Masked) :: after = all at hp
  cases hp with
  | @step _ s₁ _ _ _ cs₁ _ t ms hnext ht hp =>
    rw [hstring, State.string, hbody] at hnext
    split at hnext
    · cases hnext
    · rename_i body rest' heq
      split at heq
      · cases heq
      · obtain ⟨rfl, rfl⟩ := Prod.mk.inj (Option.some.inj heq)
        obtain ⟨rfl, rfl⟩ := Prod.mk.inj (Except.ok.inj hnext)
        have htoken : t = ⟨quote, false⟩ ::
            (veiled (pieces.flatMap LiteralPiece.text) ++ [⟨quote, false⟩]) := by
          refine List.reverse_injective (List.append_cancel_right (ht.symm.trans ?_))
          simp [shown]
        rw [htoken] at hall
        exact ⟨ms, by simpa using hall⟩

/-! ## Where they start -/

/-- Whether the literal that says what to run starts behind masked characters: at the start of the
argument list, or of an address relative to the script. -/
inductive OpensTarget (start : Nat) : List Masked → Prop
  | text {front bs : List Masked} : MaskedCursor.byteLength front = start → AreBlank bs →
      OpensTarget start (front ++ bs)
  | url {front bs call bs' : List Masked} : MaskedCursor.byteLength front = start → AreBlank bs →
      Matches (callFront "URL") call (some '(') → AreBlank bs' →
      OpensTarget start (front ++ (bs ++ (call ++ ⟨'(', false⟩ :: bs')))

/-- The argument list of a construction that is found stands behind a parenthesis. -/
theorem exists_of_mem_findFrom {ms : List Masked} {w : Construction}
    (hw : w ∈ findFrom [] none 0 ms) :
    ∃ front args c, ms = (front ++ [⟨'(', false⟩]) ++ args ∧
      MaskedCursor.byteLength (front ++ [⟨'(', false⟩]) = w.start ∧
      target? ⟨args, w.start⟩ = some (w.target, c) := by
  rcases mem_findFrom.1 hw with hw | ⟨p, m, q, rfl, hhere⟩
  · cases hw
  unfold here? at hhere
  split at hhere
  · cases hhere
  · obtain ⟨⟨args, offset⟩, hpattern, hargs⟩ := Option.bind_eq_some_iff.1 hhere
    obtain ⟨word, hword, hrest, hoffset⟩ := exists_of_eatPattern? hpattern
    rw [newWorker_eq] at hword
    obtain ⟨front, rfl, -⟩ := hword.exists_paren
    unfold arguments? at hargs
    simp only [Option.bind_eq_bind, Option.bind_eq_some_iff, Option.pure_def,
      Option.some.injEq] at hargs
    obtain ⟨⟨target, c⟩, htarget, -, -, -, -, rfl⟩ := hargs
    simp only at hrest hoffset
    refine ⟨p ++ front, args, c, ?_, ?_, htarget⟩
    · rw [hrest, List.append_assoc, List.append_assoc, List.append_assoc]
    · rw [hoffset, List.append_assoc, MaskedCursor.byteLength_append, Nat.zero_add]

/-- A string behind a parenthesis is hidden from quote to quote. -/
theorem exists_of_maskCharacters_body {quote : Char} (hquote : quote = '\'' ∨ quote = '"')
    {pieces : List LiteralPiece} (hpieces : ∀ p ∈ pieces, p.Fits quote) {cs rest : List Char}
    {front bs after : List Masked} (hbs : AreBlank bs)
    (hmask : maskCharacters cs = .ok (front ++ ⟨'(', false⟩ :: (bs ++ ⟨quote, false⟩ :: after)))
    (hafter : source after = pieces.flatMap LiteralPiece.text ++ quote :: rest) :
    ∃ after', after =
      veiled (pieces.flatMap LiteralPiece.text) ++ ⟨quote, false⟩ :: after' := by
  have hblank : ¬ isAsciiBlank quote := by rcases hquote with rfl | rfl <;> decide
  obtain ⟨s, cs', s', -, hp⟩ := exists_passes_behind hmask
  obtain ⟨s₁, cs₁, -, -, hp⟩ := hp.blanks hbs (by rwa [visible_shown])
  exact exists_of_passes_body hquote hpieces hp hafter

/-- A string that is hidden from quote to quote. -/
theorem literal_veiled {bs : List Masked} (hbs : AreBlank bs) {quote : Char}
    (hquote : quote = '\'' ∨ quote = '"') (body : List Char) :
    Literal (bs ++ ⟨quote, false⟩ :: (veiled body ++ [⟨quote, false⟩]))
      (.ofList (unescape body)) := by
  have hblank : ¬ isAsciiBlank quote := by rcases hquote with rfl | rfl <;> decide
  have hvisible : Masked.visible ⟨quote, false⟩ = quote := visible_shown quote
  have hbody : ∀ b ∈ veiled body, b.visible ≠ quote := by
    rintro b hb rfl
    exact hblank (areBlank_veiled b hb)
  have hsource : source (veiled body) = body := by
    rw [source, veiled, List.map_map]
    exact List.map_id body
  have hsubstitution : ¬ (quote = '`' ∧ hasSubstitution (veiled body)) := by
    rcases hquote with rfl | rfl <;> simp
  have hliteral : Literal (bs ++ ⟨quote, false⟩ :: (veiled body ++ [⟨quote, false⟩]))
      (.ofList (unescape (source (veiled body)))) :=
    .mk hbs (by rw [hvisible]; tauto) rfl (by rwa [hvisible]) (by rwa [hvisible])
  rwa [hsource] at hliteral

/-- In an address relative to the script, the string is what is read. -/
theorem target_eq_of_url {bs call ms rest : List Masked} (hbs : AreBlank bs)
    (hcall : Matches (callFront "URL") call (some '(')) {text : String} (hms : Literal ms text)
    {offset : Nat} {target : WorkerTarget} {c : MaskedCursor}
    (h : target? ⟨bs ++ (call ++ ⟨'(', false⟩ :: (ms ++ rest)), offset⟩ = some (target, c)) :
    target = .specifier text := by
  rw [target?, skipBlanks_newUrl_eq hbs hcall] at h
  simp only [string?_eq hms, Option.bind_eq_bind, Option.bind_some, Option.bind_eq_some_iff,
    Option.pure_def, Option.some.injEq, Prod.mk.injEq] at h
  obtain ⟨-, -, -, -, -, -, htarget, -⟩ := h
  exact htarget.symm

/-- What a construction says to run is what the string is taken for. -/
theorem OpensTarget.target_eq {w : Construction} {cs rest : List Char} {before after : List Masked}
    (h : OpensTarget w.start before) {quote : Char} (hquote : quote = '\'' ∨ quote = '"')
    (hmask : maskCharacters cs = .ok (before ++ ⟨quote, false⟩ :: after))
    (hw : w ∈ findFrom [] none 0 (before ++ ⟨quote, false⟩ :: after))
    {pieces : List LiteralPiece} (hpieces : ∀ p ∈ pieces, p.Fits quote)
    (hafter : source after = pieces.flatMap LiteralPiece.text ++ quote :: rest) :
    w.target = .specifier (.ofList (unescape (pieces.flatMap LiteralPiece.text))) := by
  obtain ⟨front, args, c, hms, hfront, htarget⟩ := exists_of_mem_findFrom hw
  cases h with
  | @text front' bs hstart hbs =>
    rw [List.append_assoc] at hms hmask
    obtain ⟨rfl, rfl⟩ := append_inj_of_byteLength_eq hms (hstart.trans hfront.symm)
    rw [List.append_assoc, List.singleton_append] at hmask
    obtain ⟨after', rfl⟩ := exists_of_maskCharacters_body hquote hpieces hbs hmask hafter
    have hliteral := literal_veiled hbs hquote (pieces.flatMap LiteralPiece.text)
    have hread := target?_eq after' (.text hliteral) w.start
    simp only [List.append_assoc, List.cons_append, List.nil_append] at hread htarget
    rw [hread] at htarget
    exact (congrArg Prod.fst (Option.some.inj htarget)).symm
  | @url front' bs call bs' hstart hbs hcall hbs' =>
    rw [List.append_assoc] at hms
    obtain ⟨rfl, rfl⟩ := append_inj_of_byteLength_eq hms (hstart.trans hfront.symm)
    have hparen : front ++ [⟨'(', false⟩] ++ (bs ++ (call ++ ⟨'(', false⟩ :: bs')) ++
        ⟨quote, false⟩ :: after = (front ++ [⟨'(', false⟩] ++ (bs ++ call)) ++
          ⟨'(', false⟩ :: (bs' ++ ⟨quote, false⟩ :: after) := by simp
    obtain ⟨after', rfl⟩ :=
      exists_of_maskCharacters_body hquote hpieces hbs' (hparen ▸ hmask) hafter
    have hliteral := literal_veiled hbs' hquote (pieces.flatMap LiteralPiece.text)
    have hread : target? ⟨bs ++ (call ++ ⟨'(', false⟩ ::
        ((bs' ++ ⟨quote, false⟩ :: (veiled (pieces.flatMap LiteralPiece.text) ++
          [⟨quote, false⟩])) ++ after')), w.start⟩ = some (w.target, c) := by
      simpa using htarget
    exact target_eq_of_url hbs hcall hliteral hread

/-- What a construction says to run, given by a string literal, is the value of the literal exactly
if the literal has none but plain characters, and escapes of single characters other than those for
backspaces, form feeds and vertical tabs. -/
theorem specifier_eq_value_iff {text : String} {found : List Construction} {w : Construction}
    (hfound : findConstructions text = .ok found) (hw : w ∈ found) {before after : List Masked}
    {quote : Char} (hquote : quote = '\'' ∨ quote = '"')
    (hmask : maskCharacters text.toList = .ok (before ++ ⟨quote, false⟩ :: after))
    (hopens : OpensTarget w.start before) {pieces : List LiteralPiece}
    (hbody : IsLiteralBody quote pieces) {rest : List Char}
    (hafter : source after = pieces.flatMap LiteralPiece.text ++ quote :: rest) :
    ∃ specifier, w.target = .specifier specifier ∧
      (codeUnits specifier.toList = pieces.flatMap LiteralPiece.value ↔
        ∀ p ∈ pieces, p.IsKnown) := by
  obtain ⟨ms, hms, rfl⟩ := CanonicalScript.exists_maskCharacters hfound
  obtain rfl := Except.ok.inj (hms.symm.trans hmask)
  refine ⟨_, hopens.target_eq hquote hmask hw hbody.fits hafter, ?_⟩
  rw [String.toList_ofList]
  exact codeUnits_unescape_eq_iff hbody.fits

/-- An escaped quote and an escaped tab. -/
theorem specifier_eq_value_iff_escaped :
    IsLiteralBody '\'' [.escaped '\'', .escaped 't'] ∧
      ∃ w, findConstructions "new Worker('\\'\\t')" = .ok [w] ∧
        ∃ specifier, w.target = .specifier specifier ∧
          codeUnits specifier.toList = [0x27, 0x09] := by
  have hbody : IsLiteralBody '\'' [.escaped '\'', .escaped 't'] := by
    refine ⟨?_, by decide⟩
    simp [LiteralPiece.Fits]
    decide
  have hfound : findConstructions "new Worker('\\'\\t')" =
      .ok [⟨11, 17, .specifier "'\t", none⟩] := by decide +kernel
  have hmask : maskCharacters "new Worker('\\'\\t')".toList =
      .ok (shown "new Worker(".toList ++ ⟨'\'', false⟩ ::
        (veiled ['\\', '\'', '\\', 't'] ++ shown "')".toList)) := by decide +kernel
  have hopens : OpensTarget 11 (shown "new Worker(".toList ++ []) :=
    .text (by decide) (List.forall_mem_nil _)
  rw [List.append_nil] at hopens
  have hafter : source (veiled ['\\', '\'', '\\', 't'] ++ shown "')".toList) =
      [LiteralPiece.escaped '\'', .escaped 't'].flatMap LiteralPiece.text ++ '\'' :: [')'] := by
    decide
  obtain ⟨specifier, htarget, hvalue⟩ := specifier_eq_value_iff hfound (List.mem_singleton_self _)
    (.inl rfl) hmask hopens hbody hafter
  refine ⟨hbody, _, hfound, specifier, htarget, hvalue.2 ?_⟩
  simp [LiteralPiece.IsKnown]

/-- A construction takes the digits of an escape for part of the name of a script. -/
theorem exists_specifier_ne_value :
    IsLiteralBody '\'' [.plain '.', .plain '/', .hex ['6', '1']] ∧
      findConstructions "new Worker('./\\x61')" = .ok [⟨11, 19, .specifier "./x61", none⟩] ∧
      [LiteralPiece.plain '.', .plain '/', .hex ['6', '1']].flatMap LiteralPiece.value =
        codeUnits "./a".toList ∧
      codeUnits "./x61".toList ≠ codeUnits "./a".toList := by
  refine ⟨⟨?_, ?_⟩, ?_, ?_, ?_⟩
  · simp [LiteralPiece.Fits, LiteralPiece.AreDigits]
    decide
  · decide
  · decide +kernel
  · decide
  · decide

end Construction

end ModuleWorkers
