import ModuleWorkers.Proofs.Outcome
import ModuleWorkers.Proofs.Text.Utf8
import ModuleWorkers.Worker.Masking

/-!
# Masking bytes

A script is masked in place: the reader goes through its bytes by their offsets, and writes blanks
over stretches of them. Nothing keeps these offsets in the bytes or between characters by itself: a
backslash is skipped with one byte behind it, which may be none, or the first one of several. So all
that would go wrong is made explicit here (`Masking.ByteStop.outOfRange`): each stretch is looked at
by `Bytes.blank`, `Bytes.lineEnd`, or, where it has to be a text, `Bytes.slice`.

The reader comes to an end whatever the bytes are, because each step leads to a later offset
(`Bytes.offset_lt_of_step`).
-/

namespace ModuleWorkers.Masking

open Text

/-- Why the reader of bytes stops. -/
inductive ByteStop
  | lex (e : LexError)
  /-- A stretch is not in the bytes, or not between two characters. -/
  | outOfRange
  deriving DecidableEq, Inhabited, Repr

namespace Bytes

/-! ## Stretches of bytes -/

/-- A blank in the place of a byte; line ends stay. -/
def veil (b : UInt8) : UInt8 :=
  if Char.ofUInt8 b = '\n' ∨ Char.ofUInt8 b = '\r' then b else ' '.toUInt8

/-- Writes blanks over a stretch. -/
def blank (out : List UInt8) (start stop : Nat) : Except ByteStop (List UInt8) :=
  if start ≤ stop ∧ stop ≤ out.length then
    .ok (out.take start ++ (((out.take stop).drop start).map veil ++ out.drop stop))
  else .error .outOfRange

/-- Whether an offset is between two characters of a text, or at one of its ends. -/
def isCharBoundary (bytes : List UInt8) (offset : Nat) : Bool :=
  offset == 0 || offset == bytes.length ||
    bytes[offset]?.any fun b => b.toNat < 128 || 192 ≤ b.toNat

/-- A stretch of a text. -/
def slice (bytes : List UInt8) (start stop : Nat) : Except ByteStop (List UInt8) :=
  if start ≤ stop ∧ isCharBoundary bytes start ∧ isCharBoundary bytes stop then
    .ok ((bytes.take stop).drop start)
  else .error .outOfRange

/-- The offset of the end of a line. -/
def lineEnd (bytes : List UInt8) (start : Nat) : Except ByteStop Nat :=
  if start ≤ bytes.length then
    .ok (start + ((bytes.drop start).takeWhile (Char.ofUInt8 · != '\n')).length)
  else .error .outOfRange

/-- Where bytes first stand in other bytes. -/
def find? (part : List UInt8) : List UInt8 → Option Nat
  | [] => if part = [] then some 0 else none
  | b :: bytes => if part.isPrefixOf (b :: bytes) then some 0 else (find? part bytes).map (· + 1)

/-! ## Bodies of literals -/

/-- The offset of the quote that ends a string. -/
def stringEnd? (bytes : List UInt8) (quote : Char) (i : Nat) : Option Nat :=
  if h : i < bytes.length then
    if Char.ofUInt8 bytes[i] = '\\' then stringEnd? bytes quote (i + 2)
    else if Char.ofUInt8 bytes[i] = '\n' then none
    else if Char.ofUInt8 bytes[i] = quote then some i
    else stringEnd? bytes quote (i + 1)
  else none
termination_by bytes.length - i

/-- The offset of the slash that ends a regular expression. -/
def regexEnd? (bytes : List UInt8) (inClass : Bool) (i : Nat) : Option Nat :=
  if h : i < bytes.length then
    if Char.ofUInt8 bytes[i] = '\n' then none
    else if Char.ofUInt8 bytes[i] = '\\' then regexEnd? bytes inClass (i + 2)
    else if Char.ofUInt8 bytes[i] = '[' then regexEnd? bytes true (i + 1)
    else if Char.ofUInt8 bytes[i] = ']' then regexEnd? bytes false (i + 1)
    else if Char.ofUInt8 bytes[i] = '/' ∧ !inClass then some i
    else regexEnd? bytes inClass (i + 1)
  else none
termination_by bytes.length - i

/-- Writes blanks over the text of a template that started somewhere in front. Also gives the offset
behind its end or behind the start of its next substitution, and whether it ends. -/
def templateText (bytes : List UInt8) (start : Nat) (out : List UInt8) (i : Nat) :
    Except ByteStop (List UInt8 × Nat × Bool) :=
  if h : i < bytes.length then
    if Char.ofUInt8 bytes[i] = '\\' then do
      let out ← blank out i (min (i + 2) bytes.length)
      templateText bytes start out (min (i + 2) bytes.length)
    else if Char.ofUInt8 bytes[i] = '`' then .ok (out, i + 1, true)
    else if Char.ofUInt8 bytes[i] = '$' ∧ bytes[i + 1]?.map Char.ofUInt8 = some '{' then
      .ok (out, i + 2, false)
    else do
      let out ← blank out i (i + 1)
      templateText bytes start out (i + 1)
  else .error (.lex (.unterminatedTemplate start))
termination_by bytes.length - i

/-! ## Going through the bytes -/

/-- What the reader knows at an offset. -/
structure State where
  /-- The bytes, with blanks written over some of them. -/
  out : List UInt8
  offset : Nat := 0
  templates : List (Nat × Nat) := []
  depth : Nat := 0
  parens : List Bool := []
  atExpression : Bool := true

namespace State

/-- Moves past bytes. -/
def past (s : State) (length : Nat) : State := { s with offset := s.offset + length }

/-- Notes whether a slash that comes next starts a regular expression. -/
def before (s : State) (atExpression : Bool) : State := { s with atExpression }

/-- Writes blanks up to an offset, from the given one on. -/
def blank (s : State) (start stop : Nat) : Except ByteStop State := do
  let out ← Bytes.blank s.out start stop
  return { s with out, offset := stop }

/-- Behind a closing brace that is not the end of a substitution. -/
def closed (s : State) : State := { (s.past 1).before true with depth := s.depth - 1 }

end State

/-- Whether a parenthesis behind these bytes opens the head of a control statement. -/
def afterControlWord (front : List UInt8) : Bool :=
  let before := front.reverse.dropWhile (isAsciiBlank <| Char.ofUInt8 ·)
  let word := (before.takeWhile (isWordPart <| Char.ofUInt8 ·)).reverse
  let behind := before.dropWhile (isWordPart <| Char.ofUInt8 ·)
  let point := (behind.dropWhile (isAsciiBlank <| Char.ofUInt8 ·)).head?
  !point.any (Char.ofUInt8 · == '.') && controlWords.any fun w => utf8 w.toList == word

section Reader

variable (bytes : List UInt8)

/-- The byte behind the one at the offset, as a character. -/
def behind? (s : State) : Option Char := bytes[s.offset + 1]?.map Char.ofUInt8

def lineComment (s : State) : Except ByteStop State := do
  let stop ← lineEnd bytes s.offset
  s.blank s.offset stop

def blockComment (s : State) : Except ByteStop State := do
  let rest ← slice bytes (s.offset + 2) bytes.length
  match find? (utf8 ['*', '/']) rest with
  | none => throw (.lex (.unterminatedComment s.offset))
  | some length => s.blank s.offset (s.offset + 2 + length + 2)

def string (s : State) (quote : Char) : Except ByteStop State :=
  match stringEnd? bytes quote (s.offset + 1) with
  | none => throw (.lex (.unterminatedString s.offset))
  | some stop => do
    let s ← s.blank (s.offset + 1) stop
    return (s.past 1).before false

def regex (s : State) : Except ByteStop State :=
  match regexEnd? bytes false (s.offset + 1) with
  | none => throw (.lex (.unterminatedRegex s.offset))
  | some stop => do
    let s ← s.blank (s.offset + 1) stop
    return (s.past 1).before false

/-- Takes what a slash starts. -/
def slash (s : State) : Except ByteStop State :=
  if behind? bytes s = some '/' then lineComment bytes s
  else if behind? bytes s = some '*' then blockComment bytes s
  else if s.atExpression then regex bytes s
  else .ok ((s.past 1).before true)

/-- Takes the text of a template behind its opening backtick or the closing brace of a
substitution. -/
def template (s : State) (start : Nat) : Except ByteStop State := do
  let (out, stop, ends) ← templateText bytes start s.out (s.offset + 1)
  let templates := if ends then s.templates else (s.depth, start) :: s.templates
  return { s with out, offset := stop, templates, atExpression := !ends }

def closeBrace (s : State) : Except ByteStop State :=
  match s.templates with
  | (depth, start) :: outer =>
    if depth = s.depth then template bytes { s with templates := outer } start else .ok s.closed
  | [] => .ok s.closed

def word (s : State) : Except ByteStop State := do
  let rest := bytes.drop s.offset
  let stop := s.offset + (rest.takeWhile (isWordPart <| Char.ofUInt8 ·)).length
  let word ← slice bytes s.offset stop
  let atExpression := wordsBeforeExpression.any fun w => utf8 w.toList == word
  return { s with offset := stop, atExpression }

def openParen (s : State) : Except ByteStop State :=
  if s.offset ≤ s.out.length then
    let parens := afterControlWord (s.out.take s.offset) :: s.parens
    .ok { (s.past 1).before true with parens }
  else .error .outOfRange

/-- Takes a blank or a sign. -/
def sign (s : State) (c : Char) : Except ByteStop State :=
  if c = '{' then .ok { (s.past 1).before true with depth := s.depth + 1 }
  else if (c = '+' ∨ c = '-') ∧ behind? bytes s = some c then .ok ((s.past 2).before false)
  else if c = '(' then openParen s
  else if c = ')' then
    .ok { (s.past 1).before (s.parens.headD false) with parens := s.parens.tail }
  else if c = ']' ∨ c = '.' then .ok ((s.past 1).before false)
  else if isAsciiBlank c then .ok (s.past 1)
  else .ok ((s.past 1).before true)

/-- Takes what starts with a byte. -/
def step (s : State) (byte : UInt8) : Except ByteStop State :=
  let c := Char.ofUInt8 byte
  if c = '/' then slash bytes s
  else if c = '\'' ∨ c = '"' then string bytes s c
  else if c = '`' then template bytes s s.offset
  else if c = '}' then closeBrace bytes s
  else if isWordPart c then word bytes s
  else sign bytes s c

/-! ## The end of the bytes -/

variable {bytes} {s s' : State}

theorem offset_blank {start stop : Nat} (h : s.blank start stop = .ok s') : s'.offset = stop := by
  obtain ⟨out, -, h⟩ := exists_of_bind_eq_ok h
  cases h
  rfl

theorem lt_of_takeWhile {p : UInt8 → Bool} {i : Nat} (hlt : i < bytes.length) (hp : p bytes[i]) :
    i < i + ((bytes.drop i).takeWhile p).length := by
  rw [List.drop_eq_getElem_cons hlt, List.takeWhile_cons_of_pos hp, List.length_cons]
  omega

theorem le_of_stringEnd? {quote : Char} {i stop : Nat} (h : stringEnd? bytes quote i = some stop) :
    i ≤ stop := by
  fun_induction stringEnd? bytes quote i with
  | case1 i hi hescape ih => exact Nat.le_of_succ_le (Nat.le_of_succ_le (ih h))
  | case2 => cases h
  | case3 => cases h; exact Nat.le_refl _
  | case4 i hi _ _ _ ih => exact Nat.le_of_succ_le (ih h)
  | case5 => cases h

theorem le_of_regexEnd? {inClass : Bool} {i stop : Nat}
    (h : regexEnd? bytes inClass i = some stop) : i ≤ stop := by
  fun_induction regexEnd? bytes inClass i with
  | case1 => cases h
  | case2 inClass i hi _ _ ih => exact Nat.le_of_succ_le (Nat.le_of_succ_le (ih h))
  | case3 inClass i hi _ _ _ ih => exact Nat.le_of_succ_le (ih h)
  | case4 inClass i hi _ _ _ _ ih => exact Nat.le_of_succ_le (ih h)
  | case5 => cases h; exact Nat.le_refl _
  | case6 inClass i hi _ _ _ _ _ ih => exact Nat.le_of_succ_le (ih h)
  | case7 => cases h

theorem lt_of_templateText {start i : Nat} {out : List UInt8} {r : List UInt8 × Nat × Bool}
    (h : templateText bytes start out i = .ok r) : i < r.2.1 := by
  fun_induction templateText bytes start out i with
  | case1 out i hi _ ih =>
    obtain ⟨out', -, h⟩ := exists_of_bind_eq_ok h
    have := ih out' h
    omega
  | case2 => cases h; exact Nat.lt_succ_self _
  | case3 => cases h; exact Nat.lt_add_of_pos_right Nat.two_pos
  | case4 out i hi _ _ _ ih =>
    obtain ⟨out', -, h⟩ := exists_of_bind_eq_ok h
    have := ih out' h
    omega
  | case5 => cases h

theorem offset_lt_of_slash (hlt : s.offset < bytes.length)
    (hslash : Char.ofUInt8 bytes[s.offset] = '/') (h : slash bytes s = .ok s') :
    s.offset < s'.offset := by
  unfold slash at h
  split_ifs at h
  · obtain ⟨stop, hstop, h⟩ := exists_of_bind_eq_ok h
    rw [offset_blank h]
    unfold lineEnd at hstop
    rw [if_pos (Nat.le_of_lt hlt)] at hstop
    cases hstop
    exact lt_of_takeWhile hlt (by rw [hslash]; rfl)
  · obtain ⟨rest, -, h⟩ := exists_of_bind_eq_ok h
    split at h
    · cases h
    · rw [offset_blank h]
      omega
  · unfold regex at h
    split at h
    · cases h
    · rename_i stop hstop
      have := le_of_regexEnd? hstop
      obtain ⟨s₁, hs₁, h⟩ := exists_of_bind_eq_ok h
      cases h
      simp only [State.before, State.past, offset_blank hs₁]
      omega
  · cases h
    exact Nat.lt_succ_self _

theorem offset_lt_of_string {quote : Char} (h : string bytes s quote = .ok s') :
    s.offset < s'.offset := by
  unfold string at h
  split at h
  · cases h
  · rename_i stop hstop
    have := le_of_stringEnd? hstop
    obtain ⟨s₁, hs₁, h⟩ := exists_of_bind_eq_ok h
    cases h
    simp only [State.before, State.past, offset_blank hs₁]
    omega

theorem offset_lt_of_template {start : Nat} (h : template bytes s start = .ok s') :
    s.offset < s'.offset := by
  obtain ⟨⟨out, stop, ends⟩, htext, h⟩ := exists_of_bind_eq_ok h
  have := lt_of_templateText htext
  cases h
  exact Nat.lt_of_succ_lt this

theorem offset_lt_of_closeBrace (h : closeBrace bytes s = .ok s') : s.offset < s'.offset := by
  unfold closeBrace at h
  split at h
  · split_ifs at h
    · have := offset_lt_of_template h
      exact this
    · cases h
      exact Nat.lt_succ_self _
  · cases h
    exact Nat.lt_succ_self _

theorem offset_lt_of_word (hlt : s.offset < bytes.length)
    (hword : isWordPart (Char.ofUInt8 bytes[s.offset])) (h : word bytes s = .ok s') :
    s.offset < s'.offset := by
  obtain ⟨word, -, h⟩ := exists_of_bind_eq_ok h
  cases h
  exact lt_of_takeWhile hlt hword

theorem offset_lt_of_sign {c : Char} (h : sign bytes s c = .ok s') : s.offset < s'.offset := by
  unfold sign openParen at h
  split_ifs at h <;> cases h <;> simp [State.before, State.past]

/-- Each step leads to a later offset. -/
theorem offset_lt_of_step (hlt : s.offset < bytes.length)
    (h : step bytes s bytes[s.offset] = .ok s') : s.offset < s'.offset := by
  unfold step at h
  dsimp only at h
  split_ifs at h with hslash hquote htick hbrace hword
  · exact offset_lt_of_slash hlt hslash h
  · exact offset_lt_of_string h
  · exact offset_lt_of_template h
  · exact offset_lt_of_closeBrace h
  · exact offset_lt_of_word hlt hword h
  · exact offset_lt_of_sign h

variable (bytes)

/-- Goes through the rest of the bytes. -/
def run (s : State) : Except ByteStop State :=
  if hlt : s.offset < bytes.length then
    match h : step bytes s bytes[s.offset] with
    | .error e => .error e
    | .ok s' =>
      have : s.offset < s'.offset := offset_lt_of_step hlt h
      run s'
  else .ok s
termination_by bytes.length - s.offset

/-- The state after the interpreter line that a script may start with. -/
def start : Except ByteStop State :=
  if utf8 ['#', '!'] <+: bytes then do
    let stop ← lineEnd bytes 0
    State.blank { out := bytes } 0 stop
  else .ok { out := bytes }

end Reader

end Bytes

/-- The masked bytes of a script. -/
def maskBytes (bytes : List UInt8) : Except ByteStop (List UInt8) := do
  let s ← Bytes.start bytes
  let s ← Bytes.run bytes s
  match s.templates.getLast? with
  | some (_, start) => throw (.lex (.unterminatedTemplate start))
  | none => return s.out

end ModuleWorkers.Masking
