import ModuleWorkers.Json.Parser
import ModuleWorkers.Text.CharClass
/-!
# Relaxed JSON

The form of JSON that people write by hand, as JSON5 has it: comments, single quotes, keys without
quotes, commas at the end, line continuations, and more ways to write numbers. Integers have to fit
64 bits, hexadecimal ones 32, and other numbers have to be finite or say that they are not.
-/

namespace ModuleWorkers.Json.Relaxed

open ModuleWorkers.Text

def isBlank (c : Char) : Bool := isScriptBlank c

/-- The character that an escape after a backslash stands for, if it is one letter. -/
def escaped (c : Char) : Char :=
  match c with
  | 'b' => '\x08'
  | 'f' => '\x0c'
  | 'n' => '\n'
  | 'r' => '\r'
  | 't' => '\t'
  | 'v' => '\x0b'
  | c => c

/-- Reads the four digits of an escape, and those of a second one if the first is half of a
surrogate pair. -/
def unicodeEscape? : List Char → Option (Char × List Char)
  | a :: b :: c :: d :: rest => do
    let n ← hex4? a b c d
    if 0xD800 ≤ n ∧ n < 0xDC00 then
      match rest with
      | '\\' :: 'u' :: e :: f :: g :: h :: rest =>
        let m ← hex4? e f g h
        if 0xDC00 ≤ m ∧ m < 0xE000 then some (Quoted.ofPair n m, rest) else none
      | _ => none
    else if 0xDC00 ≤ n ∧ n < 0xE000 then none
    else some (.ofNat n, rest)
  | _ => none

theorem length_unicodeEscape? {cs rest : List Char} {c : Char}
    (h : unicodeEscape? cs = some (c, rest)) : rest.length < cs.length := by
  unfold unicodeEscape? at h
  split at h
  · simp only [Option.bind_eq_bind, Option.bind_eq_some_iff] at h
    obtain ⟨n, -, h⟩ := h
    split at h
    · split at h
      · simp only [Option.bind_eq_some_iff] at h
        obtain ⟨m, -, h⟩ := h
        split at h
        · simp only [Option.some.injEq, Prod.mk.injEq] at h
          simp only [← h.2, List.length_cons]; omega
        · simp at h
      · simp at h
    · split at h
      · simp at h
      · simp only [Option.some.injEq, Prod.mk.injEq] at h
        simp only [← h.2, List.length_cons]; omega
  · simp at h

/-- Reads up to the closing quote, given what was read, last character first. -/
def stringBody (quote : Char) (read : List Char) : List Char → Option (List Char × List Char)
  | [] => none
  | '\\' :: 'u' :: rest =>
    match h : unicodeEscape? rest with
    | none => none
    | some (c, rest') =>
      have := length_unicodeEscape? h
      stringBody quote (c :: read) rest'
  | '\\' :: 'x' :: a :: b :: rest =>
    match hexValue? a, hexValue? b with
    | some m, some n => stringBody quote (.ofNat (16 * m + n) :: read) rest
    | _, _ => none
  | '\\' :: '0' :: rest => stringBody quote ('\x00' :: read) rest
  | '\\' :: '\r' :: '\n' :: rest => stringBody quote read rest
  | '\\' :: c :: rest =>
    if isLineTerminator c then stringBody quote read rest
    else if c.isDigit || c == 'x' then none
    else stringBody quote (escaped c :: read) rest
  | c :: rest =>
    if c = quote then some (read.reverse, rest)
    else if c = '\\' ∨ isLineTerminator c then none
    else stringBody quote (c :: read) rest
termination_by cs => cs.length

/-- Reads the rest of a word. -/
def wordBody (read : List Char) : List Char → Option (List Char × List Char)
  | '\\' :: 'u' :: rest =>
    match h : unicodeEscape? rest with
    | none => none
    | some (c, rest') =>
      have := length_unicodeEscape? h
      wordBody (c :: read) rest'
  | c :: rest => if isIdentPart c then wordBody (c :: read) rest else some (read.reverse, c :: rest)
  | [] => some (read.reverse, [])
termination_by cs => cs.length

/-- What follows a comment, if one starts after this slash. -/
def afterComment? : List Char → Option (List Char)
  | '/' :: rest => some (rest.dropWhile (!isLineTerminator ·))
  | '*' :: rest => afterBlock rest
  | _ => none
where
  afterBlock : List Char → Option (List Char)
    | [] => none
    | '*' :: '/' :: rest => some rest
    | _ :: rest => afterBlock rest

/-! ## Numbers -/

/-- Reads decimal digits with at most one point and an exponent. -/
def decimal? (cs : List Char) : Option Number.Decimal :=
  let whole := cs.takeWhile Char.isDigit
  let rest := cs.dropWhile Char.isDigit
  let (hasPoint, rest) := match rest with
    | '.' :: rest => (true, rest)
    | rest => (false, rest)
  let part := if hasPoint then rest.takeWhile Char.isDigit else []
  let rest := if hasPoint then rest.dropWhile Char.isDigit else rest
  if (whole.isEmpty && part.isEmpty) || (whole.length > 1 && whole.head? == some '0') then none
  else (Number.exponent? rest).map fun e => ⟨whole ++ part, part.length, e⟩

/-- Whether a number without a sign may stand in a text. -/
def isUnsigned (negative : Bool) (cs : List Char) : Bool :=
  if cs.all Char.isDigit then
    (decimal? cs).isSome && decide (Number.value cs < 1 <<< 63 + if negative then 1 else 0)
  else (decimal? cs).any Number.Decimal.isFinite

/-- Whether a text is a number that may stand in a text. -/
def isNumber : List Char → Bool
  | '-' :: cs => cs == "Infinity".toList || cs == "NaN".toList || isUnsigned true cs
  | '+' :: cs => isUnsigned false cs
  | '0' :: x :: cs =>
    if x == 'x' || x == 'X' then
      !cs.isEmpty && cs.all (fun c => (hexValue? c).isSome) &&
        decide (cs.foldl (fun n c => n * 16 + (hexValue? c).getD 0) 0 < 1 <<< 32)
    else isUnsigned false ('0' :: x :: cs)
  | cs => isUnsigned false cs

def startsNumber (c : Char) : Bool := c.isDigit || c == '.' || c == '+' || c == '-'

def isNumberPart (c : Char) : Bool := startsNumber c || c.isAlpha

theorem length_stringBody {quote : Char} {read cs : List Char} {r : List Char × List Char}
    (h : stringBody quote read cs = some r) : r.2.length < cs.length := by
  fun_induction stringBody quote read cs <;>
    first | (simp only [List.length_cons] at *; grind) | grind

theorem length_wordBody {read cs : List Char} {r : List Char × List Char}
    (h : wordBody read cs = some r) : r.2.length ≤ cs.length := by
  fun_induction wordBody read cs <;>
    first | (simp only [List.length_cons] at *; grind) | grind

theorem length_afterBlock {cs rest : List Char} (h : afterComment?.afterBlock cs = some rest) :
    rest.length ≤ cs.length := by
  fun_induction afterComment?.afterBlock cs <;>
    first | (simp only [List.length_cons] at *; grind) | grind

theorem length_afterComment? {cs rest : List Char} (h : afterComment? cs = some rest) :
    rest.length ≤ cs.length := by
  unfold afterComment? at h
  split at h
  · rename_i rest'
    have := (List.dropWhile_sublist (l := rest') (!isLineTerminator ·)).length_le
    grind
  · have := length_afterBlock h
    simp only [List.length_cons]; omega
  · simp at h

/-- The tokens of a text. -/
def scan? : List Char → Option (List Token)
  | [] => some []
  | c :: cs =>
    if isBlank c then scan? cs
    else
      match Token.punctuation? c with
      | some t => (scan? cs).map (t :: ·)
      | none =>
        if c = '/' then
          match h : afterComment? cs with
          | none => none
          | some rest =>
            have := length_afterComment? h
            scan? rest
        else if c = '"' ∨ c = '\'' then
          match h : stringBody c [] cs with
          | none => none
          | some (text, rest) =>
            have : rest.length < cs.length := length_stringBody h
            (scan? rest).map (.str (some (.ofList text)) :: ·)
        else if startsNumber c then
          let literal := c :: cs.takeWhile isNumberPart
          have : (cs.dropWhile isNumberPart).length ≤ cs.length :=
            (List.dropWhile_sublist _).length_le
          if isNumber literal then
            (scan? (cs.dropWhile isNumberPart)).map (.num (.ofList literal) :: ·)
          else none
        else if isIdentStart c then
          match h : wordBody [c] cs with
          | none => none
          | some (text, rest) =>
            have : rest.length ≤ cs.length := length_wordBody h
            (scan? rest).map (.word (.ofList text) :: ·)
        else if c = '\\' then
          match wordBody [] (c :: cs) with
          | none => none
          | some (text, rest) =>
            if rest.length ≤ cs.length then
              (scan? rest).map (.word (.ofList text) :: ·)
            else none
        else none
termination_by cs => cs.length

/-- Reads a text in the relaxed form. -/
def parse? (text : String) : Option Value := (scan? text.toList).bind Form.relaxed.build?

end ModuleWorkers.Json.Relaxed
