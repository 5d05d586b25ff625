/-!
# Quoted strings

How a text stands in a JSON text: between double quotes, with a backslash before quotes and
backslashes, short escapes where there are some, and `\u00xx` for the other controls. Nothing else
is escaped. `decode?_encode` says that a quoted text reads back.
-/

namespace ModuleWorkers.Json

/-- The hexadecimal digit of a number below sixteen, in lower case. -/
def hexDigit (n : Nat) : Char := if n < 10 then .ofNat (48 + n) else .ofNat (87 + n)

/-- The number of a hexadecimal digit. -/
def hexValue? (c : Char) : Option Nat :=
  let n := c.toNat
  if 48 ≤ n ∧ n ≤ 57 then some (n - 48)
  else if 97 ≤ n ∧ n ≤ 102 then some (n - 87)
  else if 65 ≤ n ∧ n ≤ 70 then some (n - 55)
  else none

/-- The number that four hexadecimal digits make. -/
def hex4? (a b c d : Char) : Option Nat := do
  return (((← hexValue? a) * 16 + (← hexValue? b)) * 16 + (← hexValue? c)) * 16 + (← hexValue? d)

namespace Quoted

/-- The letter of the short escape of a character. -/
def escapeLetter? : Char → Option Char
  | '"' => some '"'
  | '\\' => some '\\'
  | '\x08' => some 'b'
  | '\x0c' => some 'f'
  | '\n' => some 'n'
  | '\r' => some 'r'
  | '\t' => some 't'
  | _ => none

/-- A character between quotes. -/
def encodeChar (c : Char) : List Char :=
  match escapeLetter? c with
  | some e => ['\\', e]
  | none =>
    if c.toNat < 32 then ['\\', 'u', '0', '0', hexDigit (c.toNat / 16), hexDigit (c.toNat % 16)]
    else [c]

/-- A quoted text. -/
def encode (cs : List Char) : List Char := '"' :: cs.flatMap encodeChar ++ ['"']

/-- A text, quoted. -/
def quote (s : String) : String := .ofList (encode s.toList)

/-- What a short escape stands for. -/
def shortEscape? : Char → Option Char
  | '"' => some '"'
  | '\\' => some '\\'
  | '/' => some '/'
  | 'b' => some '\x08'
  | 'f' => some '\x0c'
  | 'n' => some '\n'
  | 'r' => some '\r'
  | 't' => some '\t'
  | _ => none

/-- The text read so far, last character first, unless it holds half of a surrogate pair. -/
abbrev Read := Option (List Char)

def push (c : Char) (read : Read) : Read := read.map (c :: ·)

/-- The character of a pair of surrogates. -/
def ofPair (high low : Nat) : Char := .ofNat (0x10000 + (high - 0xD800) * 0x400 + (low - 0xDC00))

/-- Reads up to the closing quote, and gives the text and what follows. -/
def decodeBody (read : Read) : List Char → Option (Read × List Char)
  | [] => none
  | '"' :: rest => some (read.map List.reverse, rest)
  | '\\' :: 'u' :: a :: b :: c :: d :: rest =>
    match hex4? a b c d with
    | none => none
    | some n =>
      if 0xD800 ≤ n ∧ n < 0xDC00 then
        match rest with
        | '\\' :: 'u' :: e :: f :: g :: h :: rest' =>
          match hex4? e f g h with
          | none => none
          | some m =>
            if 0xDC00 ≤ m ∧ m < 0xE000 then decodeBody (push (ofPair n m) read) rest'
            else decodeBody none ('\\' :: 'u' :: e :: f :: g :: h :: rest')
        | rest => decodeBody none rest
      else if 0xDC00 ≤ n ∧ n < 0xE000 then decodeBody none rest
      else decodeBody (push (.ofNat n) read) rest
  | '\\' :: c :: rest =>
    match shortEscape? c with
    | none => none
    | some e => decodeBody (push e read) rest
  | c :: rest => if c.toNat < 32 then none else decodeBody (push c read) rest
termination_by cs => cs.length

/-- Reads a quoted string at the start of a text. -/
def decode? : List Char → Option (Read × List Char)
  | '"' :: rest => decodeBody (some []) rest
  | _ => none

theorem hexValue?_hexDigit {n : Nat} (h : n < 16) : hexValue? (hexDigit n) = some n := by
  have : n = 0 ∨ n = 1 ∨ n = 2 ∨ n = 3 ∨ n = 4 ∨ n = 5 ∨ n = 6 ∨ n = 7 ∨ n = 8 ∨ n = 9 ∨ n = 10 ∨
      n = 11 ∨ n = 12 ∨ n = 13 ∨ n = 14 ∨ n = 15 := by omega
  rcases this with h | h | h | h | h | h | h | h | h | h | h | h | h | h | h | h <;> subst h <;> rfl

theorem shortEscape?_of_escapeLetter? {c e : Char} (h : escapeLetter? c = some e) :
    shortEscape? e = some c ∧ e ≠ 'u' := by
  unfold escapeLetter? at h
  split at h <;> simp_all [shortEscape?] <;> subst h <;> simp

theorem ne_of_escapeLetter?_eq_none {c : Char} (h : escapeLetter? c = none) :
    c ≠ '"' ∧ c ≠ '\\' := by
  constructor <;> rintro rfl <;> simp [escapeLetter?] at h

theorem decodeBody_encodeChar (c : Char) (acc rest : List Char) :
    decodeBody (some acc) (encodeChar c ++ rest) = decodeBody (some (c :: acc)) rest := by
  unfold encodeChar
  split
  · rename_i e he
    obtain ⟨hs, hu⟩ := shortEscape?_of_escapeLetter? he
    simp [decodeBody, hs, hu, push]
  · rename_i hn
    obtain ⟨hq, hb⟩ := ne_of_escapeLetter?_eq_none hn
    split
    · have hz : hexValue? '0' = some 0 := rfl
      have hd : hexValue? (hexDigit (c.toNat / 16)) = some (c.toNat / 16) :=
        hexValue?_hexDigit (by omega)
      have hm : hexValue? (hexDigit (c.toNat % 16)) = some (c.toNat % 16) :=
        hexValue?_hexDigit (by omega)
      have hc : c.toNat / 16 * 16 + c.toNat % 16 = c.toNat := by omega
      simp only [List.cons_append, List.nil_append]
      rw [decodeBody]
      simp only [hex4?, hz, hd, hm, Option.bind_eq_bind, Option.bind_some, Option.pure_def]
      simp [push, show ¬ 0xD800 ≤ c.toNat by omega, show ¬ 0xDC00 ≤ c.toNat by omega, hc]
    · rename_i h
      simp [decodeBody, hb, h, push]

/-- A quoted text reads back, whatever follows it. -/
theorem decode?_encode (cs rest : List Char) :
    decode? (encode cs ++ rest) = some (some cs, rest) := by
  suffices h : ∀ acc, decodeBody (some acc) (cs.flatMap encodeChar ++ '"' :: rest) =
      some (some (acc.reverse ++ cs), rest) by
    simpa [decode?, encode] using h []
  induction cs with
  | nil => simp [decodeBody]
  | cons c cs ih =>
    intro acc
    rw [List.flatMap_cons, List.append_assoc, decodeBody_encodeChar, ih]
    simp

end Quoted

end ModuleWorkers.Json
