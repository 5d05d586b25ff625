/-!
# Bytes that are no UTF-8

Where the first sequence of bytes is that is no character, and how many bytes of it are read before
that is clear.
-/

namespace ModuleWorkers.Text

/-- What is wrong with bytes, by the index at which it starts. -/
inductive Utf8Fault
  | invalid (length index : Nat)
  /-- The bytes end inside a character. -/
  | incomplete (index : Nat)
  deriving DecidableEq, Inhabited, Repr

namespace Utf8Fault

def message : Utf8Fault → String
  | invalid length index => s!"invalid utf-8 sequence of {length} bytes from index {index}"
  | incomplete index => s!"incomplete utf-8 byte sequence from index {index}"

/-- The ranges of the bytes that may follow a first byte, which leave out characters that are
written too long and halves of surrogate pairs. -/
def rangesAfter (first : UInt8) : Option (List (UInt8 × UInt8)) :=
  let any : UInt8 × UInt8 := (0x80, 0xBF)
  if first < 0x80 then some []
  else if first < 0xC2 then none
  else if first < 0xE0 then some [any]
  else if first < 0xF0 then
    some [(if first = 0xE0 then 0xA0 else 0x80, if first = 0xED then 0x9F else 0xBF), any]
  else if first < 0xF5 then
    some [(if first = 0xF0 then 0x90 else 0x80, if first = 0xF4 then 0x8F else 0xBF), any, any]
  else none

/-- Reads the bytes of a character after those that were read. -/
def readCharacter (index read : Nat) :
    List (UInt8 × UInt8) → List UInt8 → Except Utf8Fault (List UInt8)
  | [], bytes => .ok bytes
  | _ :: _, [] => .error (incomplete index)
  | (low, high) :: ranges, b :: bytes =>
    if low ≤ b ∧ b ≤ high then readCharacter index (read + 1) ranges bytes
    else .error (invalid read index)

theorem length_readCharacter {index read : Nat} {ranges : List (UInt8 × UInt8)}
    {bytes rest : List UInt8} (h : readCharacter index read ranges bytes = .ok rest) :
    rest.length ≤ bytes.length := by
  fun_induction readCharacter index read ranges bytes <;> grind

/-- The first fault from an index on; the end of the bytes if there is none. -/
def firstFrom (index : Nat) : List UInt8 → Utf8Fault
  | [] => incomplete index
  | b :: bytes =>
    match rangesAfter b with
    | none => invalid 1 index
    | some ranges =>
      match h : readCharacter index 1 ranges bytes with
      | .error fault => fault
      | .ok rest =>
        have := length_readCharacter h
        firstFrom (index + 1 + ranges.length) rest
termination_by bytes => bytes.length

/-- The first fault of bytes that are no text. -/
def first (bytes : ByteArray) : Utf8Fault := firstFrom 0 bytes.toList

end Utf8Fault

end ModuleWorkers.Text
