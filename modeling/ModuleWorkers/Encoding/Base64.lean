/-!
# Base 64

Bytes as digits of six bits. Writing pads to a multiple of four digits; reading forgives blanks and
missing padding, but not misplaced padding.
-/

namespace ModuleWorkers.Base64

/-- The digit of a number below 64. -/
def digit (n : Nat) : Char :=
  if n < 26 then .ofNat (65 + n)
  else if n < 52 then .ofNat (71 + n)
  else if n < 62 then .ofNat (n - 4)
  else if n = 62 then '+'
  else '/'

/-- The number of a digit. -/
def value? (c : Char) : Option Nat :=
  let n := c.toNat
  if 65 ≤ n ∧ n ≤ 90 then some (n - 65)
  else if 97 ≤ n ∧ n ≤ 122 then some (n - 71)
  else if 48 ≤ n ∧ n ≤ 57 then some (n + 4)
  else if c = '+' then some 62
  else if c = '/' then some 63
  else none

theorem value?_digit {n : Nat} (h : n < 64) : value? (digit n) = some n := by
  have : ∀ k : Fin 64, value? (digit k.val) = some k.val := by decide
  exact this ⟨n, h⟩

/-- Bytes as digits, with padding. -/
def encode : List UInt8 → List Char
  | [] => []
  | [a] =>
    let a := a.toNat
    [digit (a / 4), digit (a % 4 * 16), '=', '=']
  | [a, b] =>
    let (a, b) := (a.toNat, b.toNat)
    [digit (a / 4), digit (a % 4 * 16 + b / 16), digit (b % 16 * 4), '=']
  | a :: b :: c :: rest =>
    let (a, b, c) := (a.toNat, b.toNat, c.toNat)
    digit (a / 4) :: digit (a % 4 * 16 + b / 16) :: digit (b % 16 * 4 + c / 64) :: digit (c % 64) ::
      encode rest

/-- The digits in front of the padding, and how much padding there is. Blanks do not matter, and
nothing else may follow padding. -/
def unpad (digits : List Nat) (padding : Nat) : List Char → Option (List Nat × Nat)
  | [] => some (digits.reverse, padding)
  | c :: cs =>
    if c = ' ' ∨ c = '\t' ∨ c = '\n' ∨ c = '\r' ∨ c = '\x0c' then unpad digits padding cs
    else if c = '=' then unpad digits (padding + 1) cs
    else
      match value? c with
      | some n => if padding = 0 then unpad (n :: digits) 0 cs else none
      | none => none

/-- The bytes that digits stand for; bits left over do not matter. Gives the number of digits in the
last group, if it is not full. -/
def bytes (read : List UInt8) : List Nat → List UInt8 × Nat
  | a :: b :: c :: d :: rest =>
    bytes (.ofNat (c % 4 * 64 + d) :: .ofNat (b % 16 * 16 + c / 4) :: .ofNat (a * 4 + b / 16) :: read)
      rest
  | [a, b, c] => ((.ofNat (b % 16 * 16 + c / 4) :: .ofNat (a * 4 + b / 16) :: read).reverse, 3)
  | [a, b] => ((.ofNat (a * 4 + b / 16) :: read).reverse, 2)
  | [_] => (read.reverse, 1)
  | [] => (read.reverse, 0)

/-- Reads digits, forgiving blanks and missing padding. -/
def decode? (cs : List Char) : Option (List UInt8) := do
  let (digits, padding) ← unpad [] 0 cs
  let (read, last) := bytes [] digits
  if padding = 0 then if last = 1 then none else some read
  else if last + padding = 4 ∧ last ≠ 1 then some read
  else none

end ModuleWorkers.Base64
