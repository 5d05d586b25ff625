/-!
# Number literals

The grammar of numbers in JSON texts, and whether a decimal number is finite as a double.
-/

namespace ModuleWorkers.Json.Number

/-- A decimal number: its digits, how many of them stand after the point, and its exponent. -/
structure Decimal where
  digits : List Char
  places : Nat
  exponent : Int
  deriving Inhabited, Repr

def value (digits : List Char) : Nat := digits.foldl (fun n c => n * 10 + (c.toNat - 48)) 0

/-- The bound that decimals round to infinity from: halfway between the largest double and the
power of two after it. -/
def bound : Nat := 1 <<< 1024 - 1 <<< 970

/-- Whether the double nearest to a decimal is finite. -/
def Decimal.isFinite (d : Decimal) : Bool :=
  let m := value d.digits
  let e := d.exponent - d.places
  m == 0 ||
    if e < 0 then
      -- More digits than the exponent takes away and than a double can hold make it infinite.
      if e < -(d.digits.length : Int) then true else decide (m < bound * Nat.pow 10 (-e).toNat)
    else if e > 400 then false
    else decide (m * Nat.pow 10 e.toNat < bound)

/-- Splits off an exponent, which may be missing. -/
def exponent? : List Char → Option Int
  | [] => some 0
  | c :: rest =>
    if c = 'e' ∨ c = 'E' then
      let (negative, digits) := match rest with
        | '-' :: ds => (true, ds)
        | '+' :: ds => (false, ds)
        | ds => (false, ds)
      if digits.isEmpty || !digits.all Char.isDigit then none
      else some (if negative then -(value digits : Int) else value digits)
    else none

/-- Reads the digits of a JSON number after its sign. -/
def unsigned? (cs : List Char) : Option Decimal :=
  let whole := cs.takeWhile Char.isDigit
  let rest := cs.dropWhile Char.isDigit
  if whole.isEmpty || (whole.length > 1 && whole.head? == some '0') then none
  else
    match rest with
    | '.' :: rest =>
      let part := rest.takeWhile Char.isDigit
      if part.isEmpty then none
      else (exponent? (rest.dropWhile Char.isDigit)).map fun e => ⟨whole ++ part, part.length, e⟩
    | rest => (exponent? rest).map fun e => ⟨whole, 0, e⟩

/-- Reads a JSON number. -/
def decimal? : List Char → Option Decimal
  | '-' :: cs => unsigned? cs
  | cs => unsigned? cs

/-- Whether a character can be part of a number. -/
def isPart (c : Char) : Bool := c.isDigit || c == '-' || c == '+' || c == '.' || c == 'e' || c == 'E'

end ModuleWorkers.Json.Number
