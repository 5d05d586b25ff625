import ModuleWorkers.Json.Fault
import ModuleWorkers.Json.Number
import ModuleWorkers.Json.Quoted
/-!
# Finding what is wrong with a JSON text

Reads a text that should hold a record, byte by byte, and tells the first fault: in the grammar, or
of a value that is not of the kind that its field asks for. Nothing is kept of what is read.
-/

namespace ModuleWorkers.Json.Diagnosis

/-- The bytes that are left, and the number of those that were read. -/
structure ByteCursor where
  rest : List UInt8
  index : Nat := 0
  deriving Inhabited, Repr

/-- A cause and the number of bytes to count for its place. -/
abbrev Step (α : Type) := Except (FaultCause × Nat) α

def byte (c : Char) : UInt8 := c.toNat.toUInt8

def isDigit (b : UInt8) : Bool := byte '0' ≤ b && b ≤ byte '9'

namespace ByteCursor

def peek? (c : ByteCursor) : Option UInt8 := c.rest.head?

def next (c : ByteCursor) : ByteCursor := { rest := c.rest.tail, index := c.index + 1 }

def sees (c : ByteCursor) (char : Char) : Bool := c.peek? == some (byte char)

def skipWhile (p : UInt8 → Bool) (c : ByteCursor) : ByteCursor :=
  { rest := c.rest.dropWhile p, index := c.index + (c.rest.takeWhile p).length }

def skipBlanks (c : ByteCursor) : ByteCursor :=
  c.skipWhile fun b => b == 32 || b == 10 || b == 9 || b == 13

/-- A fault in front of the next byte. -/
def fail {α : Type} (c : ByteCursor) (cause : FaultCause) : Step α := .error (cause, c.index)

/-- A fault of the next byte, which counts as read. -/
def failNext {α : Type} (c : ByteCursor) (cause : FaultCause) : Step α :=
  .error (cause, if c.rest.isEmpty then c.index else c.index + 1)

/-- A fault of the next byte, or of the end of the text. -/
def failOr {α : Type} (c : ByteCursor) (atEnd cause : FaultCause) : Step α :=
  c.failNext (if c.rest.isEmpty then atEnd else cause)

/-- Reads the letters of a word. -/
def word (c : ByteCursor) : List Char → Step ByteCursor
  | [] => .ok c
  | l :: ls =>
    if c.rest.isEmpty then c.fail .endInValue
    else if c.sees l then c.next.word ls
    else c.next.fail .noWord

end ByteCursor

open ByteCursor

/-! ## Strings -/

/-- Reads four hexadecimal digits. -/
def hexEscape (c : ByteCursor) : Step (Nat × ByteCursor) :=
  match c.rest with
  | x :: y :: z :: w :: rest =>
    let after : ByteCursor := { rest, index := c.index + 4 }
    let char (b : UInt8) : Char := .ofNat b.toNat
    match hex4? (char x) (char y) (char z) (char w) with
    | some n => .ok (n, after)
    | none => after.fail .invalidEscape
  | _ => .error (.endInString, c.index + c.rest.length)

/-- Reads the second half of a surrogate pair. -/
def secondHalf (c : ByteCursor) : Step (Nat × ByteCursor) := do
  if c.rest.isEmpty then c.fail .endInString
  else if !c.sees '\\' then c.next.fail .endOfEscape
  else if c.next.rest.isEmpty then c.next.fail .endInString
  else if !c.next.sees 'u' then c.next.next.fail .endOfEscape
  else
    let (n, c) ← hexEscape c.next.next
    if 0xDC00 ≤ n ∧ n < 0xE000 then .ok (n, c) else c.fail .loneSurrogate

/-- Reads a character that is written by its number. -/
def unicodeEscape (c : ByteCursor) : Step (Char × ByteCursor) := do
  let (n, c) ← hexEscape c
  if 0xDC00 ≤ n ∧ n < 0xE000 then c.fail .loneSurrogate
  else if 0xD800 ≤ n ∧ n < 0xDC00 then
    let (m, c) ← secondHalf c
    .ok (Quoted.ofPair n m, c)
  else .ok (.ofNat n, c)

/-- The characters that escapes of one letter stand for. -/
def escapes : List (UInt8 × Char) :=
  [(byte '"', '"'), (byte '\\', '\\'), (byte '/', '/'), (byte 'b', '\x08'), (byte 'f', '\x0c'),
    (byte 'n', '\n'), (byte 'r', '\r'), (byte 't', '\t')]

/-- Reads up to the closing quote and gives the bytes of the text. If the text does not matter,
halves of surrogate pairs may stand alone. -/
def stringBody (isIgnored : Bool) : Nat → List UInt8 → ByteCursor → Step (List UInt8 × ByteCursor)
  | 0, _, c => c.fail .endInString
  | fuel + 1, read, c =>
    match c.peek? with
    | none => c.fail .endInString
    | some b =>
      if b = byte '"' then .ok (read.reverse, c.next)
      else if b < 32 then (if isIgnored then c else c.next).fail .controlCharacter
      else if b = byte '\\' then
        match c.next.peek? with
        | none => c.next.fail .endInString
        | some e =>
          let after := c.next.next
          match escapes.lookup e with
          | some char => stringBody isIgnored fuel (byte char :: read) after
          | none =>
            if e ≠ byte 'u' then after.fail .invalidEscape
            else if isIgnored then do stringBody isIgnored fuel read (← hexEscape after).2
            else do
              let (char, after) ← unicodeEscape after
              stringBody isIgnored fuel ((String.singleton char).toUTF8.toList.reverse ++ read) after
      else stringBody isIgnored fuel (b :: read) c.next

/-- Reads a string after its opening quote. -/
def string (isIgnored : Bool) (c : ByteCursor) : Step (List UInt8 × ByteCursor) :=
  stringBody isIgnored (c.rest.length + 1) [] c

/-! ## Numbers -/

def exponent (c : ByteCursor) : Step ByteCursor :=
  let c := c.next
  let c := if c.sees '+' || c.sees '-' then c.next else c
  if c.peek?.any isDigit then .ok (c.skipWhile isDigit)
  else if c.rest.isEmpty then c.fail .endInValue
  else c.next.fail .invalidNumber

def afterDigits (c : ByteCursor) : Step ByteCursor :=
  if c.sees 'e' || c.sees 'E' then exponent c else .ok c

def afterWhole (c : ByteCursor) : Step ByteCursor :=
  if c.sees '.' then
    let part := c.next
    if part.peek?.any isDigit then afterDigits (part.skipWhile isDigit)
    else part.failOr .endInValue .invalidNumber
  else afterDigits c

/-- Reads a number after its sign. -/
def unsigned (c : ByteCursor) : Step ByteCursor :=
  if c.rest.isEmpty then c.fail .endInValue
  else if !c.peek?.any isDigit then c.next.fail .invalidNumber
  else if c.sees '0' && c.next.peek?.any isDigit then c.next.failNext .invalidNumber
  else afterWhole (c.skipWhile isDigit)

def number (c : ByteCursor) : Step ByteCursor := unsigned (if c.sees '-' then c.next else c)

/-- What a number is called. -/
def describeNumber (literal : List Char) : String :=
  let digits := literal.dropWhile (· == '-')
  let isNegative := literal.head? == some '-'
  let n := Number.value digits
  let isInteger := digits.all Char.isDigit &&
    if isNegative then decide (0 < n ∧ n ≤ 1 <<< 63) else decide (n < 1 <<< 64)
  (if isInteger then "integer `" else "floating point `") ++ .ofList literal ++ "`"

/-! ## Values that do not matter -/

/-- Reads a value without parts. -/
def ignoreScalar (c : ByteCursor) : Step ByteCursor :=
  match c.peek? with
  | none => c.failNext .endInValue
  | some b =>
    if b = byte 'n' then c.next.word "ull".toList
    else if b = byte 't' then c.next.word "rue".toList
    else if b = byte 'f' then c.next.word "alse".toList
    else if b = byte '-' || isDigit b then
      (number c).mapError fun (cause, index) =>
        (if cause = .endInValue then .invalidNumber else cause, index)
    else if b = byte '"' then (string true c.next).map (·.2)
    else c.failNext .noValue

/-- The fault of a text that ends inside brackets. -/
def endIn (bracket : Char) : FaultCause := if bracket = '[' then .endInList else .endInObject

/-- Reads a key and its colon. -/
def ignoreKey (c : ByteCursor) : Step ByteCursor := do
  let c := c.skipBlanks
  if c.sees '"' then
    let c := (← string true c.next).2.skipBlanks
    if c.sees ':' then .ok c.next else c.failOr .endInObject .noColon
  else c.failOr .endInObject .keyNotText

/-- Reads what comes after a value inside brackets, the innermost first: up to a comma, or to the
end of the outermost brackets. -/
def afterValue : List Char → ByteCursor → Step (List Char × ByteCursor)
  | [], c => .ok ([], c)
  | bracket :: outer, c =>
    let c := c.skipBlanks
    let close := if bracket = '[' then ']' else '}'
    if c.sees ',' then .ok (bracket :: outer, c.next)
    else if c.sees close then afterValue outer c.next
    else c.failOr (endIn bracket) (if bracket = '[' then .noListEnd else .noObjectEnd)

/-- Reads values up to the end of the outermost brackets. -/
def ignoreValues : Nat → List Char → ByteCursor → Step ByteCursor
  | 0, _, c => .ok c
  | fuel + 1, brackets, c => do
    let c ← if brackets.head? = some '{' then ignoreKey c else .ok c
    let c := c.skipBlanks
    let opened : Option Char :=
      if c.sees '[' then some '[' else if c.sees '{' then some '{' else none
    match opened with
    | some bracket =>
      let inner := c.next.skipBlanks
      let close := if bracket = '[' then ']' else '}'
      if inner.sees close then
        let (brackets, c) ← afterValue brackets inner.next
        if brackets.isEmpty then .ok c else ignoreValues fuel brackets c
      else if inner.rest.isEmpty then inner.failNext (endIn bracket)
      else ignoreValues fuel (bracket :: brackets) inner
    | none =>
      let (brackets, c) ← afterValue brackets (← ignoreScalar c)
      if brackets.isEmpty then .ok c else ignoreValues fuel brackets c

def ignore (c : ByteCursor) : Step ByteCursor := ignoreValues (c.rest.length + 1) [] c

/-! ## Values that matter -/

/-- A text in quotes as messages show it. -/
def shown (bytes : List UInt8) : String :=
  let escape (c : Char) : List Char :=
    if c = '"' then ['\\', '"'] else if c = '\\' then ['\\', '\\']
    else if c = '\n' then ['\\', 'n'] else if c = '\r' then ['\\', 'r']
    else if c = '\t' then ['\\', 't'] else if c = '\x00' then ['\\', '0']
    else if c.toNat < 32 ∨ c.toNat = 127 then
      ['\\', 'u', '{'] ++ Nat.toDigits 16 c.toNat ++ ['}']
    else [c]
  let text := (String.fromUTF8? ⟨bytes.toArray⟩).getD ""
  "\"" ++ .ofList (text.toList.flatMap escape) ++ "\""

/-- The fault of a value of another kind than is expected. -/
def wrongKind {α : Type} (expected : String) (c : ByteCursor) : Step α := do
  let found (name : String) (c : ByteCursor) : Step α := c.fail (.wrongKind name expected)
  match c.peek? with
  | none => c.failNext .endInValue
  | some b =>
    if b = byte 'n' then found "null" (← c.next.word "ull".toList)
    else if b = byte 't' then found "boolean `true`" (← c.next.word "rue".toList)
    else if b = byte 'f' then found "boolean `false`" (← c.next.word "alse".toList)
    else if b = byte '-' || isDigit b then
      let after ← number c
      let literal := (c.rest.take (after.index - c.index)).map fun b => Char.ofNat b.toNat
      if (Number.decimal? literal).any Number.Decimal.isFinite then
        found (describeNumber literal) after
      else after.fail .numberOutOfRange
    else if b = byte '"' then
      let (text, after) ← string false c.next
      found ("string " ++ shown text) after
    else if b = byte '[' then found "sequence" c
    else if b = byte '{' then found "map" c
    else c.failNext .noValue

/-- Whether there is one more item in a list, which starts after blanks. -/
def nextItem (isFirst : Bool) (c : ByteCursor) : Step (Option ByteCursor) :=
  let c := c.skipBlanks
  if c.rest.isEmpty then c.failNext .endInList
  else if c.sees ']' then .ok none
  else if isFirst then .ok (some c)
  else if c.sees ',' then
    let c := c.next.skipBlanks
    if c.sees ']' then c.failNext .trailingComma
    else if c.rest.isEmpty then c.failNext .endInValue
    else .ok (some c)
  else c.failNext .noListEnd

/-- Reads items up to the closing bracket. -/
def items (read : ByteCursor → Step ByteCursor) : Nat → Bool → ByteCursor → Step ByteCursor
  | 0, _, c => .ok c
  | fuel + 1, isFirst, c => do
    match ← nextItem isFirst c with
    | none => .ok c.skipBlanks.next
    | some c => items read fuel false (← read c)

/-- What a field asks for. -/
inductive Shape
  | text
  | orNull (shape : Shape)
  | list (shape : Shape)
  deriving Inhabited, Repr

def Shape.read : Shape → ByteCursor → Step ByteCursor
  | text, c => do
    let c := c.skipBlanks
    if c.sees '"' then .ok (← string false c.next).2 else wrongKind "a string" c
  | orNull shape, c =>
    let c := c.skipBlanks
    if c.sees 'n' then c.next.word "ull".toList else shape.read c
  | list shape, c =>
    let c := c.skipBlanks
    if c.sees '[' then items shape.read c.rest.length true c.next else wrongKind "a sequence" c

/-- A field of a record. -/
structure Field where
  name : String
  shape : Shape
  isRequired : Bool := false
  deriving Inhabited, Repr

/-- A kind of record, by its name. -/
structure RecordShape where
  name : String
  fields : List Field
  deriving Inhabited, Repr

/-- The place of a fault of a whole record, which counts its closing bracket if that is next. -/
def failWhole {α : Type} (close : Char) (c : ByteCursor) (cause : FaultCause) : Step α :=
  let c := c.skipBlanks
  (if c.sees close then c.next else c).fail cause

/-- Reads the fields of a record that is written as a list. -/
def listed (r : RecordShape) : Nat → ByteCursor → List Field → Step ByteCursor
  | _, c, [] => .ok c
  | read, c, f :: fs => do
    match ← nextItem (read == 0) c with
    | some c => listed r (read + 1) (← f.shape.read c) fs
    | none =>
      if f.isRequired then
        failWhole ']' c
          (.wrongLength read s!"struct {r.name} with {r.fields.length} elements")
      else listed r (read + 1) c fs

/-- Reads the end of a record that is written as a list. -/
def listEnd (c : ByteCursor) : Step ByteCursor :=
  let c := c.skipBlanks
  if c.sees ']' then .ok c.next
  else if c.sees ',' then
    let c := c.next.skipBlanks
    c.failNext (if c.sees ']' then .trailingComma else .trailingText)
  else c.failOr .endInList .trailingText

/-- Whether there is one more member in an object; its key is next. -/
def nextMember (isFirst : Bool) (c : ByteCursor) : Step (Option ByteCursor) :=
  let c := c.skipBlanks
  if c.rest.isEmpty then c.failNext .endInObject
  else if c.sees '}' then .ok none
  else if isFirst then if c.sees '"' then .ok (some c) else c.failNext .keyNotText
  else if c.sees ',' then
    let c := c.next.skipBlanks
    if c.sees '"' then .ok (some c)
    else if c.sees '}' then c.failNext .trailingComma
    else c.failOr .endInValue .keyNotText
  else c.failNext .noObjectEnd

/-- Reads the colon after a key. -/
def colon (c : ByteCursor) : Step ByteCursor :=
  let c := c.skipBlanks
  if c.sees ':' then .ok c.next else c.failOr .endInObject .noColon

/-- Reads the members of a record, given the names of the fields that were read. -/
def members (r : RecordShape) : Nat → List String → ByteCursor → Step ByteCursor
  | 0, _, c => .ok c
  | fuel + 1, seen, c => do
    match ← nextMember seen.isEmpty c with
    | none =>
      match r.fields.find? fun f => f.isRequired && !seen.contains f.name with
      | some f => failWhole '}' c (.missingField f.name)
      | none => .ok c.skipBlanks.next
    | some c =>
      let (key, c) ← string false c.next
      let name := (String.fromUTF8? ⟨key.toArray⟩).getD ""
      match r.fields.find? (·.name == name) with
      | none => members r fuel (name :: seen) (← ignore (← colon c))
      | some f =>
        if seen.contains name then failWhole '}' c (.duplicateField name)
        else members r fuel (name :: seen) (← f.shape.read (← colon c))

/-- Reads a record. -/
def record (r : RecordShape) (c : ByteCursor) : Step ByteCursor := do
  let c := c.skipBlanks
  if c.sees '[' then listEnd (← listed r 0 c.next r.fields)
  else if c.sees '{' then members r c.rest.length [] c.next
  else wrongKind ("struct " ++ r.name) c

/-- The first fault of a text that should hold a record and nothing else. -/
def fault? (r : RecordShape) (text : String) : Option Fault :=
  let bytes := text.toUTF8.toList
  let read : Step Unit := do
    let c := (← record r { rest := bytes }).skipBlanks
    if c.rest.isEmpty then .ok () else c.failNext .trailingText
  match read with
  | .ok () => none
  | .error (cause, index) => some (.ofPlace bytes cause index)

end ModuleWorkers.Json.Diagnosis
