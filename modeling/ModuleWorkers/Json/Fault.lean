/-!
# What is wrong with a JSON text

The causes for which a text is refused, and their wording, with the line and the byte on the line.
-/

namespace ModuleWorkers.Json

inductive FaultCause
  | endInList
  | endInObject
  | endInString
  | endInValue
  | noColon
  | noListEnd
  | noObjectEnd
  | noWord
  | noValue
  | invalidEscape
  | invalidNumber
  | numberOutOfRange
  | controlCharacter
  | keyNotText
  | loneSurrogate
  | trailingComma
  | trailingText
  | endOfEscape
  | wrongKind (found expected : String)
  | wrongLength (length : Nat) (expected : String)
  | missingField (name : String)
  | duplicateField (name : String)
  deriving DecidableEq, Inhabited, Repr

def FaultCause.message : FaultCause → String
  | endInList => "EOF while parsing a list"
  | endInObject => "EOF while parsing an object"
  | endInString => "EOF while parsing a string"
  | endInValue => "EOF while parsing a value"
  | noColon => "expected `:`"
  | noListEnd => "expected `,` or `]`"
  | noObjectEnd => "expected `,` or `\x7d`"
  | noWord => "expected ident"
  | noValue => "expected value"
  | invalidEscape => "invalid escape"
  | invalidNumber => "invalid number"
  | numberOutOfRange => "number out of range"
  | controlCharacter =>
    "control character (\\u0000-\\u001F) found while parsing a string"
  | keyNotText => "key must be a string"
  | loneSurrogate => "lone leading surrogate in hex escape"
  | trailingComma => "trailing comma"
  | trailingText => "trailing characters"
  | endOfEscape => "unexpected end of hex escape"
  | wrongKind found expected => s!"invalid type: {found}, expected {expected}"
  | wrongLength length expected => s!"invalid length {length}, expected {expected}"
  | missingField name => s!"missing field `{name}`"
  | duplicateField name => s!"duplicate field `{name}`"

/-- A cause and where it was found: the line, counted from one, and the bytes of the line that were
read. -/
structure Fault where
  cause : FaultCause
  line : Nat
  column : Nat
  deriving DecidableEq, Inhabited, Repr

namespace Fault

def message (f : Fault) : String := s!"{f.cause.message} at line {f.line} column {f.column}"

/-- A fault after a number of bytes. -/
def ofPlace (bytes : List UInt8) (cause : FaultCause) (index : Nat) : Fault :=
  let read := bytes.take index
  ⟨cause, read.count 10 + 1, (read.reverse.takeWhile (· != 10)).length⟩

end Fault

end ModuleWorkers.Json
