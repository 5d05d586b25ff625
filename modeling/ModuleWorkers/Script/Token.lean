import ModuleWorkers.Text.CharClass
import ModuleWorkers.Text.Cursor
import ModuleWorkers.Script.Fault
import ModuleWorkers.Script.Syntax
/-!
# Tokens of scripts

`Scan.token` reads the token after a cursor, past blanks and comments. A slash always reads as an
operator and a backtick as a token of its own: whether a regular expression or template text
follows is for the reader of expressions to know, who then calls `Scan.regex` or
`Scan.templateText` at the place.
-/

namespace ModuleWorkers.Script

open ModuleWorkers.Text

inductive Token
  | punct (text : String)
  | word (name : String) (isEscaped : Bool)
  | num (raw : String)
  | bigint (raw : String)
  | str (value raw : String)
  /-- A place where no token can be read. -/
  | invalid (failure : Failure)
  deriving DecidableEq, Inhabited, Repr

/-- A fault that scanning goes on after; `moduleOnly` faults count only in modules. -/
structure Complaint where
  failure : Failure
  moduleOnly : Bool := false
  deriving Inhabited

/-- A token with its place, the text from it on and after it, and what was found wrong on the way.
`none` is the end of the text. -/
structure Scanned where
  token : Option Token
  span : Span
  here : Cursor
  after : Cursor
  afterLineBreak : Bool
  complaints : List Complaint
  deriving Inhabited

namespace Scan

/-! ## Blanks and comments -/

/-- Moves to the end of the line. -/
def line (c : Cursor) : Cursor := (c.takeWhile fun a => !isLineTerminator a).2

/-- Moves past the end of a block comment, telling whether it spans lines. -/
def blockComment : List Char → Nat → Bool → Option (Cursor × Bool)
  | [], _, _ => none
  | '*' :: '/' :: rest, p, b => some (⟨rest, p + 2⟩, b)
  | a :: rest, p, b => blockComment rest (p + a.utf8Size) (b || isLineTerminator a)

/-- What stands between two tokens. -/
structure Gap where
  after : Cursor
  hasLineBreak : Bool
  complaints : List Complaint
  deriving Inhabited

/-- Moves past blanks and comments, at most `fuel` of them. `fresh` tells that only blanks and
comments stand before the cursor on its line. -/
def gap : Nat → Cursor → Bool → List Complaint → Gap
  | 0, c, b, es => ⟨c, b, es⟩
  | fuel + 1, c, b, es =>
    match c.rest with
    | [] => ⟨c, b, es⟩
    | a :: rest =>
      if isScriptBlank a then gap fuel c.step (b || isLineTerminator a) es
      else if c.startsWith ['/', '/'] then gap fuel (line c) b es
      else if c.startsWith ['/', '*'] then
        match blockComment (rest.drop 1) (c.position + 2) false with
        | some (c', b') => gap fuel c' (b || b') es
        | none =>
          let stop := c.position + byteLength c.rest
          ⟨⟨[], stop⟩, b, es ++ [⟨⟨.unterminatedComment, stop⟩, false⟩]⟩
      else if c.startsWith "<!--".toList || (b && c.startsWith "-->".toList) then
        gap fuel (line c) b (es ++ [⟨⟨.legacyComment, c.position⟩, true⟩])
      else ⟨c, b, es⟩

/-! ## Escapes -/

def hexValue? (c : Char) : Option Nat :=
  if '0' ≤ c && c ≤ '9' then some (c.toNat - '0'.toNat)
  else if 'a' ≤ c && c ≤ 'f' then some (c.toNat - 'a'.toNat + 10)
  else if 'A' ≤ c && c ≤ 'F' then some (c.toNat - 'A'.toNat + 10)
  else none

/-- The number written by hexadecimal digits, all of which must be ones. -/
def hexNumber? (cs : List Char) : Option Nat :=
  cs.foldlM (fun n c => (hexValue? c).map (n * 16 + ·)) 0

/-- Reads the rest of an escape after a backslash and `u`: a code unit or code point. -/
def unicodeEscape (c : Cursor) : Option (Nat × Cursor) :=
  match c.rest with
  | '{' :: rest =>
    let digits := rest.takeWhile fun a => (hexValue? a).isSome
    let after := rest.drop digits.length
    match digits, after with
    | [], _ => none
    | _, '}' :: _ => do
      let n ← hexNumber? digits
      if n ≤ 0x10FFFF then some (n, c.skip (digits.length + 2)) else none
    | _, _ => none
  | rest =>
    let digits := rest.take 4
    if digits.length == 4 then (hexNumber? digits).map (·, c.skip 4) else none

/-- The text of a code unit or code point; a surrogate without its partner is spelled out. -/
def codeText (n : Nat) : List Char :=
  if 0xD800 ≤ n && n ≤ 0xDFFF then ['\\', 'u'] ++ Nat.toDigits 16 n else [Char.ofNat n]

/-- The text of an escaped code unit, joined with a following escape when the two are a pair of
surrogates. -/
def surrogates (n : Nat) (c : Cursor) : List Char × Cursor :=
  if 0xD800 ≤ n && n ≤ 0xDBFF && c.startsWith ['\\', 'u'] then
    match unicodeEscape (c.skip 2) with
    | some (m, c') =>
      if 0xDC00 ≤ m && m ≤ 0xDFFF then
        ([Char.ofNat (0x10000 + (n - 0xD800) * 0x400 + (m - 0xDC00))], c')
      else (codeText n, c)
    | none => (codeText n, c)
  else (codeText n, c)

/-- What an escape sequence stands for. -/
structure Escape where
  value : List Char
  after : Cursor
  isOctal : Bool := false

def isOctalDigit (c : Char) : Bool := '0' ≤ c && c ≤ '7'

/-- Reads the rest of an escape after its backslash; `none` when it is malformed. -/
def escape (c : Cursor) : Option Escape :=
  match c.rest with
  | [] => none
  | a :: rest =>
    match a with
    | 'n' => some { value := ['\n'], after := c.step }
    | 't' => some { value := ['\t'], after := c.step }
    | 'r' => some { value := ['\r'], after := c.step }
    | 'b' => some { value := ['\x08'], after := c.step }
    | 'v' => some { value := ['\x0b'], after := c.step }
    | 'f' => some { value := ['\x0c'], after := c.step }
    | '\r' =>
      some { value := [], after := if rest.head? == some '\n' then c.skip 2 else c.step }
    | '\n' => some { value := [], after := c.step }
    | '\u2028' => some { value := [], after := c.step }
    | '\u2029' => some { value := [], after := c.step }
    | 'x' =>
      let digits := rest.take 2
      if digits.length == 2 then
        (hexNumber? digits).map fun n => { value := [Char.ofNat n], after := c.skip 3 }
      else none
    | 'u' => (unicodeEscape c.step).map fun (n, c') =>
        let (value, after) := surrogates n c'
        { value, after }
    | _ =>
      if isOctalDigit a then
        let digits := (a :: rest).takeWhile isOctalDigit
        let digits := if a ≤ '3' then digits.take 3 else digits.take 2
        let n := digits.foldl (fun n d => n * 8 + (d.toNat - '0'.toNat)) 0
        let isZero := digits == ['0'] && !(rest.head?.any Char.isDigit)
        some { value := [Char.ofNat n], after := c.skip digits.length, isOctal := !isZero }
      else some { value := [a], after := c.step }

/-! ## Literals -/

/-- Reads the rest of a string after its opening quote. A string cut off by the end of its line is
complained about and ends there. -/
def string (quote : Char) (start : Nat) :
    Nat → Cursor → List Char → List Char → List Complaint → Token × Cursor × List Complaint
  | 0, c, value, raw, es => (.str (.ofList value.reverse) (.ofList raw.reverse), c, es)
  | fuel + 1, c, value, raw, es =>
    match c.rest with
    | [] =>
      (.str (.ofList value.reverse) (.ofList raw.reverse), c,
        es ++ [⟨⟨.unterminatedString, start⟩, false⟩])
    | a :: rest =>
      if a == quote then
        (.str (.ofList value.reverse) (.ofList (a :: raw).reverse), c.step, es)
      else if a == '\n' || a == '\r' then
        (.str (.ofList value.reverse) (.ofList raw.reverse), c,
          es ++ [⟨⟨.unterminatedString, start⟩, false⟩])
      else if a == '\\' then
        match escape c.step with
        | none => (.invalid ⟨.badEscape, c.position⟩, c.skip 2, es)
        | some e =>
          let length := c.rest.length - e.after.rest.length
          let es := if e.isOctal then es ++ [⟨⟨.legacyOctal, c.position⟩, true⟩] else es
          string quote start fuel e.after (e.value.reverse ++ value)
            ((a :: rest).take length |>.reverse |> (· ++ raw)) es
      else string quote start fuel c.step (a :: value) (a :: raw) es

def isDigitOf (radix : Nat) (c : Char) : Bool := (hexValue? c).any (· < radix)

/-- Reads digits with separators between them. -/
def digits (radix : Nat) (c : Cursor) : List Char × Cursor × List Complaint :=
  let (taken, c') := c.takeWhile fun a => a == '_' || isDigitOf radix a
  let misplaced := taken.head? == some '_' || taken.getLast? == some '_' ||
    (taken.zip (taken.drop 1)).any (· == ('_', '_'))
  (taken, c', if misplaced then [⟨⟨.separatorPlacement, c.position⟩, false⟩] else [])

/-- The complaint about a letter straight after a number. -/
def afterNumber (c : Cursor) : Option Failure :=
  if c.rest.head?.any fun a => isIdentStart a || a == '\\' then
    some ⟨.identifierAfterNumber, c.position⟩
  else none

/-- Reads a number from its first digit or its point on. -/
def number (c : Cursor) : Token × Cursor × List Complaint :=
  let finish (token : Token) (c : Cursor) (es : List Complaint) :=
    match afterNumber c with
    | some f => (Token.invalid f, c, es)
    | none => (token, c, es)
  let radixNumber (radix : Nat) :=
    let (ds, c', es) := digits radix (c.skip 2)
    if ds.isEmpty then (Token.invalid ⟨.digitExpected radix, c.position + 2⟩, c', es)
    else
      let raw := c.rest.take 2 ++ ds
      if c'.next? == some 'n' then finish (.bigint (.ofList (raw ++ ['n']))) c'.step es
      else finish (.num (.ofList raw)) c' es
  match c.rest with
  | '0' :: 'x' :: _ => radixNumber 16
  | '0' :: 'X' :: _ => radixNumber 16
  | '0' :: 'o' :: _ => radixNumber 8
  | '0' :: 'O' :: _ => radixNumber 8
  | '0' :: 'b' :: _ => radixNumber 2
  | '0' :: 'B' :: _ => radixNumber 2
  | _ =>
    let (whole, c₁, es₁) := digits 10 c
    let isLegacy := whole.length > 1 && whole.head? == some '0'
    let es₁ := if isLegacy then es₁ ++ [⟨⟨.legacyOctal, c.position⟩, true⟩] else es₁
    let isOctal := isLegacy && whole.all isOctalDigit
    if c₁.next? == some 'n' && !whole.isEmpty && !isLegacy then
      finish (.bigint (.ofList (whole ++ ['n']))) c₁.step es₁
    else
      let (fraction, c₂, es₂) :=
        if c₁.next? == some '.' && !isOctal then
          let (ds, c', es) := digits 10 c₁.step
          ('.' :: ds, c', es)
        else ([], c₁, [])
      let es := es₁ ++ es₂
      match c₂.rest with
      | e :: rest =>
        if (e == 'e' || e == 'E') && !isOctal then
          let sign := (rest.take 1).filter fun a => a == '+' || a == '-'
          let c' := c₂.skip (1 + sign.length)
          let (ds, c₃, es₃) := digits 10 c'
          if ds.isEmpty then (.invalid ⟨.exponentExpected, c'.position⟩, c₃, es ++ es₃)
          else finish (.num (.ofList (whole ++ fraction ++ (e :: sign) ++ ds))) c₃ (es ++ es₃)
        else finish (.num (.ofList (whole ++ fraction))) c₂ es
      | [] => finish (.num (.ofList (whole ++ fraction))) c₂ es

/-- Reads a name, which may be written with escapes. -/
def word : Nat → Cursor → List Char → Bool → Except Failure (List Char × Bool × Cursor)
  | 0, c, name, escaped => .ok (name.reverse, escaped, c)
  | fuel + 1, c, name, escaped =>
    match c.rest with
    | '\\' :: 'u' :: _ =>
      match unicodeEscape (c.skip 2) with
      | some (n, c') =>
        let a := Char.ofNat n
        if (if name.isEmpty then isIdentStart a else isIdentPart a) then
          word fuel c' (a :: name) true
        else .error ⟨.unexpectedCharacter a, c.position⟩
      | none => .error ⟨.badEscape, c.position⟩
    | '\\' :: _ => .error ⟨.unexpectedCharacter '\\', c.position⟩
    | a :: _ =>
      if (if name.isEmpty then isIdentStart a else isIdentPart a) then
        word fuel c.step (a :: name) escaped
      else .ok (name.reverse, escaped, c)
    | [] => .ok (name.reverse, escaped, c)

/-- The punctuators, longest first. -/
def punctuators : List String := [
  ">>>=",
  "...", "===", "!==", "**=", "<<=", ">>=", ">>>", "&&=", "||=", "??=",
  "=>", "==", "!=", "<=", ">=", "&&", "||", "??", "?.", "++", "--", "+=", "-=", "*=", "/=", "%=",
  "&=", "|=", "^=", "<<", ">>", "**",
  "\x7b", "\x7d", "(", ")", "[", "]", ";", ",", "<", ">", "+", "-", "*", "/", "%", "|", "&", "^", "!",
  "~", "?", ":", "=", ".", "@", "`", "#"]

/-- Whether a punctuator stands at the cursor. The optional chaining token is not one before a
digit. -/
def punctuatorAt (c : Cursor) (p : String) : Bool :=
  c.startsWith p.toList &&
    !(p == "?." && ((c.skip 2).next?.any Char.isDigit))

/-- Reads the token at a cursor that stands at one, if the text has not ended. -/
def bare (c : Cursor) : Option Token × Cursor × List Complaint :=
  match c.rest with
  | [] => (none, c, [])
  | a :: rest =>
    if a == '\'' || a == '"' then
      let (t, c', es) := string a c.position c.rest.length c.step [] [a] []
      (some t, c', es)
    else if a.isDigit || (a == '.' && rest.head?.any Char.isDigit) then
      let (t, c', es) := number c
      (some t, c', es)
    else if isIdentStart a || a == '\\' then
      match word c.rest.length c [] false with
      | .ok (name, escaped, c') => (some (.word (.ofList name) escaped), c', [])
      | .error f => (some (.invalid f), c.step, [])
    else
      match punctuators.find? (punctuatorAt c) with
      | some p => (some (.punct p), c.skip p.length, [])
      | none => (some (.invalid ⟨.unexpectedCharacter a, c.position⟩), c.step, [])

/-- Reads the next token. `fresh` tells that only blanks stand before the cursor on its line, and
`last` is the place of the token before, which the end of the text is reported at. -/
def token (c : Cursor) (fresh : Bool) (last : Span) : Scanned :=
  let g := gap (c.rest.length + 1) c fresh []
  let (t, after, es) := bare g.after
  { token := t
    span := if t.isSome then ⟨g.after.position, after.position⟩ else last
    here := g.after
    after
    afterLineBreak := g.hasLineBreak
    complaints := g.complaints ++ es }

/-! ## Texts that only the reader of expressions can expect -/

/-- Reads the body of a regular expression after its opening slash. -/
def regexBody : List Char → List Char → Bool → Option (List Char × List Char)
  | [], _, _ => none
  | a :: rest, body, inClass =>
    if isLineTerminator a then none
    else if a == '/' && !inClass then some (body.reverse, rest)
    else if a == '\\' then
      match rest with
      | b :: rest' =>
        if isLineTerminator b then none else regexBody rest' (b :: a :: body) inClass
      | [] => none
    else
      let inClass := if a == '[' then true else if a == ']' then false else inClass
      regexBody rest (a :: body) inClass

/-- Reads a regular expression from its opening slash on: pattern and flags. -/
def regex (c : Cursor) : Option (String × String × Cursor) := do
  let (body, _) ← regexBody (c.rest.drop 1) [] false
  let c' := c.skip (body.length + 2)
  let (flags, c'') := c'.takeWhile isIdentPart
  return (.ofList body, .ofList flags, c'')

/-- Template text up to the next substitution or the closing backtick: as written with line ends
normalized, whether every escape in it is well formed, and whether the template ends after it. -/
structure TemplatePart where
  raw : String
  after : Cursor
  badEscape : Option Nat
  isLast : Bool

/-- Reads template text; `none` if the template is never closed. The cursor afterwards stands before
the closing backtick or the opening of a substitution. -/
def templateText : Nat → Cursor → List Char → Option Nat → Option TemplatePart
  | 0, _, _, _ => none
  | fuel + 1, c, raw, bad =>
    match c.rest with
    | [] => none
    | '`' :: _ => some ⟨.ofList raw.reverse, c, bad, true⟩
    | '$' :: '{' :: _ => some ⟨.ofList raw.reverse, c, bad, false⟩
    | '\r' :: '\n' :: _ => templateText fuel (c.skip 2) ('\n' :: raw) bad
    | '\r' :: _ => templateText fuel c.step ('\n' :: raw) bad
    | '\\' :: '\r' :: '\n' :: _ => templateText fuel (c.skip 3) ('\n' :: '\\' :: raw) bad
    | '\\' :: a :: _ =>
      let isBad := match escape c.step with
        | none => true
        | some e => e.isOctal
      let a' := if a == '\r' then '\n' else a
      templateText fuel (c.skip 2) (a' :: '\\' :: raw)
        (bad <|> if isBad then some c.position else none)
    | a :: _ => templateText fuel c.step (a :: raw) bad

end Scan

end ModuleWorkers.Script
