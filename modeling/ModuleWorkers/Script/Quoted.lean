import ModuleWorkers.Script.Token
/-!
# Writing string literals

A string that the source does not spell is written between double quotes, or single ones if it
holds more double quotes than single ones. Controls and line separators are escaped; a lone
surrogate, which a string value spells as an escape, stays one.
-/

namespace ModuleWorkers.Script

namespace Quoted

/-- Whether a text spells a surrogate as `u` and four hexadecimal digits. -/
def spellsSurrogate : List Char → Bool
  | 'u' :: d :: a :: b :: c :: _ =>
    (d == 'd' || d == 'D') && (Scan.hexValue? a).any (8 ≤ ·) && (Scan.hexValue? b).isSome &&
      (Scan.hexValue? c).isSome
  | _ => false

def hex2 (c : Char) : List Char :=
  let digits := Nat.toDigits 16 c.toNat
  ['\\', 'x'] ++ List.replicate (2 - digits.length) '0' ++ digits

/-- The body of a literal with the given quotes. -/
def body (quote : Char) : List Char → List Char
  | [] => []
  | c :: rest =>
    let spelled :=
      if c == '\x00' then
        if rest.head?.any Char.isDigit then ['\\', 'x', '0', '0'] else ['\\', '0']
      else if c == '\x08' then ['\\', 'b']
      else if c == '\x0c' then ['\\', 'f']
      else if c == '\n' then ['\\', 'n']
      else if c == '\r' then ['\\', 'r']
      else if c == '\x0b' then ['\\', 'v']
      else if c == '\t' then ['\t']
      else if c == '\\' then if spellsSurrogate rest then ['\\'] else ['\\', '\\']
      else if c == quote then ['\\', c]
      else if c.toNat < 0x20 then hex2 c
      else if c == '\u2028' then "\\u2028".toList
      else if c == '\u2029' then "\\u2029".toList
      else if c == '\ufeff' then "\\uFEFF".toList
      else [c]
    spelled ++ body quote rest

/-- A string literal for a text. -/
def encode (text : String) : String :=
  let cs := text.toList
  let quote := if cs.count '"' > cs.count '\'' then '\'' else '"'
  .ofList (quote :: body quote cs ++ [quote])

end Quoted

end ModuleWorkers.Script
