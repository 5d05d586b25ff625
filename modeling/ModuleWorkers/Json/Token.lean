import ModuleWorkers.Json.Number
import ModuleWorkers.Json.Quoted
/-!
# Tokens of JSON texts

`scan?` cuts a JSON text into tokens: brackets, commas, colons, words, numbers and strings. Blanks
between them are spaces, tabs and line ends.
-/

namespace ModuleWorkers.Json

inductive Token
  | openArray | closeArray | openObject | closeObject | comma | colon
  | word (text : String)
  | num (literal : String)
  | str (text : Option String)
  deriving DecidableEq, Inhabited, Repr

namespace Token

def isBlank (c : Char) : Bool := c == ' ' || c == '\t' || c == '\n' || c == '\r'

/-- The token that a single character is. -/
def punctuation? : Char → Option Token
  | '[' => some openArray
  | ']' => some closeArray
  | '{' => some openObject
  | '}' => some closeObject
  | ',' => some comma
  | ':' => some colon
  | _ => none

end Token

namespace Quoted

theorem length_decodeBody {read r : Read} {cs rest : List Char}
    (h : decodeBody read cs = some (r, rest)) : rest.length < cs.length := by
  fun_induction decodeBody read cs generalizing r rest <;>
    first | (simp only [List.length_cons] at *; grind) | grind

theorem length_decode? {r : Read} {cs rest : List Char} (h : decode? cs = some (r, rest)) :
    rest.length < cs.length := by
  unfold decode? at h
  split at h
  · have := length_decodeBody h
    simp; omega
  · simp at h

end Quoted

/-- The tokens of a text. -/
def scan? : List Char → Option (List Token)
  | [] => some []
  | c :: cs =>
    if Token.isBlank c then scan? cs
    else
      match Token.punctuation? c with
      | some t => (scan? cs).map (t :: ·)
      | none =>
        if c = '"' then
          match h : Quoted.decode? (c :: cs) with
          | none => none
          | some (text, rest) =>
            have : rest.length < cs.length + 1 := Quoted.length_decode? h
            (scan? rest).map (.str (text.map String.ofList) :: ·)
        else if Number.isPart c then
          let literal := c :: cs.takeWhile Number.isPart
          have : (cs.dropWhile Number.isPart).length ≤ cs.length :=
            (List.dropWhile_sublist _).length_le
          if (Number.decimal? literal).isSome then
            (scan? (cs.dropWhile Number.isPart)).map (.num (.ofList literal) :: ·)
          else none
        else
          have : (cs.dropWhile Char.isAlpha).length ≤ cs.length :=
            (List.dropWhile_sublist _).length_le
          if c.isAlpha then
            (scan? (cs.dropWhile Char.isAlpha)).map
              (.word (.ofList (c :: cs.takeWhile Char.isAlpha)) :: ·)
          else none
termination_by cs => cs.length

end ModuleWorkers.Json
