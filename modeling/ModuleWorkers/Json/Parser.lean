import ModuleWorkers.Json.Token
import ModuleWorkers.Json.Value
/-!
# Reading JSON texts

A builder takes one token after the other. It keeps the arrays and objects that are open, innermost
first, with the items read so far, last one first. In the relaxed form of the format a comma may
stand in front of a closing bracket, keys may be words, and there are words for numbers.
-/

namespace ModuleWorkers.Json

/-- An array or object that is open. -/
inductive Frame
  | array (items : List Value)
  /-- An object; a key of which the value is still to come is apart. -/
  | object (members : List (Option String × Value)) (key : Option (Option String))
  deriving Inhabited

/-- What the builder expects. -/
inductive Expectation
  | value
  /-- A value, or the end of the array that was just opened. -/
  | valueOrEnd
  | key
  /-- A key, or the end of the object that was just opened. -/
  | keyOrEnd
  | colon
  /-- A comma or an end. -/
  | next
  /-- Nothing more. -/
  | done (v : Value)
  deriving Inhabited

/-- The two forms of the format. -/
inductive Form
  | strict
  | relaxed
  deriving DecidableEq, Inhabited, Repr

/-- The value that a word stands for. -/
def Form.word? (form : Form) (text : String) : Option Value :=
  if text = "null" then some .null
  else if text = "true" then some (.bool true)
  else if text = "false" then some (.bool false)
  else if form = .relaxed ∧ (text = "Infinity" ∨ text = "NaN") then some (.num text)
  else none

structure Builder where
  frames : List Frame := []
  expected : Expectation := .value
  deriving Inhabited

namespace Builder

/-- Puts a finished value in its place. -/
def add (frames : List Frame) (v : Value) : Option Builder :=
  match frames with
  | [] => some ⟨[], .done v⟩
  | .array items :: frames => some ⟨.array (v :: items) :: frames, .next⟩
  | .object members (some key) :: frames =>
    some ⟨.object ((key, v) :: members) none :: frames, .next⟩
  | .object _ none :: _ => none

/-- Takes the first token of a value. -/
def start (form : Form) (frames : List Frame) : Token → Option Builder
  | .openArray => some ⟨.array [] :: frames, .valueOrEnd⟩
  | .openObject => some ⟨.object [] none :: frames, .keyOrEnd⟩
  | .word text => (form.word? text).bind (add frames)
  | .num literal => add frames (.num literal)
  | .str text => add frames (.str text)
  | _ => none

/-- Ends the innermost array or object. -/
def close (frames : List Frame) : Token → Option Builder
  | .closeArray =>
    match frames with
    | .array items :: frames => add frames (.arr items.reverse)
    | _ => none
  | .closeObject =>
    match frames with
    | .object members none :: frames => add frames (.obj members.reverse)
    | _ => none
  | _ => none

/-- The key that a token is. -/
def key? (form : Form) : Token → Option (Option String)
  | .str text => some text
  | .word text => if form = .relaxed then some (some text) else none
  | _ => none

/-- Takes a key. -/
def key (form : Form) (frames : List Frame) (t : Token) : Option Builder :=
  match key? form t, frames with
  | some k, .object members none :: frames => some ⟨.object members (some k) :: frames, .colon⟩
  | _, _ => none

def take (form : Form) (b : Builder) (t : Token) : Option Builder :=
  match b.expected with
  | .value => start form b.frames t
  | .valueOrEnd => if t = .closeArray then close b.frames t else start form b.frames t
  | .key => key form b.frames t
  | .keyOrEnd => if t = .closeObject then close b.frames t else key form b.frames t
  | .colon => if t = .colon then some ⟨b.frames, .value⟩ else none
  | .next =>
    if t = .comma then
      match b.frames with
      | .array _ :: _ => some ⟨b.frames, if form = .relaxed then .valueOrEnd else .value⟩
      | .object .. :: _ => some ⟨b.frames, if form = .relaxed then .keyOrEnd else .key⟩
      | [] => none
    else close b.frames t
  | .done _ => none

def result? (b : Builder) : Option Value :=
  match b.expected with
  | .done v => some v
  | _ => none

end Builder

/-- The value that tokens make up. -/
def Form.build? (form : Form) (tokens : List Token) : Option Value := do
  (← tokens.foldlM (Builder.take form) {}).result?

/-- Reads a JSON text. -/
def parse? (text : String) : Option Value := (scan? text.toList).bind Form.strict.build?

namespace Value

/-- Whether a value is one that a reader of whole values takes, too: all strings are texts, numbers
are finite and nesting stays below a limit. -/
def isSound (limit : Nat) : Value → Bool
  | null | bool _ => true
  | num literal => (Number.decimal? literal.toList).any Number.Decimal.isFinite
  | str text => text.isSome
  | arr items =>
    match limit with
    | 0 => false
    | limit + 1 => limit != 0 && items.attach.all fun ⟨v, _⟩ => v.isSound limit
  | obj members =>
    match limit with
    | 0 => false
    | limit + 1 => limit != 0 && members.attach.all fun ⟨(k, v), _⟩ => k.isSome && v.isSound limit
termination_by limit

end Value

end ModuleWorkers.Json
