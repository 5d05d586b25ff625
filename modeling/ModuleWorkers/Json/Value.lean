/-!
# Values of data formats

The values that JSON and JSON5 texts stand for, as far as readers of options and maps need them.
`Value.record?` reads a value as a record with known fields: an object with each of them at most
once, or an array that lists them in order. Other keys of an object do not matter. `Value.choice?`
reads the name of one of several choices.
-/

namespace ModuleWorkers.Json

/-- A value. A string, and likewise a key, that spells half of a surrogate pair is no text: it is
`none`. -/
inductive Value
  | null
  | bool (b : Bool)
  | num (literal : String)
  | str (text : Option String)
  | arr (items : List Value)
  | obj (members : List (Option String × Value))
  deriving Inhabited

namespace Value

def text? : Value → Option String
  | str s => s
  | _ => none

def bool? : Value → Option Bool
  | bool b => some b
  | _ => none

def list? : Value → Option (List Value)
  | arr vs => some vs
  | _ => none

/-- Reads a value that may be `null`. -/
def orNull? {α : Type} (read : Value → Option α) : Value → Option (Option α)
  | null => some none
  | v => (read v).map some

/-- Reads a field that may be missing. -/
def orAbsent? {α : Type} (read : Value → Option α) (fallback : α) : Option Value → Option α
  | none => some fallback
  | some v => read v

/-- Reads the items of an array. -/
def listOf? {α : Type} (read : Value → Option α) (v : Value) : Option (List α) := do
  (← v.list?).mapM read

/-- The values of a key in an object. -/
def valuesOf (members : List (Option String × Value)) (name : String) : List Value :=
  members.filterMap fun (k, v) => if k == some name then some v else none

/-- The fields of a record, those that are absent as `none`. -/
def record? (names : List String) : Value → Option (List (Option Value))
  | arr items =>
    if items.length ≤ names.length then
      some (items.map some ++ List.replicate (names.length - items.length) none)
    else none
  | obj members =>
    if members.all fun (k, _) => k.isSome then
      names.mapM fun name =>
        match valuesOf members name with
        | [] => some none
        | [v] => some (some v)
        | _ => none
    else none
  | _ => none

/-- The fields of a record; an array may go on after them. -/
def openRecord? (names : List String) : Value → Option (List (Option Value))
  | arr items => (arr (items.take names.length)).record? names
  | v => v.record? names

/-- The name of a choice: a string, or an object with the name as its only key and a value that says
nothing more. -/
def choice? (saysNothing : Value → Bool) : Value → Option String
  | str s => s
  | obj [(key, value)] => if saysNothing value then key else none
  | _ => none

def isNull : Value → Bool
  | null => true
  | _ => false

/-- The name of a choice in a text that was written by hand: its value may be any object, and other
keys may follow. -/
def looseChoice? : Value → Option String
  | obj (m :: _) => choice? saysNothing (obj [m])
  | v => v.text?
where
  saysNothing : Value → Bool
    | null | obj _ => true
    | _ => false

end Value

end ModuleWorkers.Json
