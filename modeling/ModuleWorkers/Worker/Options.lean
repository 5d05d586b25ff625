import ModuleWorkers.Json.Relaxed
/-!
# Options of workers

The options that a worker is constructed with, as they are written in scripts and as they are
written back: relaxed JSON in, plain JSON out.
-/

namespace ModuleWorkers

/-- The two types of workers. -/
inductive WorkerType
  | classic
  | module
  deriving DecidableEq, Inhabited, Repr

def WorkerType.text : WorkerType → String
  | classic => "classic"
  | module => "module"

structure WorkerOptions where
  type : WorkerType := .classic
  name : Option String := none
  credentials : Option String := none
  deriving DecidableEq, Inhabited, Repr

def WorkerType.ofValue? (v : Json.Value) : Option WorkerType := do
  match ← v.looseChoice? with
  | "classic" => some .classic
  | "module" => some .module
  | _ => none

namespace WorkerOptions

open Json

def ofValue? (v : Value) : Option WorkerOptions := do
  match ← v.openRecord? ["type", "name", "credentials"] with
  | [type, name, credentials] =>
    return {
      type := ← Value.orAbsent? WorkerType.ofValue? .classic type
      name := ← Value.orAbsent? (Value.orNull? Value.text?) none name
      credentials := ← Value.orAbsent? (Value.orNull? Value.text?) none credentials }
  | _ => none

/-- Reads options as they are written in a script. -/
def parse? (text : String) : Option WorkerOptions := (Relaxed.parse? text).bind ofValue?

/-- A field of an object, if it has a value. -/
def literalField (key : String) : Option String → String
  | none => ""
  | some value => ",\"" ++ key ++ "\":" ++ Quoted.quote value

/-- The options as an object, without blanks and without fields that have no value. -/
def literal (o : WorkerOptions) : String :=
  "\x7b\"type\":" ++ Quoted.quote o.type.text ++ literalField "name" o.name ++
    literalField "credentials" o.credentials ++ "\x7d"

end WorkerOptions

end ModuleWorkers
