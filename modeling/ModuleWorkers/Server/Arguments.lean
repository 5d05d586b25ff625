import ModuleWorkers.Plugin.Client
/-!
# Arguments of the server

The command line is read argument by argument. An option takes the argument after it, unless that
looks like an option itself, or what stands behind its `=`. It may be given once. A value is judged
when the next option begins, so that a fault of the next argument can come first.
-/

namespace ModuleWorkers

/-- The options of the command line; each takes a value. -/
inductive ServerOption
  | root
  | port
  | host
  | config
  | legacy
  deriving DecidableEq, Inhabited, Repr

def ServerOption.all : List ServerOption := [.root, .port, .host, .config, .legacy]

def ServerOption.name : ServerOption → String
  | root => "root"
  | port => "port"
  | host => "host"
  | config => "config"
  | legacy => "legacy"

def ServerOption.ofName? (name : String) : Option ServerOption := all.find? (·.name == name)

structure ServerArguments where
  root : String := "."
  port : Nat := 3000
  host : String := "127.0.0.1"
  config : Option String := none
  legacy : Option LegacyMode := none
  deriving DecidableEq, Inhabited, Repr

/-- Why a command line gives no arguments to run with. -/
inductive ArgumentError
  | helpWanted
  | versionWanted
  | unknown (argument : String)
  | repeated (option : ServerOption)
  | missingValue (option : ServerOption)
  | invalidValue (option : ServerOption) (value : String)
  /-- A value for what takes none. -/
  | needlessValue (flag value : String)
  deriving DecidableEq, Inhabited, Repr

def ArgumentError.message : ArgumentError → String
  | helpWanted =>
    "Serves a directory, bundling module workers for browsers without module worker support"
  | versionWanted => "0.1.0"
  | unknown argument => s!"unexpected argument '{argument}' found"
  | repeated option => s!"the argument '--{option.name}' cannot be used multiple times"
  | missingValue option => s!"a value is required for '--{option.name}' but none was supplied"
  | invalidValue option value => s!"invalid value '{value}' for '--{option.name}'"
  | needlessValue flag value => s!"unexpected value '{value}' for '--{flag}' found"

/-- Reads a port: decimal digits, with or without a sign. -/
def port? (value : String) : Option Nat :=
  let (isNegative, digits) := match value.toList with
    | '+' :: cs => (false, cs)
    | '-' :: cs => (true, cs)
    | cs => (false, cs)
  if digits.isEmpty || !digits.all Char.isDigit then none
  else
    let n := digits.foldl (fun n c => 10 * n + (c.toNat - '0'.toNat)) 0
    if n < 65536 ∧ (isNegative → n = 0) then some n else none

namespace ServerArguments

/-- Sets an option to a value. -/
def set (a : ServerArguments) (option : ServerOption) (value : String) :
    Except ArgumentError ServerArguments :=
  let check {α : Type} (read : Option α) (f : α → ServerArguments) :=
    match read with
    | some x => .ok (f x)
    | none => .error (.invalidValue option value)
  match option with
  | .root => if value.isEmpty then .error (.missingValue option) else .ok { a with root := value }
  | .port => check (port? value) fun port => { a with port }
  | .host => .ok { a with host := value }
  | .config =>
    if value.isEmpty then .error (.missingValue option) else .ok { a with config := some value }
  | .legacy => check (LegacyMode.ofText? value) fun mode => { a with legacy := some mode }

end ServerArguments

/-- What was read of a command line. -/
structure ArgumentReader where
  arguments : ServerArguments := {}
  given : List ServerOption := []
  /-- The option that was read last, and its value once that was read. -/
  pending : Option (ServerOption × Option String) := none
  /-- Whether only values may follow. -/
  isEscaped : Bool := false
  deriving Inhabited, Repr

/-- How an argument looks. -/
inductive ArgumentForm
  /-- The mark after which only values may follow. -/
  | escape
  | long (name : String) (value : Option String)
  | short (flags : List Char)
  | value
  deriving Inhabited, Repr

def ArgumentForm.ofText (text : String) : ArgumentForm :=
  match text.toList with
  | ['-', '-'] => .escape
  | '-' :: '-' :: cs =>
    match cs.span (· != '=') with
    | (name, []) => .long (.ofList name) none
    | (name, _ :: text) => .long (.ofList name) (some (.ofList text))
  | '-' :: c :: cs => .short (c :: cs)
  | _ => .value

namespace ArgumentReader

/-- Sets an option that may be set once. -/
def set (r : ArgumentReader) (option : ServerOption) (value : String) :
    Except ArgumentError ArgumentReader := do
  if r.given.contains option then .error (.repeated option)
  else return { r with arguments := ← r.arguments.set option value, given := option :: r.given }

/-- Judges the option that was read last. -/
def settle (r : ArgumentReader) : Except ArgumentError ArgumentReader :=
  match r.pending with
  | none => .ok r
  | some (option, none) => .error (.missingValue option)
  | some (option, some value) => { r with pending := none }.set option value

/-- Reads an option that is written out. -/
def readLong (r : ArgumentReader) (name : String) (value : Option String) :
    Except ArgumentError ArgumentReader := do
  match ServerOption.ofName? name with
  | some option =>
    let r ← r.settle
    match value with
    | some value => r.set option value
    | none => return { r with pending := some (option, none) }
  | none =>
    if name = "help" ∨ name = "version" then
      match value with
      | some value => .error (.needlessValue name value)
      | none =>
        let _ ← r.settle
        .error (if name = "help" then .helpWanted else .versionWanted)
    else .error (.unknown ("--" ++ name))

/-- Reads flags of one letter. -/
def readShort (r : ArgumentReader) (flags : List Char) : Except ArgumentError ArgumentReader := do
  match flags with
  | 'h' :: _ =>
    let _ ← r.settle
    .error .helpWanted
  | 'V' :: _ =>
    let _ ← r.settle
    .error .versionWanted
  | _ => .error (.unknown (.ofList ('-' :: flags.take 1)))

/-- Reads an argument that is no option. -/
def readValue (r : ArgumentReader) (text : String) : Except ArgumentError ArgumentReader :=
  match r.pending with
  | some (option, none) => .ok { r with pending := some (option, some text) }
  | _ => .error (.unknown text)

/-- Reads an argument. -/
def read (r : ArgumentReader) (text : String) : Except ArgumentError ArgumentReader :=
  if r.isEscaped then .error (.unknown text)
  else
    match ArgumentForm.ofText text with
    | .escape => .ok { r with isEscaped := true }
    | .long name value => r.readLong name value
    | .short flags => r.readShort flags
    | .value => r.readValue text

end ArgumentReader

/-- Reads a command line. -/
def ServerArguments.parse (texts : List String) : Except ArgumentError ServerArguments := do
  return (← (← texts.foldlM ArgumentReader.read {}).settle).arguments

end ModuleWorkers
