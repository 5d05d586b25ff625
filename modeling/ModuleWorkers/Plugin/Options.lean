import ModuleWorkers.FileSystem
import ModuleWorkers.Json.Relaxed
import ModuleWorkers.Plugin.Client
/-!
# Options of the plugin
-/

namespace ModuleWorkers

open Json

structure PluginOptions where
  legacy : LegacyMode := .auto
  /-- Whether bundles end with a comment that says where their source map is. -/
  appendSourceMapComment : Bool := true
  deriving DecidableEq, Inhabited, Repr

/-- Why options cannot be read from a file. -/
inductive OptionsError
  | unreadable (cause : FileError)
  | invalid
  deriving Inhabited, Repr

namespace PluginOptions

def keys : List String := ["legacy", "appendSourceMapComment"]

/-- Options of fields in the order of the keys, given how the name of a mode is read. -/
def ofFields? (name? : Value → Option String) : List (Option Value) → Option PluginOptions
  | [legacy, comment] => do
    return {
      legacy := ← Value.orAbsent? (fun v => (name? v).bind LegacyMode.ofText?) .auto legacy
      appendSourceMapComment := ← Value.orAbsent? Value.bool? true comment }
  | _ => none

/-- Reads options from JSON. -/
def ofJson? (text : String) : Option PluginOptions := do
  ofFields? (Value.choice? Value.isNull) (← (← Json.parse? text).record? keys)

/-- Reads options that were written by hand. -/
def parse? (text : String) : Option PluginOptions := do
  ofFields? Value.looseChoice? (← (← Relaxed.parse? text).openRecord? keys)

/-- Reads options from a file. -/
def load (fs : FileSystem) (file : Path) : Except OptionsError PluginOptions :=
  match fs.readText file with
  | .error e => .error (.unreadable e)
  | .ok text =>
    match parse? text with
    | some options => .ok options
    | none => .error .invalid

end PluginOptions

end ModuleWorkers
