import ModuleWorkers.Bundle.Options
import ModuleWorkers.Plugin.Options
/-!
# Configuration of the server

A file that was written by hand, with the options of the plugin, and those of the bundler in a field
of their own. Anything that is left out has its standard value.
-/

namespace ModuleWorkers

open Json

structure ServerConfig where
  plugin : PluginOptions := {}
  bundler : BundlerOptions := {}
  deriving DecidableEq, Inhabited, Repr

/-- Why there is no configuration. -/
inductive ConfigError
  | unreadable (file : Path) (cause : FileError)
  | invalid (file : Path)
  deriving Inhabited, Repr

def ConfigError.message : ConfigError → String
  | unreadable file _ => s!"Failed to read config {file.text}"
  | invalid file => s!"Invalid config {file.text}"

namespace ServerConfig

/-- Whether a value adds nothing to the name of a mode. -/
def saysNothing : Value → Bool
  | .null | .obj [] => true
  | _ => false

/-- Reads the options of the bundler. -/
def bundler? (v : Value) : Option BundlerOptions := do
  BundlerOptions.ofFields? (← v.openRecord? BundlerOptions.keys)

/-- Reads a configuration. -/
def parse? (text : String) : Option ServerConfig := do
  match ← Relaxed.parse? text with
  | .obj members =>
    match ← (Value.obj members).record? (PluginOptions.keys ++ ["bundler"]) with
    | [legacy, comment, bundler] =>
      return {
        plugin := ← PluginOptions.ofFields? (Value.choice? saysNothing) [legacy, comment]
        bundler := ← Value.orAbsent? bundler? {} bundler }
    | _ => none
  | _ => none

/-- The configuration with another mode, if one is given. -/
def withMode (c : ServerConfig) (mode : Option LegacyMode) : ServerConfig :=
  { c with plugin.legacy := mode.getD c.plugin.legacy }

/-- Reads a configuration from a file. -/
def load (fs : FileSystem) (file : Path) : Except ConfigError ServerConfig :=
  match fs.readText file with
  | .error e => .error (.unreadable file e)
  | .ok text =>
    match parse? text with
    | some config => .ok config
    | none => .error (.invalid file)

end ServerConfig

end ModuleWorkers
