import ModuleWorkers.Json.Parser
/-!
# Options of the bundler
-/

namespace ModuleWorkers

open Json

structure BundlerOptions where
  /-- Whether packages are entered where their `browser` field says, if they have one. -/
  browserField : Bool := true
  /-- The extensions to try for specifiers, in order. -/
  extensions : List String := [".js", ".mjs", ".cjs", ".json"]
  /-- Whether the source maps that modules refer to count. -/
  extractSourceMaps : Bool := true
  deriving DecidableEq, Inhabited, Repr

namespace BundlerOptions

def keys : List String := ["browserField", "extensions", "extractSourceMaps"]

/-- Options of fields in the order of the keys. -/
def ofFields? : List (Option Value) → Option BundlerOptions
  | [browserField, extensions, extractSourceMaps] => do
    let standard : BundlerOptions := {}
    return {
      browserField := ← Value.orAbsent? Value.bool? standard.browserField browserField
      extensions :=
        ← Value.orAbsent? (Value.listOf? Value.text?) standard.extensions extensions
      extractSourceMaps :=
        ← Value.orAbsent? Value.bool? standard.extractSourceMaps extractSourceMaps }
  | _ => none

/-- Reads options from JSON. -/
def ofJson? (text : String) : Option BundlerOptions := do
  ofFields? (← (← Json.parse? text).record? keys)

end BundlerOptions

end ModuleWorkers
