import ModuleWorkers.Edits.Basic
import ModuleWorkers.Script.Dependency
import ModuleWorkers.SourceMap.Error
/-!
# Why a bundle cannot be built
-/

namespace ModuleWorkers

inductive BundleError
  | unresolved (specifier : String) (file : Path)
  | unreadable (file : Path) (cause : FileError)
  | syntaxError (file : Path) (cause : Script.ParseError)
  | conversion (file : Path) (cause : Script.ParseError)
  | edit (cause : EditError)
  | sourceMap (cause : SourceMapError)
  deriving Inhabited, Repr

def BundleError.message : BundleError → String
  | unresolved specifier file => s!"Failed to resolve '{specifier}' from {file.text}"
  | unreadable file cause => s!"Failed to read {file.text}: {cause.message}"
  | syntaxError file cause => s!"Failed to parse {file.text}: {cause.message}"
  | conversion file cause => s!"Failed to transform {file.text}: {cause.message}"
  | edit cause => cause.message
  | sourceMap cause => cause.message

end ModuleWorkers
