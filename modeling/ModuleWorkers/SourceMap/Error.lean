import ModuleWorkers.FileSystem
import ModuleWorkers.Json.Fault
/-!
# What can be wrong with a source map
-/

namespace ModuleWorkers

inductive SourceMapError
  | negativeNumber
  | bigNumber
  | unexpectedEnd
  | invalidDigit
  | overflow
  | nameOutOfRange
  | sourceOutOfRange
  | invalidJson (fault : Json.Fault)
  | invalidDataUrl
  | unreadable (cause : FileError)
  deriving Inhabited, Repr

namespace SourceMapError

def message : SourceMapError → String
  | negativeNumber => "Unexpected negative number: mapping value"
  | bigNumber => "Unexpected big number: mapping value"
  | unexpectedEnd => "VLQ unexpected end of input"
  | invalidDigit => "VLQ invalid base 64 character"
  | overflow => "VLQ overflow"
  | nameOutOfRange => "Name index out of range"
  | sourceOutOfRange => "Source index out of range"
  | invalidJson fault => s!"Invalid source map JSON: {fault.message}"
  | invalidDataUrl => "Invalid data url"
  | unreadable cause@(.notFound _) => s!"Source map not found: {cause.message}"
  | unreadable cause => s!"IO error: {cause.message}"

end SourceMapError

end ModuleWorkers
