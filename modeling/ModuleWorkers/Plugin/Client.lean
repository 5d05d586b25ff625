import ModuleWorkers.Text.Search
/-!
# Clients and what is served to them

Which clients get bundles that run in classic workers: all, none, or those whose browser is not
known to start module workers.
-/

namespace ModuleWorkers

/-- When module workers are served as bundles. -/
inductive LegacyMode
  /-- As the client needs it. -/
  | auto
  | always
  | never
  deriving DecidableEq, Inhabited, Repr

namespace LegacyMode

def text : LegacyMode → String
  | auto => "auto"
  | always => "always"
  | never => "never"

def ofText? : String → Option LegacyMode
  | "auto" => some .auto
  | "always" => some .always
  | "never" => some .never
  | _ => none

/-- What is wrong with a text that names no mode. -/
def unknownMessage (text : String) : String :=
  s!"Invalid option: unknown legacy mode '{text}', expected auto, always or never"

end LegacyMode

/-- The headers of a request, by their names. -/
abbrev Headers := List (String × String)

namespace Headers

def lower (name : String) : String := .ofList (name.toList.map Char.toLower)

/-- The value of a header; upper and lower case do not matter. -/
def get? (headers : Headers) (name : String) : Option String :=
  (headers.find? fun (key, _) => lower key == lower name).map (·.2)

/-- The name that the browser gives itself. -/
def userAgent? (headers : Headers) : Option String := headers.get? "user-agent"

end Headers

/-- What browsers that start module workers have in their names. -/
def moduleWorkerBrowsers : List String := ["edg/", "chrome", "chromium"]

/-- Whether a browser is known to start module workers. -/
def supportsModuleWorkers (userAgent : String) : Bool :=
  moduleWorkerBrowsers.any (Text.contains (Headers.lower userAgent))

/-- Whether a client gets bundles. -/
def LegacyMode.wantsBundles (mode : LegacyMode) (headers : Headers) : Bool :=
  match mode with
  | always => true
  | never => false
  | auto => !headers.userAgent?.any supportsModuleWorkers

end ModuleWorkers
