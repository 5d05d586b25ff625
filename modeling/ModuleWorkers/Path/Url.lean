import ModuleWorkers.Path.Segments
/-!
# Paths of addresses

The path part of an address below a server's root. Its normal form starts with a slash and has no
empty, `.` or `..` segment; `..` never climbs above the root.
-/

namespace ModuleWorkers.UrlPath

/-- The part of a path in front of its last slash, `/` for files at the root. -/
def dirname (path : String) : String :=
  match path.toList.reverse.dropWhile (· != '/') with
  | [] | [_] => "/"
  | _ :: front => .ofList front.reverse

/-- The part of a path after its last slash. -/
def basename (path : String) : String :=
  .ofList (path.toList.reverse.takeWhile (· != '/')).reverse

/-- Whether a specifier is relative to the file that it stands in. -/
def isRelative (specifier : String) : Bool :=
  specifier.startsWith "./" || specifier.startsWith "../"

/-- The normal form of a path. -/
def normalize (path : String) : String :=
  .ofList ('/' :: joined (collapse (segments path.toList)))

/-- The path that a relative specifier means in a file served at a path. -/
def resolve? (servedPath specifier : String) : Option String :=
  if isRelative specifier then some (normalize (dirname servedPath ++ "/" ++ specifier)) else none

end ModuleWorkers.UrlPath
