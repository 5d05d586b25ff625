import ModuleWorkers.Text.Search
/-!
# Specifiers of modules

What a script writes to name another module: a path relative to its own directory or to the root,
the name of a package and a path inside it, or an address, which no file is named by.
-/

namespace ModuleWorkers

open ModuleWorkers.Text

inductive Specifier
  | relative (path : String)
  | absolute (path : String)
  | package (name : String) (subpath : Option String)
  | url (address : String)
  deriving DecidableEq, Inhabited, Repr

namespace Specifier

/-- Whether a text starts with a scheme: a colon in front of all slashes. -/
def hasScheme (cs : List Char) : Bool :=
  (cs.dropWhile fun c => c != ':' && c != '/').head? == some ':'

/-- The name of a package and what comes after the slash behind it. The name has a slash of its own
if it starts with the name of a scope. -/
def splitPackage (cs : List Char) : List Char × List Char :=
  let isScoped := cs.head? == some '@'
  match cut? ['/'] cs with
  | none => (cs, [])
  | some (scope, rest) =>
    if isScoped then
      match cut? ['/'] rest with
      | none => (cs, [])
      | some (name, subpath) => (scope ++ '/' :: name, subpath)
    else (scope, rest)

/-- Tells what a text names. -/
def ofText (text : String) : Specifier :=
  if text.startsWith "./" || text.startsWith "../" || text == "." || text == ".." then relative text
  else if text.startsWith "/" then absolute text
  else if hasScheme text.toList then url text
  else
    let (name, subpath) := splitPackage text.toList
    package (.ofList name) (if subpath.isEmpty then none else some (.ofList subpath))

end Specifier

end ModuleWorkers
