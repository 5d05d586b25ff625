import ModuleWorkers.SourceMap.Json
import ModuleWorkers.Text.CharClass
import ModuleWorkers.Text.Cursor
import ModuleWorkers.Text.Search
/-!
# References to source maps

A text can end in a comment that says where its source map is: `//# sourceMappingURL=` and an
address, in a line or block comment. The address is a file next to the text, a file elsewhere, or
holds the map itself.
-/

namespace ModuleWorkers.SourceMap

open Text

/-- A reference at the end of a text, and the byte positions of its start and end, blanks after it
left out. -/
structure Reference where
  url : String
  start : Nat
  stop : Nat
  deriving DecidableEq, Inhabited, Repr

namespace Reference

/-- Text without the blanks at its end. -/
def trimEnd (cs : List Char) : List Char := (cs.reverse.dropWhile isBlank).reverse

/-- The address in what follows the equals sign, which is all there is up to the end of the text: no
blanks, and the end of the comment left out. -/
def address? (cs : List Char) : Option (List Char) :=
  let whole := trimEnd (cs.dropWhile isBlank)
  let isAddress (url : List Char) : Bool := !url.isEmpty && !url.any isBlank
  let shorter := match whole.reverse with
    | '/' :: '*' :: front => trimEnd front.reverse
    | _ => []
  if isAddress shorter then some shorter else if isAddress whole then some whole else none

/-- The address of a reference that starts here. -/
def here? : List Char → Option (List Char)
  | '/' :: a :: b :: rest =>
    if (a == '*' || a == '/') && (b == '@' || b == '#') then
      let name := "sourceMappingURL".toList
      let rest := rest.dropWhile isBlank
      if name.isPrefixOf rest then
        match (rest.drop name.length).dropWhile isBlank with
        | '=' :: rest => address? rest
        | _ => none
      else none
    else none
  | _ => none

/-- Finds the reference that a text ends in, given the byte position of the text. -/
def findFrom (position : Nat) : List Char → Option Reference
  | [] => none
  | c :: cs =>
    match here? (c :: cs) with
    | some url => some ⟨.ofList url, position, position + byteLength (trimEnd (c :: cs))⟩
    | none => findFrom (position + c.utf8Size) cs

/-- The reference that a text ends in. -/
def find? (text : String) : Option Reference := findFrom 0 text.toList

end Reference

/-- The file that a reference of a file means, unless its address holds the map itself. -/
def referencedFile? (file : Path) (url : String) : Option Path :=
  let scheme := match cut? [':'] url.toList with
    | some (scheme, _) => scheme
    | none => []
  if scheme = "data".toList then none
  else
    let target : Path :=
      if scheme = "file".toList then
        match cut? "file://".toList url.toList with
        | some (before, after) => .ofChars (before ++ after)
        | none => ⟨url⟩
      else ⟨url⟩
    some (((file.parent?).getD ⟨""⟩).join target).normal

/-- Reads the map that a reference of a file means. -/
def load (fs : FileSystem) (root file : Path) (url : String) : Except SourceMapError SourceMap :=
  match referencedFile? file url with
  | none => ofDataUrl root url
  | some p =>
    match fs.readText p with
    | .error e => .error (.unreadable e)
    | .ok text => ofJson root text

end ModuleWorkers.SourceMap
