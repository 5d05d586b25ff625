import ModuleWorkers.Path.File
import ModuleWorkers.Text.Utf8
/-!
# Files in memory

A file system is what was last written to each path, after the path was brought into its normal form
below the root. Directories are not kept: a directory is a path that files lie below and that is no
file itself.
-/

namespace ModuleWorkers

/-- What is wrong with reading a file. -/
inductive FileError
  | notFound (path : Path)
  | isDirectory (path : Path)
  /-- The content is not UTF-8. -/
  | notText (fault : Text.Utf8Fault)
  deriving Inhabited, Repr

def FileError.message : FileError → String
  | notFound p => s!"No such file: {p.text}"
  | isDirectory p => s!"{p.text} is a directory"
  | notText fault => fault.message

/-- The names from the root to a file or directory. -/
abbrev Place := List (List Char)

/-- The place that a path means, relative paths starting at the root. -/
def Path.place (p : Path) : Place := collapse (segments p.chars)

/-- The path of a place. -/
def Place.path (p : Place) : Path := .ofChars ('/' :: joined p)

/-- The files that were written, last one first. -/
structure FileSystem where
  files : List (Place × ByteArray) := []
  deriving Inhabited

namespace FileSystem

def write (fs : FileSystem) (p : Path) (content : ByteArray) : FileSystem :=
  ⟨(p.place, content) :: fs.files.filter fun (q, _) => q != p.place⟩

def writeText (fs : FileSystem) (p : Path) (text : String) : FileSystem := fs.write p text.toUTF8

def content? (fs : FileSystem) (p : Path) : Option ByteArray := fs.files.lookup p.place

def isFile (fs : FileSystem) (p : Path) : Bool := (fs.content? p).isSome

/-- Whether a path is a directory. A path that is a file is none, even if files lie below it. -/
def isDir (fs : FileSystem) (p : Path) : Bool :=
  !fs.isFile p && fs.files.any fun (q, _) => p.place.isPrefixOf q

/-- The normal form of a path at which there is something. -/
def canonical (fs : FileSystem) (p : Path) : Except FileError Path :=
  if fs.isFile p || fs.isDir p then .ok p.place.path else .error (.notFound p.place.path)

def read (fs : FileSystem) (p : Path) : Except FileError ByteArray :=
  match fs.content? p with
  | some content => .ok content
  | none =>
    .error (if fs.isDir p then .isDirectory p.place.path else .notFound p.place.path)

/-- Reads a file of text. -/
def readText (fs : FileSystem) (p : Path) : Except FileError String := do
  let bytes ← fs.read p
  match String.fromUTF8? bytes with
  | some text => .ok text
  | none => .error (.notText (.first bytes))

end FileSystem

end ModuleWorkers
