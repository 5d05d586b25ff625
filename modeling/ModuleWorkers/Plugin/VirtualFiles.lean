/-!
# Files that are served but not on disk
-/

namespace ModuleWorkers

/-- What is served: text, or any bytes. -/
inductive FileContent
  | text (text : String)
  | binary (bytes : ByteArray)
  deriving Inhabited

def FileContent.text? : FileContent → Option String
  | text t => some t
  | binary _ => none

structure VirtualFile where
  /-- The path that the file is served at. -/
  path : String
  content : FileContent
  /-- Whether only clients that get bundles are served the file. -/
  legacyOnly : Bool
  deriving Inhabited

/-- The files; no two have the same path. -/
structure VirtualFiles where
  files : List VirtualFile := []
  deriving Inhabited

namespace VirtualFiles

/-- Puts a file in the place of the one at its path. -/
def insert (vs : VirtualFiles) (path : String) (content : FileContent) (legacyOnly : Bool) :
    VirtualFiles :=
  ⟨⟨path, content, legacyOnly⟩ :: vs.files.filter (·.path != path)⟩

def get? (vs : VirtualFiles) (path : String) : Option VirtualFile :=
  vs.files.find? (·.path == path)

def contains (vs : VirtualFiles) (path : String) : Bool := (vs.get? path).isSome

def size (vs : VirtualFiles) : Nat := vs.files.length

end VirtualFiles

end ModuleWorkers
