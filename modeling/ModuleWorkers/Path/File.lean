import ModuleWorkers.Path.Url
/-!
# Paths of files

A path keeps the text it was written as, and is compared by its components: doubled slashes and `.`
inside it do not matter. `Path.normal` is the path with `.` and `..` resolved, as far as its text
alone tells; `Path.ofUrl` is the file that an address means below a root directory.
-/

namespace ModuleWorkers

/-- A path of a file or directory. -/
structure Path where
  text : String
  deriving Inhabited, Repr

namespace Path

/-- A step of a path. -/
inductive Component
  | root
  /-- The `.` that a relative path starts with. -/
  | here
  | up
  | name (text : List Char)
  deriving DecidableEq, Inhabited, Repr

namespace Component

def chars : Component → List Char
  | root => ['/']
  | here => ['.']
  | up => ['.', '.']
  | name cs => cs

/-- The place of a component before names, and among itself the name. -/
def rank : Component → Nat × List Char
  | root => (0, [])
  | here => (1, [])
  | up => (2, [])
  | name cs => (3, cs)

def lt (a b : Component) : Bool :=
  a.rank.1 < b.rank.1 || (a.rank.1 == b.rank.1 && decide (a.rank.2 < b.rank.2))

end Component

def chars (p : Path) : List Char := p.text.toList

def ofChars (cs : List Char) : Path := ⟨.ofList cs⟩

def isAbsolute (p : Path) : Bool := p.chars.head? == some '/'

/-- Whether a segment counts as a component; `.` does only at the start. -/
def counts (index : Nat) (s : List Char) : Bool := s != [] && (s != ['.'] || index == 0)

/-- The component that a segment is. -/
def component (s : List Char) : Component :=
  if s = ['.'] then .here else if s = ['.', '.'] then .up else .name s

def components (p : Path) : List Component :=
  let steps := (segments p.chars).zipIdx.filterMap fun (s, k) =>
    if counts k s then some (component s) else none
  if p.isAbsolute then .root :: steps else steps

instance : BEq Path := ⟨fun a b => a.components == b.components⟩

/-- The order of paths, by their components. -/
def lt (a b : Path) : Bool := go a.components b.components
where
  go : List Component → List Component → Bool
    | _, [] => false
    | [], _ :: _ => true
    | x :: xs, y :: ys => x.lt y || (x == y && go xs ys)

/-- A path relative to another one; an absolute one stays as it is. -/
def join (p : Path) (relative : Path) : Path :=
  if relative.isAbsolute then relative
  else if p.text.isEmpty || p.text.endsWith "/" then ⟨p.text ++ relative.text⟩
  else ⟨p.text ++ "/" ++ relative.text⟩

instance : HDiv Path String Path := ⟨fun p name => p.join ⟨name⟩⟩

def ofComponents (cs : List Component) : Path :=
  cs.foldl (fun p c => p.join (ofChars c.chars)) ⟨""⟩

/-- The path with `.` and `..` resolved. -/
def normal (p : Path) : Path :=
  let names := joined (collapse (segments p.chars))
  ofChars (if p.isAbsolute then '/' :: names else names)

/-- The same place as seen from the root directory. -/
def absolute (p : Path) : Path := ofChars ('/' :: joined (collapse (segments p.chars)))

/-- The numbers of the segments that count, last one first. -/
def counting (p : Path) : List Nat :=
  ((segments p.chars).zipIdx.filterMap fun (s, k) => if counts k s then some k else none).reverse

/-- The directory that a file or directory is in. -/
def parent? (p : Path) : Option Path :=
  match p.counting with
  | [] => none
  | [_] => some ⟨if p.isAbsolute then "/" else ""⟩
  | _ :: k :: _ => some (ofChars (joined ((segments p.chars).take (k + 1))))

/-- The name of a file or directory in the directory it is in. -/
def fileName? (p : Path) : Option String :=
  match p.components.getLast? with
  | some (.name cs) => some (.ofList cs)
  | _ => none

/-- The name in front of its last point, and what comes after; a point at the start is part of the
name. -/
def splitExtension (name : String) : String × Option String :=
  match name.toList.reverse.span (· != '.') with
  | (ext, _ :: front@(_ :: _)) => (.ofList front.reverse, some (.ofList ext.reverse))
  | _ => (name, none)

/-- The name of a file without its extension. -/
def stem? (p : Path) : Option String := p.fileName?.map fun n => (splitExtension n).1

def extension? (p : Path) : Option String := p.fileName?.bind fun n => (splitExtension n).2

/-- Whether a path is another one or lies below it, by what is written. -/
def isBelow (p dir : Path) : Bool := dir.components.isPrefixOf p.components

/-- What is written of a path after a directory that it is below, without slashes and `.` around
it. -/
def below? (p dir : Path) : Option Path :=
  if p.isBelow dir then
    let steps := (dir.components.filter (· != .root)).length
    match p.counting.reverse.drop steps with
    | [] => some ⟨""⟩
    | first :: others =>
      some (ofChars (joined (((segments p.chars).take (others.getLastD first + 1)).drop first)))
  else none

/-- The way from a directory to a path, if the texts tell it. -/
def relativeTo? (p dir : Path) : Option Path :=
  if p.isAbsolute != dir.isAbsolute then if p.isAbsolute then some p else none
  else (go false p.components dir.components).map ofComponents
where
  go (apart : Bool) : List Component → List Component → Option (List Component)
    | [], [] => some []
    | as, [] => some as
    | [], _ :: bs => (go true [] bs).map (.up :: ·)
    | a :: as, b :: bs =>
      if !apart && a == b then go false as bs
      else if b == .here then (go true as bs).map (a :: ·)
      else if b == .up then none
      else some (.up :: bs.map (fun _ => .up) ++ a :: as)

/-- What a relative path with slashes means in a directory, as far as the texts tell. Slashes at its
start do not matter. -/
def joinNormal (dir : Path) (relative : String) : Path :=
  (dir.join (ofChars (relative.toList.dropWhile (· == '/')))).normal

/-- The file that the path of an address means below a root directory. -/
def ofUrl (root : Path) (url : String) : Path := root.joinNormal (UrlPath.normalize url)

/-- The address of a file below a root directory. -/
def urlOf? (root file : Path) : Option String := (file.below? root).map fun p => "/" ++ p.text

end Path

/-- A set of paths, in the order of paths. -/
abbrev PathSet := List Path

namespace PathSet

/-- Adds a path, unless it is there in some spelling. -/
def insert (p : Path) : PathSet → PathSet
  | [] => [p]
  | q :: qs => if p == q then q :: qs else if p.lt q then p :: q :: qs else q :: insert p qs

/-- The set of some paths. Of several spellings of a path the last one is kept. -/
def ofList (ps : List Path) : PathSet := ps.foldr PathSet.insert []

end PathSet

end ModuleWorkers
