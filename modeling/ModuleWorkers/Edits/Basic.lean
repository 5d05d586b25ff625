import ModuleWorkers.Text.Cursor
/-!
# Edits of a text

Edits are given by byte offsets of the base text, whatever was edited before, and are applied when
the text is asked for. They are kept in order and never overlap. `EditBuffer.pieces` cuts the base
text at the edits; the edited text, the spans of the edits and the map back to the base text are all
read off these pieces.
-/

namespace ModuleWorkers

open ModuleWorkers.Text

/-- A stretch of the base text, by byte offsets, and what takes its place. An empty stretch
inserts. -/
structure Edit where
  start : Nat
  stop : Nat
  content : String
  deriving DecidableEq, Inhabited, Repr

/-- Why an edit is refused. -/
inductive EditError
  | overlap (start stop : Nat)
  | outOfBounds (start stop length : Nat)
  deriving DecidableEq, Inhabited, Repr

def EditError.message : EditError → String
  | overlap start stop => s!"edit {start}..{stop} overlaps an existing edit"
  | outOfBounds start stop length =>
    s!"edit {start}..{stop} is not a valid range of the {length} byte source"

namespace Edit

def isInsertion (e : Edit) : Bool := e.start == e.stop

/-- Whether an edit comes in front of another one or at its side: by their starts, insertions
first. -/
def le (a b : Edit) : Bool :=
  a.start < b.start || (a.start == b.start && (a.isInsertion || !b.isInsertion))

/-- Whether two edits cannot both be made: an insertion inside a stretch that is replaced, or
two such stretches that share a character. -/
def conflicts (a b : Edit) : Bool :=
  if a.isInsertion then b.start < a.start && a.start < b.stop
  else if b.isInsertion then a.start < b.start && b.start < a.stop
  else a.start < b.stop && b.start < a.stop

end Edit

/-- A text and the edits made to it, in order. -/
structure EditBuffer where
  base : String
  edits : List Edit := []
  deriving DecidableEq, Inhabited, Repr

/-- A piece of an edited text. -/
inductive Piece
  | kept (text : List Char)
  | edited (old new : List Char)
  deriving DecidableEq, Inhabited, Repr

namespace Piece

def old : Piece → List Char
  | kept text => text
  | edited text _ => text

def new : Piece → List Char
  | kept text => text
  | edited _ text => text

end Piece

/-- Whether a byte offset lies in a text between two characters, or at one of its ends. -/
def isBoundary : Nat → List Char → Bool
  | 0, _ => true
  | _ + 1, [] => false
  | n + 1, c :: cs => c.utf8Size ≤ n + 1 && isBoundary (n + 1 - c.utf8Size) cs

/-- Splits a text at a byte offset. -/
def splitBytes : Nat → List Char → List Char × List Char
  | 0, cs => ([], cs)
  | _ + 1, [] => ([], [])
  | n + 1, c :: cs =>
    let (front, back) := splitBytes (n + 1 - c.utf8Size) cs
    (c :: front, back)

namespace EditBuffer

/-- Puts an edit behind those that come in front of it. -/
def insert (e : Edit) (edits : List Edit) : List Edit :=
  edits.takeWhile (·.le e) ++ e :: edits.dropWhile (·.le e)

/-- Adds an edit, unless it is none of this text or conflicts with another one. -/
def overwrite (b : EditBuffer) (start stop : Nat) (content : String) :
    Except EditError EditBuffer :=
  let text := b.base.toList
  let length := byteLength text
  if stop < start || length < stop || !isBoundary start text || !isBoundary stop text then
    .error (.outOfBounds start stop length)
  else
    let e : Edit := ⟨start, stop, content⟩
    if b.edits.any e.conflicts then .error (.overlap start stop)
    else .ok { b with edits := insert e b.edits }

/-- Adds a text at the end. -/
def append (b : EditBuffer) (content : String) : Except EditError EditBuffer :=
  let length := byteLength b.base.toList
  b.overwrite length length content

/-- Cuts a text at edits, given the byte offset of its start. -/
def cut (offset : Nat) (text : List Char) : List Edit → List Piece
  | [] => [.kept text]
  | e :: es =>
    let (before, rest) := splitBytes (e.start - offset) text
    let (old, rest) := splitBytes (e.stop - e.start) rest
    .kept before :: .edited old e.content.toList :: cut e.stop rest es

/-- The pieces of the edited text, in order. -/
def pieces (b : EditBuffer) : List Piece := cut 0 b.base.toList b.edits

/-- The edited text. -/
def text (b : EditBuffer) : String := .ofList (b.pieces.flatMap Piece.new)

end EditBuffer

end ModuleWorkers
