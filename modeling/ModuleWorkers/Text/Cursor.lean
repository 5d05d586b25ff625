/-!
# Walking through a text

A cursor is the rest of a text together with the number of bytes before it, counted in UTF-8.
-/

namespace ModuleWorkers.Text

/-- How many bytes a text takes in UTF-8. -/
def byteLength (cs : List Char) : Nat := cs.foldl (fun n c => n + c.utf8Size) 0

/-- The rest of a text and the byte position of its first character. -/
structure Cursor where
  rest : List Char
  position : Nat
  deriving Inhabited

namespace Cursor

/-- The character after the cursor. -/
def next? (c : Cursor) : Option Char := c.rest.head?

/-- Moves past one character. -/
def step (c : Cursor) : Cursor :=
  match c.rest with
  | [] => c
  | a :: rest => ⟨rest, c.position + a.utf8Size⟩

/-- Moves past a number of characters. -/
def skip : Nat → Cursor → Cursor
  | 0, c => c
  | n + 1, c => skip n c.step

/-- Moves past characters while a test holds, and gives them. -/
def takeWhile (p : Char → Bool) (c : Cursor) : List Char × Cursor :=
  let taken := c.rest.takeWhile p
  (taken, ⟨c.rest.dropWhile p, c.position + byteLength taken⟩)

/-- Whether the rest starts with a text. -/
def startsWith (c : Cursor) (text : List Char) : Bool := text.isPrefixOf c.rest

end Cursor

end ModuleWorkers.Text
