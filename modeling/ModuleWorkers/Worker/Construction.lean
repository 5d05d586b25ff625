import ModuleWorkers.Worker.Masking
/-!
# Constructions of workers

Finds `new Worker(...)` in a script where the arguments say what runs in the worker: a string, an
address that a string gives relative to the script, or the script itself. The search looks at the
masked text only, and takes the text of literals from the script.
-/

namespace ModuleWorkers

open ModuleWorkers.Text

/-- What a construction says to run. -/
inductive WorkerTarget
  | specifier (text : String)
  /-- The script that constructs the worker. -/
  | self
  deriving DecidableEq, Inhabited, Repr

/-- A construction, by the byte offsets of its argument list. -/
structure Construction where
  start : Nat
  stop : Nat
  target : WorkerTarget
  /-- The text of the object in the second argument. -/
  options : Option String
  deriving DecidableEq, Inhabited, Repr

/-- The rest of a masked text and its byte offset. -/
structure MaskedCursor where
  rest : List Masked
  offset : Nat
  deriving Inhabited, Repr

namespace MaskedCursor

/-- The byte length of characters. -/
def byteLength (ms : List Masked) : Nat := ms.foldl (fun n m => n + m.char.utf8Size) 0

/-- Moves to a later place, given what is passed. -/
def past (c : MaskedCursor) (ms rest : List Masked) : MaskedCursor :=
  ⟨rest, c.offset + byteLength ms⟩

/-- Moves past characters while a test holds. -/
def skipWhile (p : Char → Bool) (c : MaskedCursor) : MaskedCursor :=
  c.past (c.rest.takeWhile (p ·.visible)) (c.rest.dropWhile (p ·.visible))

def skipBlanks (c : MaskedCursor) : MaskedCursor := c.skipWhile isAsciiBlank

/-- The next character. -/
def peek? (c : MaskedCursor) : Option Char := c.rest.head?.map Masked.visible

/-- Moves past a character if it comes next, after blanks. -/
def eat? (c : MaskedCursor) (char : Char) : Option MaskedCursor :=
  match c.skipBlanks with
  | ⟨m :: rest, offset⟩ =>
    if m.visible = char then some ⟨rest, offset + m.char.utf8Size⟩ else none
  | ⟨[], _⟩ => none

/-- A piece of a pattern. -/
inductive PatternPiece
  | text (chars : List Char)
  /-- Any number of blanks. -/
  | blanks
  /-- At least one blank. -/
  | gap
  /-- The end of a word. -/
  | wordEnd
  deriving Inhabited, Repr

/-- Moves past a text. -/
def eatText? (c : MaskedCursor) : List Char → Option MaskedCursor
  | [] => some c
  | a :: as =>
    match c with
    | ⟨m :: rest, offset⟩ =>
      if m.visible = a then eatText? ⟨rest, offset + m.char.utf8Size⟩ as else none
    | ⟨[], _⟩ => none

def eatPiece? (c : MaskedCursor) : PatternPiece → Option MaskedCursor
  | .text chars => c.eatText? chars
  | .blanks => some (c.skipWhile isBlank)
  | .gap => if c.peek?.any isBlank then some (c.skipWhile isBlank) else none
  | .wordEnd => if c.peek?.any isWordChar then none else some c

/-- Moves past what a pattern describes. -/
def eatPattern? (c : MaskedCursor) (pattern : List PatternPiece) : Option MaskedCursor :=
  pattern.foldlM eatPiece? c

/-- The text that the masked characters stand for. -/
def source (ms : List Masked) : List Char := ms.map Masked.char

end MaskedCursor

namespace Construction

open MaskedCursor

/-- The start of a construction, up to its arguments. -/
def newWorker : List PatternPiece :=
  [.text "new".toList, .gap, .text "Worker".toList, .blanks, .text ['(']]

def newUrl : List PatternPiece :=
  [.text "new".toList, .gap, .text "URL".toList, .blanks, .text ['(']]

def importMetaUrl : List PatternPiece :=
  [.text "import".toList, .blanks, .text ['.'], .blanks, .text "meta".toList, .blanks, .text ['.'],
    .blanks, .text "url".toList, .wordEnd]

/-- The value of a literal, as far as its escapes are letters for line ends and tabs, or stand for
themselves. -/
def unescape : List Char → List Char
  | [] => []
  | '\\' :: c :: rest =>
    (if c = 'n' then '\n' else if c = 't' then '\t' else if c = 'r' then '\r' else c) :: unescape rest
  | ['\\'] => []
  | c :: rest => c :: unescape rest

/-- Whether a substitution starts somewhere in masked text. -/
def hasSubstitution (ms : List Masked) : Bool :=
  (cut? ['$', '{'] (ms.map Masked.visible)).isSome

/-- Reads a string, or a template without substitutions, after blanks. -/
def string? (c : MaskedCursor) : Option (String × MaskedCursor) :=
  match c.skipBlanks with
  | ⟨[], _⟩ => none
  | ⟨m :: rest, offset⟩ =>
    let quote := m.visible
    if quote = '\'' ∨ quote = '"' ∨ quote = '`' then
      let body := rest.takeWhile (·.visible != quote)
      match rest.dropWhile (·.visible != quote) with
      | [] => none
      | q :: after =>
        if quote = '`' ∧ hasSubstitution body then none
        else some (.ofList (unescape (source body)),
          ⟨after, offset + byteLength (m :: body) + q.char.utf8Size⟩)
    else none

/-- Splits masked text after the brace that closes the first one. -/
def objectEnd? (depth : Nat) (read : List Masked) : List Masked → Option (List Masked × List Masked)
  | [] => none
  | m :: rest =>
    if m.visible = '{' then objectEnd? (depth + 1) (m :: read) rest
    else if m.visible = '}' then
      if depth ≤ 1 then some ((m :: read).reverse, rest) else objectEnd? (depth - 1) (m :: read) rest
    else objectEnd? depth (m :: read) rest

/-- Reads an object, after blanks, up to the brace that closes it. -/
def object? (c : MaskedCursor) : Option (String × MaskedCursor) :=
  let c := c.skipBlanks
  if c.peek? = some '{' then
    (objectEnd? 0 [] c.rest).map fun (ms, rest) => (.ofList (source ms), c.past ms rest)
  else none

/-- Moves past a comma, if there is one. -/
def eatComma (c : MaskedCursor) : MaskedCursor := (c.eat? ',').getD c

/-- Reads the first argument. -/
def target? (c : MaskedCursor) : Option (WorkerTarget × MaskedCursor) :=
  match c.skipBlanks.eatPattern? newUrl with
  | some c => do
    let (text, c) ← string? c
    let c ← (← c.eat? ',').skipBlanks.eatPattern? importMetaUrl
    let c ← (eatComma c).eat? ')'
    return (.specifier text, c)
  | none =>
    match c.skipBlanks.eatPattern? importMetaUrl with
    | some c => some (.self, c)
    | none => (string? c).map fun (text, c) => (.specifier text, c)

/-- Reads the second argument, if there is one. -/
def options? (c : MaskedCursor) : Option (Option String × MaskedCursor) :=
  match c.eat? ',' with
  | none => some (none, c)
  | some c =>
    if c.skipBlanks.peek? = some ')' then some (none, c)
    else (object? c).map fun (text, c) => (some text, eatComma c)

/-- Reads the arguments of a construction. -/
def arguments? (c : MaskedCursor) : Option Construction := do
  let (target, after) ← target? c
  let (options, after) ← options? after
  let close ← after.eat? ')'
  return ⟨c.offset, close.offset - 1, target, options⟩

/-- Reads a construction that starts here, given the character in front. -/
def here? (previous : Option Char) (c : MaskedCursor) : Option Construction :=
  if previous.any isWordChar then none else (c.eatPattern? newWorker).bind arguments?

/-- Finds all constructions from a place on, given those in front of it, last one first. -/
def findFrom (found : List Construction) (previous : Option Char) (offset : Nat) :
    List Masked → List Construction
  | [] => found.reverse
  | m :: rest =>
    findFrom ((here? previous ⟨m :: rest, offset⟩).toList ++ found) (some m.visible)
      (offset + m.char.utf8Size) rest

end Construction

/-- The constructions of workers in a script, in the order in which they stand. -/
def findConstructions (text : String) : Except LexError (List Construction) := do
  return Construction.findFrom [] none 0 (← maskCharacters text.toList)

end ModuleWorkers
