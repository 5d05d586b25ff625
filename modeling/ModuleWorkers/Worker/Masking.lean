import ModuleWorkers.Text.CharClass
import ModuleWorkers.Text.Search
/-!
# Masked source text

Masking hides the bodies of string, template and regular expression literals, and whole comments, so
that what is left can be searched without ever finding anything in a literal. Line ends stay, and so
do the quotes and slashes around bodies. Hidden characters are written as one space for each of
their bytes, so that byte offsets into the masked text are offsets into the text itself.

The reader goes through the text once. It tells a division from a regular expression by what stands
in front of the slash, and follows parentheses for the heads of control statements, and braces for
the substitutions of templates.
-/

namespace ModuleWorkers

open ModuleWorkers.Text

/-- A character of a text, and whether it is hidden. -/
structure Masked where
  char : Char
  isHidden : Bool
  deriving DecidableEq, Inhabited, Repr

namespace Masked

/-- The character that a search sees. -/
def visible (m : Masked) : Char :=
  if m.isHidden && m.char != '\n' && m.char != '\r' then ' ' else m.char

/-- The characters to write for it. -/
def written (m : Masked) : List Char :=
  if m.isHidden && m.char != '\n' && m.char != '\r' then List.replicate m.char.utf8Size ' '
  else [m.char]

end Masked

/-- A literal or comment that does not end, by the byte offset it starts at. -/
inductive LexError
  | unterminatedString (start : Nat)
  | unterminatedComment (start : Nat)
  | unterminatedTemplate (start : Nat)
  | unterminatedRegex (start : Nat)
  deriving DecidableEq, Inhabited, Repr

def LexError.message : LexError → String
  | unterminatedString n => s!"unterminated string literal starting at byte {n}"
  | unterminatedComment n => s!"unterminated comment starting at byte {n}"
  | unterminatedTemplate n => s!"unterminated template literal starting at byte {n}"
  | unterminatedRegex n => s!"unterminated regular expression starting at byte {n}"

namespace Masking

/-- The words after which a slash starts a regular expression. -/
def wordsBeforeExpression : List String :=
  ["return", "typeof", "instanceof", "in", "of", "new", "delete", "void", "throw", "case", "do",
    "else", "yield", "await"]

/-- The words that a head in parentheses follows. -/
def controlWords : List String := ["if", "while", "for", "with"]

/-- Characters of words; beyond ASCII all are. -/
def isWordPart (c : Char) : Bool := c.isAlphanum || c == '_' || c == '$' || c.toNat ≥ 0x80

/-! ## Bodies of literals

Each of these gives the body and what follows the end of the literal, or nothing if it has none. -/

/-- The body of a string; it cannot go over the end of a line unless a backslash stands there. -/
def stringBody (quote : Char) (read : List Char) : List Char → Option (List Char × List Char)
  | [] => none
  | ['\\'] => none
  | '\\' :: c :: rest => stringBody quote (c :: '\\' :: read) rest
  | c :: rest =>
    if c = '\n' then none
    else if c = quote then some (read.reverse, rest)
    else stringBody quote (c :: read) rest

/-- The body of a regular expression; a slash in a class does not end it. -/
def regexBody (inClass : Bool) (read : List Char) : List Char → Option (List Char × List Char)
  | [] => none
  | ['\\'] => none
  | '\\' :: c :: rest => regexBody inClass (c :: '\\' :: read) rest
  | c :: rest =>
    if c = '\n' then none
    else if c = '/' ∧ !inClass then some (read.reverse, rest)
    else regexBody (if c = '[' then true else if c = ']' then false else inClass) (c :: read) rest

/-- The text of a template up to its end or its next substitution, and whether it ends. -/
def templateText (read : List Char) : List Char → Option (List Char × Bool × List Char)
  | [] => none
  | ['\\'] => none
  | '\\' :: c :: rest => templateText (c :: '\\' :: read) rest
  | '`' :: rest => some (read.reverse, true, rest)
  | '$' :: '{' :: rest => some (read.reverse, false, rest)
  | c :: rest => templateText (c :: read) rest

theorem length_stringBody {quote : Char} {read cs : List Char} {r : List Char × List Char}
    (h : stringBody quote read cs = some r) : r.2.length ≤ cs.length := by
  fun_induction stringBody quote read cs <;>
    first | (simp only [List.length_cons] at *; grind) | grind

theorem length_regexBody {inClass : Bool} {read cs : List Char} {r : List Char × List Char}
    (h : regexBody inClass read cs = some r) : r.2.length ≤ cs.length := by
  fun_induction regexBody inClass read cs <;>
    first | (simp only [List.length_cons] at *; grind) | grind

theorem length_templateText {read cs : List Char} {r : List Char × Bool × List Char}
    (h : templateText read cs = some r) : r.2.2.length ≤ cs.length := by
  fun_induction templateText read cs <;>
    first | (simp only [List.length_cons] at *; grind) | grind

theorem length_cut? {part cs : List Char} {r : List Char × List Char}
    (h : cut? part cs = some r) : r.2.length ≤ cs.length := by
  induction cs generalizing r with
  | nil => unfold cut? at h; grind
  | cons c cs ih =>
    unfold cut? at h
    split at h
    · simp only [Option.some.injEq] at h
      simp only [← h, List.length_drop, List.length_cons]
      omega
    · simp only [Option.map_eq_some_iff] at h
      obtain ⟨p, hp, rfl⟩ := h
      have := ih hp
      simp only [List.length_cons]
      omega

/-! ## Going through the text -/

/-- What the reader knows in front of the rest of the text. -/
structure State where
  /-- What was read, last character first. -/
  done : List Masked := []
  /-- The byte offset of the rest. -/
  offset : Nat := 0
  /-- The templates around, innermost first: how deep in braces each substitution starts, and where
  the template starts. -/
  templates : List (Nat × Nat) := []
  depth : Nat := 0
  /-- The parentheses around, innermost first: whether each is the head of a control statement. -/
  parens : List Bool := []
  /-- Whether a slash starts a regular expression. -/
  atExpression : Bool := true
  deriving Inhabited, Repr

namespace State

/-- Moves past characters. -/
def pass (s : State) (isHidden : Bool) (cs : List Char) : State :=
  { s with
    done := cs.foldl (fun done c => ⟨c, isHidden⟩ :: done) s.done
    offset := cs.foldl (fun n c => n + c.utf8Size) s.offset }

def keep (s : State) (cs : List Char) : State := s.pass false cs

def hide (s : State) (cs : List Char) : State := s.pass true cs

/-- Notes whether a slash that comes next starts a regular expression. -/
def before (s : State) (atExpression : Bool) : State := { s with atExpression }

/-- Whether a parenthesis here opens the head of a control statement: a control word stands in front
of it, and no point in front of that. -/
def afterControlWord (s : State) : Bool :=
  let before := s.done.dropWhile (isAsciiBlank ·.visible)
  let word := ((before.takeWhile (isWordPart ·.visible)).map Masked.visible).reverse
  let front := (before.dropWhile (isWordPart ·.visible)).dropWhile (isAsciiBlank ·.visible)
  !front.head?.any (·.visible == '.') && controlWords.contains (.ofList word)

/-- Takes the text of a template in which a substitution just ended, or that just started. -/
def template (s : State) (start : Nat) (cs : List Char) :
    Except LexError (State × List Char) :=
  match templateText [] cs with
  | none => .error (.unterminatedTemplate start)
  | some (text, ends, rest) =>
    let s := ((s.hide text).keep (if ends then ['`'] else ['$', '{'])).before !ends
    .ok (if ends then s else { s with templates := (s.depth, start) :: s.templates }, rest)

/-- Takes what a slash starts, given what follows the slash. -/
def slash (s : State) (cs : List Char) : Except LexError (State × List Char) :=
  match cs with
  | '/' :: _ =>
    .ok (s.hide ('/' :: cs.takeWhile (· != '\n')), cs.dropWhile (· != '\n'))
  | '*' :: rest =>
    match cut? ['*', '/'] rest with
    | none => .error (.unterminatedComment s.offset)
    | some (body, rest) => .ok (s.hide ('/' :: '*' :: body ++ ['*', '/']), rest)
  | cs =>
    if s.atExpression then
      match regexBody false [] cs with
      | none => .error (.unterminatedRegex s.offset)
      | some (body, rest) =>
        .ok ((((s.keep ['/']).hide body).keep ['/']).before false, rest)
    else .ok ((s.keep ['/']).before true, cs)

/-- Takes a closing brace, which may end the substitution of a template. -/
def closeBrace (s : State) (cs : List Char) : Except LexError (State × List Char) :=
  match s.templates with
  | (depth, start) :: outer =>
    if depth = s.depth then template { s.keep ['}'] with templates := outer } start cs
    else .ok ({ (s.keep ['}']).before true with depth := s.depth - 1 }, cs)
  | [] => .ok ({ (s.keep ['}']).before true with depth := s.depth - 1 }, cs)

/-- Takes a string, given what follows its opening quote. -/
def string (s : State) (quote : Char) (cs : List Char) : Except LexError (State × List Char) :=
  match stringBody quote [] cs with
  | none => .error (.unterminatedString s.offset)
  | some (body, rest) => .ok ((((s.keep [quote]).hide body).keep [quote]).before false, rest)

/-- Takes a word. -/
def word (s : State) (c : Char) (cs : List Char) : State × List Char :=
  let text := c :: cs.takeWhile isWordPart
  ((s.keep text).before (wordsBeforeExpression.contains (.ofList text)), cs.dropWhile isWordPart)

/-- Takes a blank or a sign. -/
def sign (s : State) (c : Char) (cs : List Char) : State × List Char :=
  if c = '{' then ({ (s.keep [c]).before true with depth := s.depth + 1 }, cs)
  else if (c = '+' ∨ c = '-') ∧ cs.head? = some c then ((s.keep [c, c]).before false, cs.tail)
  else if c = '(' then
    ({ (s.keep [c]).before true with parens := s.afterControlWord :: s.parens }, cs)
  else if c = ')' then
    ({ (s.keep [c]).before (s.parens.headD false) with parens := s.parens.tail }, cs)
  else if c = ']' ∨ c = '.' then ((s.keep [c]).before false, cs)
  else if isAsciiBlank c then (s.keep [c], cs)
  else ((s.keep [c]).before true, cs)

/-- Takes what starts with a character: a literal, a comment, a word or a sign. -/
def next (s : State) (c : Char) (cs : List Char) : Except LexError (State × List Char) :=
  if c = '/' then s.slash cs
  else if c = '\'' ∨ c = '"' then s.string c cs
  else if c = '`' then (s.keep ['`']).template s.offset cs
  else if c = '}' then s.closeBrace cs
  else if isWordPart c then .ok (s.word c cs)
  else .ok (s.sign c cs)

theorem length_template {s : State} {start : Nat} {cs : List Char} {r : State × List Char}
    (h : s.template start cs = .ok r) : r.2.length ≤ cs.length := by
  unfold template at h
  split at h
  · simp at h
  · rename_i ht
    have := length_templateText ht
    grind

theorem length_slash {s : State} {cs : List Char} {r : State × List Char}
    (h : s.slash cs = .ok r) : r.2.length ≤ cs.length := by
  have hd := (List.dropWhile_sublist (l := cs) (· != '\n')).length_le
  unfold slash at h
  split at h
  · grind
  · split at h
    · simp at h
    · rename_i hc
      have := length_cut? hc
      grind
  · split at h
    · split at h
      · simp at h
      · rename_i hb
        have := length_regexBody hb
        grind
    · grind

theorem length_closeBrace {s : State} {cs : List Char} {r : State × List Char}
    (h : s.closeBrace cs = .ok r) : r.2.length ≤ cs.length := by
  unfold closeBrace at h
  split at h
  · split at h
    · exact length_template h
    · grind
  · grind

theorem length_string {s : State} {quote : Char} {cs : List Char} {r : State × List Char}
    (h : s.string quote cs = .ok r) : r.2.length ≤ cs.length := by
  unfold string at h
  split at h
  · simp at h
  · rename_i hb
    have := length_stringBody hb
    grind

theorem length_sign (s : State) (c : Char) (cs : List Char) :
    (s.sign c cs).2.length ≤ cs.length := by
  have := (List.tail_sublist cs).length_le
  unfold sign
  grind

theorem length_next {s : State} {c : Char} {cs : List Char} {r : State × List Char}
    (h : s.next c cs = .ok r) : r.2.length ≤ cs.length := by
  unfold next at h
  split at h
  · exact length_slash h
  split at h
  · exact length_string h
  split at h
  · exact length_template h
  split at h
  · exact length_closeBrace h
  split at h
  · cases h
    exact (List.dropWhile_sublist _).length_le
  · cases h
    exact length_sign s c cs

/-- Goes through the rest of the text. -/
def run (s : State) : List Char → Except LexError State
  | [] => .ok s
  | c :: cs =>
    match h : s.next c cs with
    | .error e => .error e
    | .ok (s', rest) =>
      have : rest.length ≤ cs.length := length_next h
      run s' rest
termination_by cs => cs.length

end State

/-- The state after the interpreter line that a script may start with, which is hidden. -/
def start (cs : List Char) : State × List Char :=
  match cs with
  | '#' :: '!' :: _ => (State.hide {} (cs.takeWhile (· != '\n')), cs.dropWhile (· != '\n'))
  | cs => ({}, cs)

end Masking

/-- The characters of a text, and which of them are hidden. -/
def maskCharacters (text : List Char) : Except LexError (List Masked) := do
  let (s, rest) := Masking.start text
  let s ← s.run rest
  match s.templates.getLast? with
  | some (_, start) => throw (.unterminatedTemplate start)
  | none => return s.done.reverse

/-- The masked text, byte for byte as long as the text. -/
def mask (text : String) : Except LexError String := do
  return .ofList ((← maskCharacters text.toList).flatMap Masked.written)

end ModuleWorkers
