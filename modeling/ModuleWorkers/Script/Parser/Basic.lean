import ModuleWorkers.Script.Token
/-!
# Reading scripts: state and steps

A reader goes through the tokens of a script one by one. It may stop at a failure, or record one
and go on; recorded failures count when reading gets to the end. A failure keeps the state it
happened in, so that a caller that knows how to go on can.
-/

namespace ModuleWorkers.Script

open ModuleWorkers.Text

/-- The grammar parameters in force. -/
structure Mode where
  isStrict : Bool := false
  /-- Whether an import or export declaration was read, which makes the script a module. -/
  isModule : Bool := false
  /-- Whether the operator `in` may be part of an expression. -/
  allowIn : Bool := true
  inAsync : Bool := false
  inGenerator : Bool := false
  inFunction : Bool := false
  inParameters : Bool := false
  /-- Whether a function other than an arrow function is around. -/
  inOrdinaryFunction : Bool := false
  inField : Bool := false
  inStaticBlock : Bool := false
  allowBreak : Bool := false
  allowContinue : Bool := false
  allowSuper : Bool := false
  labels : List String := []
  deriving Inhabited

structure ReadState where
  token : Option Token
  span : Span
  /-- The text from the current token on. -/
  here : Cursor
  /-- The text after the current token. -/
  after : Cursor
  afterLineBreak : Bool
  /-- The place of the token before the current one. -/
  last : Span
  failures : List Failure := []
  /-- Failures that count if the script turns out to be a module. -/
  moduleFailures : List Failure := []
  /-- Where an arrow function could start. -/
  arrowStart : Option Nat := none
  /-- Whether something was read that only modules have. -/
  hasModuleItem : Bool := false
  /-- Trailing commas of array and object literals, by the start of the literal. -/
  trailingCommas : List (Nat × Span) := []
  deriving Inhabited

/-- A reader of some part of a script. -/
abbrev Read := ReaderT Mode (ExceptT Failure (StateM ReadState))

namespace Read

variable {α σ : Type}

/-- Stops at a position. What cannot even be read as a token is reported instead, if the reader
stands before it. -/
def failAt (fault : Fault) (position : Nat) : Read α := do
  match (← get).token with
  | some (.invalid failure) => throw failure
  | _ => throw ⟨fault, position⟩

/-- Stops at the current token. -/
def fail (fault : Fault) : Read α := do failAt fault (← get).span.start

/-- Records a failure and goes on. -/
def recordAt (fault : Fault) (position : Nat) : Read Unit :=
  modify fun s => { s with failures := s.failures ++ [⟨fault, position⟩] }

/-- Records a failure at the current token and goes on. -/
def record (fault : Fault) : Read Unit := do recordAt fault (← get).span.start

/-- Records a failure of strict code, which modules are. -/
def recordStrictAt (fault : Fault) (position : Nat) : Read Unit := do
  if (← read).isStrict then recordAt fault position
  modify fun s => { s with moduleFailures := s.moduleFailures ++ [⟨fault, position⟩] }

/-- Moves to the next token. -/
def advance : Read Unit := do
  let s ← get
  let isStrict := (← read).isStrict
  let next := Scan.token s.after false s.span
  let faults := next.complaints.filter (fun c => !c.moduleOnly || isStrict) |>.map (·.failure)
  let moduleFaults := next.complaints.filter (·.moduleOnly) |>.map (·.failure)
  set { s with
    token := next.token
    span := next.span
    here := next.here
    after := next.after
    afterLineBreak := next.afterLineBreak
    last := s.span
    failures := s.failures ++ faults
    moduleFailures := s.moduleFailures ++ moduleFaults }

/-- Continues after a stretch of text, from `start` to the cursor, that was not read as a token. -/
def advanceFrom (start : Nat) (c : Cursor) : Read Unit := do
  modify fun s => { s with after := c, span := ⟨start, c.position⟩ }
  advance

/-- The token after the current one. -/
def peek : Read Scanned := do
  let s ← get
  return Scan.token s.after false s.span

/-- Where the current token starts; at the end of the text, where the last one stopped. -/
def position : Read Nat := do
  let s ← get
  return if s.token.isSome then s.span.start else s.last.stop

/-- The stretch from a position to the end of the token before the current one. -/
def spanFrom (start : Nat) : Read Span := do
  return ⟨start, (← get).last.stop⟩

def atEnd : Read Bool := do return (← get).token.isNone

/-- Whether a token is the given punctuator or word. -/
def isToken (t : Option Token) (text : String) : Bool :=
  t == some (.punct text) || t == some (.word text false)

def is (text : String) : Read Bool := do return isToken (← get).token text

def isOneOf (texts : List String) : Read Bool := do
  let t := (← get).token
  return texts.any (isToken t)

/-- Moves past the current token if it is the given one. -/
def eat (text : String) : Read Bool := do
  if ← is text then
    advance
    return true
  else return false

/-- How a token is named in a message. -/
def describe : Option Token → String
  | none => "<eof>"
  | some (.punct p) => p
  | some (.word w _) => w
  | some (.num raw) => s!"numeric literal ({raw})"
  | some (.bigint raw) => s!"bigint literal ({raw})"
  | some (.str _ raw) => s!"string literal ({raw})"
  | some (.invalid f) => f.fault.message

/-- Stops, telling what should stand here. -/
def unexpected (what : String) : Read α := do
  fail (.unexpected (describe (← get).token) what)

def expect (text : String) : Read Unit := do
  if !(← eat text) then fail (.expected text (describe (← get).token))

/-- Whether a statement may end here: at a semicolon, a closing brace, the end of the text or a line
break. -/
def atSemicolon : Read Bool := do
  let s ← get
  return s.token.isNone || s.token == some (.punct ";") || s.token == some (.punct "\x7d") ||
    s.afterLineBreak

/-- Ends a statement if it may end here. -/
def eatSemicolon : Read Bool := do
  if ← eat ";" then return true else atSemicolon

def expectSemicolon : Read Unit := do
  if !(← eatSemicolon) then fail .semicolonExpected

/-- Runs a step until it gives a result, at most once for every character that is left. -/
def loop (s : σ) (step : σ → Read (σ ⊕ α)) : Read α := do
  go ((← get).here.rest.length + 2) s
where
  go : Nat → σ → Read α
    | 0, _ => fail .tooDeep
    | fuel + 1, s => do
      match ← step s with
      | .inl s => go fuel s
      | .inr a => return a

/-- Runs a reader under changed grammar parameters. -/
def within (change : Mode → Mode) (r : Read α) : Read α := withReader change r

/-- Runs a reader where `in` may be part of an expression. -/
def allowingIn (r : Read α) : Read α := within (fun m => { m with allowIn := true }) r

end Read

/-! ## Words -/

/-- Words that are never identifiers. -/
def reservedWords : List String := [
  "break", "case", "catch", "class", "const", "continue", "debugger", "default", "delete", "do",
  "else", "enum", "export", "extends", "false", "finally", "for", "function", "if", "import", "in",
  "instanceof", "new", "null", "return", "super", "switch", "this", "throw", "true", "try",
  "typeof", "var", "void", "while", "with"]

/-- Words that are no identifiers in strict code. -/
def strictReservedWords : List String := [
  "implements", "interface", "package", "private", "protected", "public", "static"]

/-- Whether a word is no identifier under the grammar parameters. -/
def isReserved (m : Mode) (word : String) : Bool :=
  reservedWords.contains word ||
    (word == "let" && m.isStrict) ||
    (word == "await" && (m.inAsync || m.inStaticBlock || m.isModule)) ||
    (word == "yield" && (m.inGenerator || m.isStrict)) ||
    (m.isStrict && strictReservedWords.contains word)

namespace Read

/-- The current token as a word, whatever it means. -/
def word? : Read (Option String) := do
  match (← get).token with
  | some (.word w _) => return some w
  | _ => return none

/-- Whether an identifier can stand here. -/
def atIdentifier : Read Bool := do
  match (← get).token with
  | some (.word w _) => return !(isReserved (← read) w)
  | _ => return false

/-- Reads an identifier. -/
def identifier (yieldAllowed awaitAllowed : Bool) : Read Ident := do
  let s ← get
  match s.token with
  | none => failAt .unexpectedEnd (s.after.position)
  | some (.word w _) =>
    let at_ := s.span.start
    advance
    let m ← read
    if w == "enum" then recordAt (.reservedInStrict w) at_
    else if w == "yield" || w == "let" || strictReservedWords.contains w then
      recordStrictAt (.reservedInStrict w) at_
    if w == "await" && m.inStaticBlock then failAt .identifierExpected at_
    if w == "await" && m.inAsync then failAt .reservedAwait at_
    if w == "arguments" && m.inField then recordAt .argumentsInField at_
    if (reservedWords.contains w && w != "enum") || (w == "yield" && !yieldAllowed) ||
        (w == "await" && !awaitAllowed) then
      failAt .identifierExpected at_
    return { name := w, span := s.span }
  | _ => fail .identifierExpected

/-- Reads a name that is being bound. -/
def bindingIdentifier : Read Ident := do
  let i ← identifier true true
  let m ← read
  if i.name == "eval" || i.name == "arguments" then recordStrictAt .strictBinding i.span.start
  if (m.inAsync || m.inStaticBlock) && i.name == "await" then
    recordAt .identifierExpected i.span.start
  if m.inGenerator && i.name == "yield" then recordAt .identifierExpected i.span.start
  return i

/-- Reads a word as a name of a property or export, reserved or not. -/
def anyName : Read (Span × String) := do
  let s ← get
  match s.token with
  | none => failAt .unexpectedEnd s.after.position
  | some (.word w _) =>
    advance
    return (s.span, w)
  | _ => fail .identifierExpected

end Read

end ModuleWorkers.Script
