import ModuleWorkers.Script.Parser.Statement
/-!
# Reading scripts and modules

The top level of a script may hold import and export declarations. The first one makes what follows
strict code, and once the whole text is read, faults that only modules have count as well.
`Program.read` reads a script, or tells the first failure: one that reading stopped at comes before
those that were recorded on the way.
-/

namespace ModuleWorkers.Script

open ModuleWorkers.Text

namespace Read

variable (g : Grammar)

/-- Reads a name in an import or export list: any word, or a string. -/
def externalName : Read ExternalName := do
  let s ← get
  match s.token with
  | some (.str value raw) =>
    advance
    return .str ⟨s.span, value, some raw⟩
  | some (.word w _) =>
    advance
    return .ident s.span w
  | _ => unexpected "identifier or string"

/-- Reads the string that names a module. -/
def moduleSource : Read StringLit := do
  let s ← get
  match s.token with
  | none => failAt .unexpectedEnd s.after.position
  | some (.str value raw) =>
    advance
    return ⟨s.span, value, some raw⟩
  | _ => unexpected "a string literal"

/-- Reads `from` with the string after it, and ends the statement. -/
def fromClause : Read StringLit := do
  expect "from"
  let source ← moduleSource
  expectSemicolon
  return source

/-- Reads entries up to a closing brace, past it. -/
def braced {α : Type} (entry : Read α) : Read (List α) := do
  let entries ← loop [] fun entries => do
    if (← atEnd) || (← is "\x7d") then return .inr entries.reverse
    let e ← entry
    if ← is "\x7d" then return .inr (e :: entries).reverse
    expect ","
    return .inl (e :: entries)
  expect "\x7d"
  return entries

def importEntry : Read ImportItem := do
  if !((← get).token matches some (.str ..) | some (.word ..)) then unexpected "an identifier"
  let name ← externalName
  if ← eat "as" then return .named (← bindingIdentifier) (some name)
  match name with
  | .ident span w =>
    if isReserved (← read) w then failAt .reservedInImport span.start
    return .named { name := w, span } none
  | .str l => failAt (.stringImport l.value) l.span.start

def exportEntry : Read ExportItem := do
  let source ← externalName
  let exported ← if ← eat "as" then some <$> externalName else pure none
  return { source, exported }

/-- Reads an import declaration. -/
def importDeclaration : Read Item := do
  let start ← position
  expect "import"
  if (← get).token matches some (.str ..) then
    let source ← moduleSource
    expectSemicolon
    return .import (← spanFrom start) [] source
  let default_ ←
    if ← atIdentifier then do
      let i ← bindingIdentifier
      pure [ImportItem.default i]
    else pure []
  if !default_.isEmpty && (← is ",") then advance
  let others ←
    if ← eat "*" then do
      expect "as"
      let i ← bindingIdentifier
      pure [ImportItem.namespace i]
    else if ← eat "\x7b" then braced importEntry
    else pure []
  let source ← fromClause
  return .import (← spanFrom start) (default_ ++ others) source

/-- Records the exports of a list without a source that cannot name a variable. -/
def checkExports (entries : List ExportItem) : Read Unit :=
  entries.forM fun e => do
    match e.source with
    | .ident span w =>
      if isReserved { (← read) with isStrict := true } w then
        recordAt (.exportNeedsSource w) span.start
    | .str l => recordAt .stringExport l.span.start

def exportDefault (start : Nat) : Read Item := do
  let here ← position
  if ← is "class" then
    let (name, c) ← classFrom g here false
    return .exportDefaultClass (← spanFrom start) c.span name c
  let isAsync := (← is "async") && (← followsOnLine "function")
  if isAsync then advance
  if isAsync || (← is "function") then
    let (name, f) ← functionFrom g here isAsync false false
    return .exportDefaultFunction (← spanFrom start) f.span name f
  let e ← allowingIn (assignment g)
  expectSemicolon
  return .exportDefaultExpr (← spanFrom start) e

/-- Reads an export declaration. -/
def exportDeclaration : Read Item := do
  let start ← position
  expect "export"
  let s ← get
  if s.token.isNone then failAt .unexpectedEnd s.after.position
  if ← eat "*" then
    if ← is "from" then
      let source ← fromClause
      return .exportAll (← spanFrom start) source
    expect "as"
    let name ← externalName
    let source ← fromClause
    return .exportFrom (← spanFrom start) [.namespace name] source
  if ← eat "default" then return ← exportDefault g start
  if ← is "class" then
    let d ← classDeclaration g
    return .exportDecl (← spanFrom start) d
  if (← is "async") && (← followsOnLine "function") then
    let d ← functionDeclaration g true
    return .exportDecl (← spanFrom start) d
  if ← is "function" then
    let d ← functionDeclaration g false
    return .exportDecl (← spanFrom start) d
  if let some kind ← declKind? then
    let d ← variableDeclaration g false kind
    return .exportDecl (← spanFrom start) d
  expect "\x7b"
  let entries ← braced exportEntry
  if ← is "from" then
    let source ← fromClause
    return .exportFrom (← spanFrom start) (entries.map .named) source
  checkExports entries
  discard eatSemicolon
  return .exportList (← spanFrom start) entries

/-- Reads a top level item. -/
def item : Read Item := do
  if ← is "export" then return ← exportDeclaration g
  if ← is "import" then
    let next := (← peek).token
    if next != some (.punct "(") && next != some (.punct ".") then return ← importDeclaration
  return .stmt (← statement g true)

/-- Reads the items of a script to the end of the text. -/
def items : Read (List Item) := do
  let start ← read
  loop (([] : List Item), start) fun (items, mode) => do
    if ← atEnd then return .inr items.reverse
    let startsModule ← do
      let next := (← peek).token
      pure ((← is "export") || ((← is "import") &&
        next != some (.punct "(") && next != some (.punct ".")))
    let mode := if startsModule then { mode with isStrict := true, isModule := true } else mode
    let i ← within (fun _ => mode) (item g)
    let asksStrict := items.isEmpty && match i with
      | .stmt n => n.isUseStrict
      | _ => false
    return .inl (i :: items, { mode with isStrict := mode.isStrict || asksStrict })

/-- The state before the first token of a text. -/
def start (c : Cursor) : ReadState :=
  let first := Scan.token c true ⟨c.position, c.position⟩
  { token := first.token
    span := first.span
    here := first.here
    after := first.after
    afterLineBreak := first.afterLineBreak
    last := ⟨c.position, c.position⟩
    failures := first.complaints.filter (!·.moduleOnly) |>.map (·.failure)
    moduleFailures := first.complaints.filter (·.moduleOnly) |>.map (·.failure) }

end Read

namespace Program

/-- The interpreter line of a text, if it has one, and the text after it. -/
def interpreterLine (text : List Char) : Option String × Cursor :=
  match text with
  | '#' :: '!' :: rest =>
    let (line, after) := (Cursor.mk rest 3).takeWhile fun c => !(isLineTerminator c)
    (some (.ofList line), after)
  | _ => (none, ⟨text, 1⟩)

/-- Reads a script. -/
def read (text : String) : Except Failure Program :=
  let chars := text.toList
  let (shebang, cursor) := interpreterLine chars
  let (result, final) := (Read.items (grammar (chars.length + 8))).run {} |>.run (Read.start cursor)
  match result with
  | .error f => .error f
  | .ok items =>
    let program : Program := { span := ⟨1, 1 + byteLength chars⟩, shebang, items }
    let failures := final.failures ++
      if program.isModule || final.hasModuleItem then final.moduleFailures else []
    match failures with
    | f :: _ => .error f
    | [] => .ok program

end Program

end ModuleWorkers.Script
