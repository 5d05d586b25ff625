import ModuleWorkers.Script.Parser.Expression
/-!
# Reading statements

`grammar` ties the readers together: each level of nesting uses the readers of the level below, so
a script can be read with as many levels as it has characters.
-/

namespace ModuleWorkers.Script

open ModuleWorkers.Text

/-- The grammar parameters of the body of a loop. -/
def Mode.forLoop (m : Mode) : Mode := { m with allowBreak := true, allowContinue := true }

/-- Whether a token after `let` makes it a declaration. -/
def followsLet : Option Token → Bool
  | some (.word w _) => !(reservedWords.contains w)
  | some (.punct p) => p == "\x7b" || p == "["
  | _ => false

namespace Read

variable (g : Grammar)

/-! ## Declarations -/

/-- Reads one declared target of a variable declaration with its value. -/
def declarator (inFor : Bool) (kind : DeclKind) : Read Node := do
  let start ← position
  let name ← g.target (kind != .var)
  if inFor && (← isOneOf ["in", "of"]) then return .declarator (← spanFrom start) name none
  if ← eat "=" then
    let value ← g.assignment
    checkProperties value
    return .declarator (← spanFrom start) name (some value)
  if kind == .const && (← read).isStrict then recordAt .constantWithoutInitializer start
  else if !(name matches .binding _) then failAt .patternWithoutInitializer start
  return .declarator (← spanFrom start) name none

/-- Reads a variable declaration from its keyword on; in the head of a `for` loop it has no
semicolon of its own. -/
def variableDeclaration (inFor : Bool) (kind : DeclKind) : Read Node := do
  let start ← position
  let keyword := (← get).span
  advance
  let one := declarator g inFor kind
  let one := if kind != .var || !inFor then allowingIn one else one
  let decls ← loop [] fun decls => do
    if (← atEnd) || (← is ";") then
      let last := (← get).last
      recordAt .commaWithoutDeclaration (if last == keyword then last.stop else last.start)
      return .inr decls.reverse
    let d ← one
    if ← eat "," then return .inl (d :: decls) else return .inr (d :: decls).reverse
  if !inFor && !(← eatSemicolon) then
    record .semicolonExpected
    discard <| tryCatch g.expression fun _ => return .hole
    loop () fun () => do
      if ← eatSemicolon then return .inr ()
      advance
      if (← get).token matches some (.invalid _) then return .inr () else return .inl ()
  return .decl (← spanFrom start) kind decls

def functionDeclaration (isAsync : Bool) : Read Node := do
  let start ← position
  if isAsync then advance
  let (name, f) ← functionFrom g start isAsync false true
  return .functionDecl f.span (name.getD default) f

def classDeclaration : Read Node := do
  let start ← position
  let (name, c) ← classFrom g start true
  return .classDecl c.span (name.getD default) c

/-! ## Simple statements -/

/-- Reads `break` or `continue`. -/
def jump (isBreak : Bool) : Read Node := do
  let start ← position
  advance
  let label ←
    if ← eatSemicolon then pure none
    else do
      let i ← identifier true true
      expectSemicolon
      pure (some i)
  let span ← spanFrom start
  let m ← read
  let isUnknown := label.any fun l => !(m.labels.contains l.name)
  if isBreak then
    if isUnknown then recordAt .unknownLabel start
    else if !m.allowBreak then recordAt .illegalBreak start
    return .break span label
  else
    if !m.allowContinue then recordAt .illegalContinue start
    else if isUnknown then recordAt .unknownLabel start
    return .continue span label

def returnStatement : Read Node := do
  let start ← position
  advance
  let arg ← if ← atSemicolon then pure none else some <$> allowingIn g.expression
  expectSemicolon
  if !(← read).inFunction then recordAt .illegalReturn start
  return .return (← spanFrom start) arg

def throwStatement : Read Node := do
  let start ← position
  advance
  if (← get).afterLineBreak then fail .lineBreakAfterThrow
  let arg ← allowingIn g.expression
  expectSemicolon
  return .throw (← spanFrom start) arg

/-! ## Compound statements -/

/-- Reads an expression in the parentheses of a statement's head. -/
def condition : Read Node := do
  expect "("
  let e ← allowingIn g.expression
  expect ")"
  return e

def ifStatement : Read Node := do
  let start ← position
  advance
  let test ← condition g
  let thenBranch ← g.statement false
  let elseBranch ← if ← eat "else" then some <$> g.statement false else pure none
  return .if (← spanFrom start) test thenBranch elseBranch

def withStatement : Read Node := do
  let start ← position
  recordStrictAt .strictWith start
  advance
  let object ← condition g
  let body ← g.statement false
  return .with (← spanFrom start) object body

def whileStatement : Read Node := do
  let start ← position
  advance
  let test ← condition g
  let body ← within Mode.forLoop (g.statement false)
  return .while (← spanFrom start) test body

def doStatement : Read Node := do
  let start ← position
  advance
  let body ← within Mode.forLoop (g.statement false)
  expect "while"
  let test ← condition g
  discard eatSemicolon
  return .doWhile (← spanFrom start) test body

def switchStatement : Read Node := do
  let start ← position
  advance
  let discriminant ← condition g
  expect "\x7b"
  let cases ← within (fun m => { m with allowBreak := true }) <|
    loop (([] : List Node), false) fun (cases, hasDefault) => do
      if !(← isOneOf ["case", "default"]) then return .inr cases.reverse
      let start ← position
      let isCase ← is "case"
      advance
      if !isCase && hasDefault then fail .repeatedDefaultClause
      let test ← if isCase then some <$> allowingIn g.expression else pure none
      expect ":"
      let body ← loop [] fun body => do
        if (← atEnd) || (← isOneOf ["case", "default", "\x7d"]) then return .inr body.reverse
        return .inl ((← g.statement true) :: body)
      return .inl (.case (← spanFrom start) test body :: cases, hasDefault || !isCase)
  expect "\x7d"
  return .switch (← spanFrom start) discriminant cases

/-- Reads a `catch` clause, if one stands here. -/
def catchClause : Read (Option Node) := do
  let start ← position
  if ← eat "catch" then
    let param ←
      if ← eat "(" then do
        let p ← g.target false
        expect ")"
        pure (some p)
      else pure none
    let body ← block g false
    return some (.catch (← spanFrom start) param body)
  else return none

/-- Reads a `finally` block, if one stands here. -/
def finallyBlock : Read (Option Node) := do
  if ← eat "finally" then return some (← block g false) else return none

def tryStatement : Read Node := do
  let start ← position
  advance
  let body ← block g false
  let after ← position
  let handler ← catchClause g
  let finalizer ← finallyBlock g
  if handler.isNone && finalizer.isNone then recordAt .catchOrFinallyExpected after
  return .try (← spanFrom start) body handler finalizer

/-- What stands between the parentheses of a `for` loop. -/
inductive ForHead
  | steps (init test update : Option Node)
  | keys (left right : Node)
  | values (left right : Node)

/-- Reads a part of the head of a `for` loop, if there is one before `close`. -/
def optionalPart (close : String) : Read (Option Node) := do
  if ← is close then return none else return some (← allowingIn g.expression)

/-- Reads test and update of a `for` loop. -/
def forSteps (init : Option Node) : Read ForHead := do
  let test ← optionalPart g ";"
  expect ";"
  return .steps init test (← optionalPart g ")")

/-- Reads `in` or `of` and what a `for` loop goes through. -/
def forEach (left : Node) : Read ForHead := do
  if ← eat "of" then return .values left (← allowingIn g.assignment)
  else
    advance
    return .keys left (← allowingIn g.expression)

def declKind? : Read (Option DeclKind) := do
  if ← is "var" then return some .var
  else if ← is "const" then return some .const
  else if ← is "let" then return if followsLet (← peek).token then some .let else none
  else return none

def forHead : Read ForHead := do
  if let some kind ← declKind? then
    let decl ← variableDeclaration g true kind
    if ← isOneOf ["of", "in"] then
      match decl with
      | .decl _ _ (.declarator _ name value :: rest) =>
        match rest with
        | .declarator _ second _ :: _ => recordAt .tooManyLoopVariables second.span.start
        | _ =>
          if ((← read).isStrict || (← is "of")) && value.isSome then
            recordAt .loopInitializer name.span.start
      | _ => pure ()
      return ← forEach g decl
    expect ";"
    return ← forSteps g (some decl)
  if ← eat ";" then return ← forSteps g none
  let init ← within (fun m => { m with allowIn := false }) g.expression
  if ← isOneOf ["of", "in"] then return ← forEach g (← assignmentTarget init)
  expect ";"
  checkProperties init
  forSteps g (some init)

def forStatement : Read Node := do
  let start ← position
  advance
  let await_ ← position
  let isAwait ← eat "await"
  expect "("
  let head ← forHead g
  expect ")"
  let body ← within Mode.forLoop (g.statement false)
  let span ← spanFrom start
  match head with
  | .steps init test update =>
    if isAwait then failAt .awaitInLoop await_
    return .for span init test update body
  | .keys left right =>
    if isAwait then failAt .awaitInLoop await_
    return .forIn span left right body
  | .values left right => return .forOf span isAwait left right body

/-- Reads the statement after a label. -/
def labeledStatement (label : Ident) : Read Node := do
  if (← read).labels.contains label.name then
    recordAt (.repeatedLabel label.name) label.span.start
  within (fun m => { m with allowBreak := true, labels := m.labels ++ [label.name] }) do
    let body ←
      if ← is "function" then do
        let f ← functionDeclaration g false
        if (← read).isStrict then recordAt .labeledFunction f.span.start
        match f with
        | .functionDecl _ _ (.func s _ _ isAsync isGenerator) =>
          if isAsync || isGenerator then recordAt .labeledFunction s.start
        | _ => pure ()
        pure f
      else g.statement false
    return .labeled (← spanFrom label.span.start) label body

/-- Reads a statement that starts with an expression. -/
def expressionStatement : Read Node := do
  let start ← position
  let e ← allowingIn g.expression
  match e with
  | .ident label =>
    if ← eat ":" then return ← labeledStatement g label
  | _ => checkProperties e
  if ← eatSemicolon then return .exprStmt (← spanFrom start) e
  if (binaryOp? (← get).token).isSome then
    record .semicolonExpected
    let e ← g.operators e 0
    return .exprStmt (← spanFrom start) e
  fail .semicolonExpected

/-- Reads a statement. Import and export declarations do not nest. -/
def statement (isDeclAllowed : Bool) : Read Node := do
  let s ← get
  let start ← position
  match s.token with
  | none => failAt .unexpectedEnd s.after.position
  | some (.punct "\x7b") => block g false
  | some (.punct ";") =>
    advance
    return .empty s.span
  | some (.word w false) =>
    match w with
    | "import" =>
      let next := (← peek).token
      if next == some (.punct "(") || next == some (.punct ".") then
        let e ← g.expression
        discard eatSemicolon
        return .exprStmt (← spanFrom start) e
      fail .nestedModuleDeclaration
    | "export" => fail .nestedModuleDeclaration
    | "break" => jump true
    | "continue" => jump false
    | "debugger" =>
      advance
      expectSemicolon
      return .debugger (← spanFrom start)
    | "do" => doStatement g
    | "for" => forStatement g
    | "function" =>
      if !isDeclAllowed then record .declarationNotAllowed
      functionDeclaration g false
    | "class" =>
      if !isDeclAllowed then record .declarationNotAllowed
      classDeclaration g
    | "if" => ifStatement g
    | "return" => returnStatement g
    | "switch" => switchStatement g
    | "throw" => throwStatement g
    | "catch" =>
      record .semicolonExpected
      discard <| tryCatch (catchClause g) fun _ => return none
      discard <| tryCatch (finallyBlock g) fun _ => return none
      return .exprStmt s.span .hole
    | "finally" =>
      record .semicolonExpected
      discard <| tryCatch (finallyBlock g) fun _ => return none
      return .exprStmt s.span .hole
    | "try" => tryStatement g
    | "with" => withStatement g
    | "while" => whileStatement g
    | "var" => variableDeclaration g false .var
    | "const" => if isDeclAllowed then variableDeclaration g false .const else expressionStatement g
    | "let" =>
      if isDeclAllowed && followsLet (← peek).token then variableDeclaration g false .let
      else expressionStatement g
    | "async" =>
      if ← followsOnLine "function" then functionDeclaration g true else expressionStatement g
    | _ => expressionStatement g
  | _ => expressionStatement g

end Read

/-! ## All levels -/

open Read in
/-- The readers for a number of levels of nesting. -/
def grammar : Nat → Grammar
  | 0 =>
    let tooDeep : Read Node := fail .tooDeep
    { assignment := tooDeep, expression := tooDeep, unary := tooDeep, constructed := tooDeep
      leftHandSide := tooDeep, operators := fun _ _ => tooDeep, target := fun _ => tooDeep
      statement := fun _ => tooDeep }
  | levels + 1 =>
    { assignment := fun m => assignment (grammar levels) m
      expression := fun m => expression (grammar levels) m
      unary := fun m => unary (grammar levels) m
      constructed := fun m => constructed (grammar levels) m
      leftHandSide := fun m => leftHandSide (grammar levels) m
      operators := fun left precedence m => operators (grammar levels) left precedence m
      target := fun noLet m => target (grammar levels) noLet m
      statement := fun isDeclAllowed m => statement (grammar levels) isDeclAllowed m }

end ModuleWorkers.Script
