import ModuleWorkers.Script.Parser.Pattern
/-!
# Reading expressions

Each reader takes the readers of what nests inside, a `Grammar`. Operators bind by precedence,
`**` alone to the right. An arrow function ends the expression it stands in.

Two recoveries matter for what is reported: a unary operator goes on after an operand that failed,
and an operand that fails in front of a binary operator counts as missing. What fails at the end of
the text inside an operand is reported as the text ending too soon.
-/

namespace ModuleWorkers.Script

open ModuleWorkers.Text

/-- The readers of nested syntax. -/
structure Grammar where
  /-- An expression without a comma at its top. -/
  assignment : Read Node
  expression : Read Node
  unary : Read Node
  /-- A `new` expression or what may stand in its place. -/
  constructed : Read Node
  /-- An expression with its members and calls. -/
  leftHandSide : Read Node
  /-- The operators that bind tighter than a precedence, after a left operand. -/
  operators : Node → Nat → Read Node
  /-- A name or pattern that is bound; the flag tells that `let` is no name here. -/
  target : Bool → Read Node
  /-- A statement; the flag tells whether it may be a declaration. -/
  statement : Bool → Read Node

/-- The grammar parameters of a function body. -/
def Mode.forBody (isAsync isGenerator isArrow : Bool) (m : Mode) : Mode := { m with
  inAsync := isAsync
  inGenerator := isGenerator
  inFunction := true
  inOrdinaryFunction := m.inOrdinaryFunction || !isArrow
  inStaticBlock := false
  allowBreak := false
  allowContinue := false
  labels := [] }

/-- The grammar parameters of a function that is no method. -/
def Mode.forFunction (m : Mode) : Mode := { m with allowSuper := false, inField := false }

/-- The grammar parameters of a method. -/
def Mode.forMethod (m : Mode) : Mode := { m with allowSuper := true, inField := false }

namespace Read

variable (g : Grammar)

/-! ## Blocks and functions -/

/-- Reads statements up to a closing brace, past it. When `withDirective` is on, a first statement
that asks for strict code makes the rest strict. -/
def statementsToBrace (withDirective : Bool) : Read (List Node) :=
  loop ([], false) fun (stmts, becameStrict) => do
    if ← atEnd then
      record (.expected "\x7d" "<eof>")
      return .inr stmts.reverse
    if ← eat "\x7d" then return .inr stmts.reverse
    let stmt ← within (fun m => { m with isStrict := m.isStrict || becameStrict })
      (g.statement true)
    let becomesStrict := withDirective && stmts.isEmpty && stmt.isUseStrict
    return .inl (stmt :: stmts, becameStrict || becomesStrict)

def block (withDirective : Bool) : Read Node := do
  let start ← position
  expect "\x7b"
  let stmts ← statementsToBrace g withDirective
  return .block (← spanFrom start) stmts

def functionBody (isAsync isGenerator : Bool) : Read Node :=
  within (Mode.forBody isAsync isGenerator false) (allowingIn (block g true))

/-- Reads the body of an arrow function: a block or an expression. -/
def arrowBody (isAsync : Bool) : Read Node :=
  within (Mode.forBody isAsync false true) do
    if ← is "\x7b" then allowingIn (block g true) else g.assignment

/-- Reads a pattern that may have a default value. -/
def targetWithDefault : Read Node := do
  let start ← position
  let left ← g.target false
  if ← eat "=" then
    let right ← allowingIn g.assignment
    return .defaultPattern (← spanFrom start) left right
  else return left

/-- Reads parameters up to a closing parenthesis. -/
def parameters : Read (List Node) :=
  loop ([], none) fun (params, rest) => do
    if (← atEnd) || (← is ")") then return .inr params.reverse
    match rest with
    | some (restSpan : Span) => recordAt .restNotLast restSpan.start
    | none => pure ()
    let start ← position
    let isRest ← eat "..."
    let param ←
      if isRest then do
        let dots ← spanFrom start
        let pattern ← g.target false
        if ← eat "=" then
          discard <| g.assignment
          recordAt .restWithInitializer pattern.span.start
        pure (.restPattern (← spanFrom start) dots pattern)
      else targetWithDefault g
    if !(← is ")") then
      expect ","
      if isRest && (← is ")") then recordAt .commaAfterRest (← get).last.start
    return .inl (param :: params, if isRest then some param.span else rest)

/-- Reads parameters and body of a function that starts at `start`; `check` looks at the
parameters. -/
def functionTail (start : Nat) (isAsync isGenerator : Bool)
    (check : List Node → Read Unit := fun _ => pure ()) : Read Node := do
  expect "("
  let params ← within (fun m => { m with
      inParameters := true, inFunction := false, inAsync := isAsync
      inGenerator := isGenerator }) do
    let params ← parameters g
    check params
    pure params
  expect ")"
  let body ← functionBody g isAsync isGenerator
  return .func (← spanFrom start) params body isAsync isGenerator

/-- Reads a name that is being bound, if one stands here. -/
def bindingIdentifier? : Read (Option Ident) := do
  if ← atIdentifier then return some (← bindingIdentifier) else return none

/-- Reads a function from its keyword on, giving its name and the function. `start` is where the
function starts, which is at `async` if it has that. -/
def functionFrom (start : Nat) (isAsync isExpression isNamed : Bool) :
    Read (Option Ident × Node) := within Mode.forFunction do
  expect "function"
  let isGenerator ← eat "*"
  let readName := if isNamed then some <$> bindingIdentifier else bindingIdentifier?
  let name ←
    if isExpression then
      within (fun m => { m with inAsync := isAsync, inGenerator := isGenerator }) readName
    else readName
  return (name, ← functionTail g start isAsync isGenerator)

/-! ## Keys and properties -/

/-- Reads the key of a property or class member, other than a private name. -/
def propertyKey : Read Node := do
  let s ← get
  let start ← position
  match s.token with
  | none => failAt .unexpectedEnd s.after.position
  | some (.str value raw) =>
    advance
    return .str ⟨s.span, value, some raw⟩
  | some (.num raw) =>
    advance
    return .num s.span raw
  | some (.bigint raw) =>
    advance
    return .bigint s.span raw
  | some (.word w _) =>
    advance
    return .name s.span w
  | some (.punct "[") =>
    advance
    let e ← allowingIn g.assignment
    expect "]"
    return .computed (← spanFrom start) e
  | _ => unexpected "identifier, string literal, numeric literal or [ for the computed key"

/-- Records that a getter has parameters. -/
def checkGetter (key : Node) (params : List Node) : Read Unit := do
  if !params.isEmpty then recordAt .accessorParameters key.span.start

/-- Records that a setter has not exactly one parameter, or takes all arguments as one. -/
def checkSetter (key : Node) (params : List Node) : Read Unit := do
  if params.length != 1 then recordAt .accessorParameters key.span.start
  match params with
  | .restPattern s _ _ :: _ => recordAt .accessorParameters s.start
  | _ => return

/-- Reads a property of an object literal. -/
def property : Read Node := do
  let start ← position
  if ← eat "..." then
    let dots ← spanFrom start
    return .spreadProperty dots (← allowingIn g.assignment)
  if ← eat "*" then
    let key ← propertyKey g
    let f ← within Mode.forMethod (functionTail g start false true)
    return .method f.span key f
  let key ← propertyKey g
  if ← eat ":" then
    return .keyValue key (← allowingIn g.assignment)
  if ← is "(" then
    let f ← within Mode.forMethod (functionTail g start false false)
    return .method f.span key f
  match key with
  | .name span w =>
    if ← isOneOf ["=", ",", "\x7d"] then
      if isReserved (← read) w then recordAt .reservedShorthand span.start
      if ← eat "=" then
        let value ← allowingIn g.assignment
        return .defaulted (← spanFrom start) { name := w, span } value
      return .shorthand { name := w, span }
    match w with
    | "get" =>
      let key ← propertyKey g
      let f ← within Mode.forMethod (functionTail g start false false (checkGetter key))
      match f with
      | .func s _ body _ _ => return .getter s key body
      | _ => return f
    | "set" =>
      let key ← propertyKey g
      let f ← within Mode.forMethod (functionTail g start false false (checkSetter key))
      match f with
      | .func s (param :: _) body _ _ => return .setter s key param body
      | .func s [] body _ _ => return .setter s key .hole body
      | _ => return f
    | "async" =>
      let isGenerator ← eat "*"
      let key ← propertyKey g
      let f ← within Mode.forMethod (functionTail g start true isGenerator)
      return .method f.span key f
    | _ => unexpected "... , *,  (, [, :, , ?, = or an identifier"
  | _ => unexpected "identifier"

def objectLiteral : Read Node := do
  let start ← position
  expect "\x7b"
  let (props, comma) ← loop (([] : List Node), (none : Option Span)) fun (props, comma) => do
    if ← eat "\x7d" then return .inr (props.reverse, comma)
    let p ← property g
    if !(← is "\x7d") then
      expect ","
      if ← is "\x7d" then return .inl (p :: props, some (← get).last)
    return .inl (p :: props, none)
  let span ← spanFrom start
  match comma with
  | some c => modify fun s => { s with trailingCommas := (start, c) :: s.trailingCommas }
  | none => pure ()
  return .object span props

/-- Reads an expression that may be spread. -/
def spreadable : Read Node := allowingIn do
  let start ← position
  if ← eat "..." then
    let dots ← spanFrom start
    return .spread dots (← g.assignment)
  else g.assignment

def arrayLiteral : Read Node := do
  let start ← position
  expect "["
  let elements ← loop [] fun elements => do
    if (← atEnd) || (← is "]") then return .inr elements.reverse
    if ← eat "," then return .inl (.hole :: elements)
    let e ← spreadable g
    if !(← is "]") then
      expect ","
      if ← is "]" then
        let comma := (← get).last
        modify fun s => { s with trailingCommas := (start, comma) :: s.trailingCommas }
    return .inl (e :: elements)
  expect "]"
  return .array (← spanFrom start) elements

/-! ## Classes -/

/-- Whether what follows makes the member just named a method. -/
def atMethod : Read Bool := is "("

/-- Whether what follows makes the member just named a field; `anyEnd` tells that a line break ends
it, too. -/
def atField (anyEnd : Bool) : Read Bool := do
  if ← isOneOf ["=", "\x7d"] then return true
  if anyEnd then atSemicolon else is ";"

/-- Reads the key of a class member. -/
def memberKey : Read Node := do
  let start ← position
  if ← eat "#" then
    let (_, name) ← anyName
    let span ← spanFrom start
    if name == "constructor" then recordAt .specialConstructor span.start
    return .privateName span name
  else propertyKey g

/-- Whether a key names the constructor of a class. -/
def isConstructorKey : Node → Bool
  | .name _ w => w == "constructor"
  | .str l => l.value == "constructor"
  | _ => false

/-- Reads a method of a class after its key. -/
def methodMember (start : Nat) (key : Node) (kind : MethodKind) (isStatic isAsync isGenerator : Bool)
    (check : List Node → Read Unit := fun _ => pure ()) : Read Node := do
  let f ← within Mode.forMethod (functionTail g start isAsync isGenerator check)
  return .methodMember (← spanFrom start) key f kind isStatic

/-- Reads a field of a class after its key. -/
def fieldMember (start : Nat) (key : Node) (isStatic : Bool) : Read Node := do
  if isConstructorKey key then failAt .specialConstructor key.span.start
  within (fun m => { m with
      allowIn := true, inField := true, inAsync := false, inGenerator := false }) do
    let value ← if ← eat "=" then some <$> g.assignment else pure none
    if !(← eatSemicolon) then record .semicolonExpected
    return .fieldMember (← spanFrom start) key value isStatic

/-- Reads a constructor after its key. -/
def constructorMember (start : Nat) : Read Node := do
  expect "("
  let params ← within (fun m => { m with inParameters := true, inFunction := false })
    (within Mode.forMethod (parameters g))
  expect ")"
  let body ← within Mode.forMethod (functionBody g false false)
  return .constructorMember (← spanFrom start) params body

/-- Reads a member of a class after `static`, if it has that. -/
def memberFrom (start : Nat) (isStatic : Bool) : Read Node := do
  if isStatic && (← is "\x7b") then
    let body ← within (fun m => { m with
        inStaticBlock := true, inField := true, allowBreak := false, allowContinue := false
        labels := [] }) (block g false)
    return .staticBlock (← spanFrom start) body
  if ← eat "*" then
    let key ← memberKey g
    if isConstructorKey key && !isStatic then recordAt .specialConstructor key.span.start
    return ← methodMember g start key .method isStatic false true
  let key ← memberKey g
  if ← atMethod then
    if isConstructorKey key && !isStatic then return ← constructorMember g start
    return ← methodMember g start key .method isStatic false false
  let isGeneratorNext := (← get).afterLineBreak && (← is "*")
  let accessor := match key with
    | .name _ w => if w == "get" || w == "set" then some w else none
    | _ => none
  let accessor := if (← atField false) || isGeneratorNext then none else accessor
  if accessor.isNone && (← atField true) then return ← fieldMember g start key isStatic
  if (key matches .name _ "async") && !(← get).afterLineBreak then
    let isGenerator ← eat "*"
    let key ← memberKey g
    if isConstructorKey key && !isStatic then recordAt .specialConstructor key.span.start
    return ← methodMember g start key .method isStatic true isGenerator
  match accessor with
  | some w =>
    let keyword := key
    let key ← memberKey g
    if isConstructorKey key && !isStatic then recordAt .specialConstructor keyword.span.start
    if w == "get" then
      methodMember g start key .getter isStatic false false (checkGetter keyword)
    else methodMember g start key .setter isStatic false false (checkSetter keyword)
  | none => unexpected "* for generator, private key, identifier or async"

def member : Read Node := within (fun m => { m with allowSuper := true }) do
  let start ← position
  let static_ := (← get).span
  if ← eat "static" then
    if ← atMethod then
      return ← methodMember g start (.name static_ "static") .method false false false
    if (← atField false) && !(← is "\x7b") then
      return ← fieldMember g start (.name static_ "static") false
    memberFrom g start true
  else memberFrom g start false

/-- Reads a class from its keyword on, giving its name and body. -/
def classFrom (start : Nat) (isNamed : Bool) : Read (Option Ident × Node) :=
  within (fun m => { m with isStrict := true }) do
    expect "class"
    let name ← if isNamed then some <$> bindingIdentifier else bindingIdentifier?
    let superclass ←
      if ← eat "extends" then some <$> g.leftHandSide else pure none
    expect "\x7b"
    let members ← loop ([], false) fun (members, hasConstructor) => do
      if (← atEnd) || (← is "\x7d") then return .inr members.reverse
      if ← is ";" then
        let span := (← get).span
        advance
        return .inl (.emptyMember span :: members, hasConstructor)
      let m ← member g
      let isConstructor := m matches .constructorMember ..
      if isConstructor && hasConstructor then recordAt .repeatedConstructor m.span.start
      return .inl (m :: members, hasConstructor || isConstructor)
    if ← atEnd then record (.expected "\x7d" "<eof>") else expect "\x7d"
    return (name, .classBody (← spanFrom start) superclass members)

/-! ## Templates and regular expressions -/

/-- Reads a template from its backtick on. -/
def template (isTagged : Bool) : Read Node := do
  let start ← position
  let (texts, exprs) ← loop (([] : List TemplateText), ([] : List Node)) fun (texts, exprs) => do
    let c := (← get).after
    match Scan.templateText (c.rest.length + 1) c [] none with
    | none => failAt .unterminatedTemplate start
    | some part =>
      match part.badEscape with
      | some p => if !isTagged then failAt .badEscape p
      | none => pure ()
      let texts := ⟨⟨c.position, part.after.position⟩, part.raw⟩ :: texts
      if part.isLast then
        advanceFrom part.after.position part.after.step
        return .inr (texts.reverse, exprs.reverse)
      else
        advanceFrom part.after.position (part.after.skip 2)
        let e ← allowingIn g.expression
        if !(← is "\x7d") then fail (.expected "\x7d" (describe (← get).token))
        return .inl (texts, e :: exprs)
  return .template (← spanFrom start) texts exprs

/-- Reads a regular expression from its slash on. -/
def regex : Read Node := do
  let start ← position
  match Scan.regex (← get).here with
  | none =>
    let failure : Failure := ⟨.unterminatedRegex, start⟩
    modify fun s => { s with token := some (.invalid failure) }
    throw failure
  | some (pattern, flags, after) =>
    let flagList := flags.toList
    if !(flagList.all "dgimsuvy".toList.contains) then recordAt .unknownRegexFlags start
    if flagList.eraseDups.length != flagList.length then recordAt .repeatedRegexFlag start
    advanceFrom start after
    return .regex (← spanFrom start) pattern flags

/-! ## Parentheses and arrow functions -/

/-- Reads what stands in parentheses, as arguments, items of a comma expression or parameters, with
the place of a comma at the end. -/
def parenthesized : Read (List Node × Option Span) := do
  expect "("
  let result ← loop (([] : List Node), (none : Option Span)) fun (items, comma) => do
    if (← atEnd) || (← is ")") then return .inr (items.reverse, comma)
    let item ← spreadable g
    if !(← is ")") then
      expect ","
      if ← is ")" then return .inl (item :: items, some (← get).last)
    return .inl (item :: items, comma)
  expect ")"
  return result

/-- Reads an arrow function after its parameters. -/
def arrowFrom (start : Nat) (isAsync : Bool) (params : List Node) : Read Node := do
  let body ← arrowBody g isAsync
  return .arrow (← spanFrom start) params body isAsync

/-- Whether the current token is an operator between two operands, `in` and `instanceof` apart. -/
def binaryOp? : Option Token → Option BinaryOp
  | some (.punct p) => [BinaryOp.eq, .ne, .strictEq, .strictNe, .lt, .le, .gt, .ge, .shl, .shr,
      .ushr, .add, .sub, .mul, .div, .mod, .bitOr, .bitXor, .bitAnd, .or, .and, .exp,
      .coalesce].find? (·.text == p)
  | _ => none

/-- Reads an expression in parentheses, a call of `async` or an arrow function; `async_` is the
place of an `async` before. -/
def parenOrArrow (canBeArrow : Bool) (async_ : Option Span) : Read Node := do
  let start ← match async_ with
    | some s => pure s.start
    | none => position
  let (items, comma) ← parenthesized g
  if ← is "=>" then
    if (← get).afterLineBreak then failAt .lineBreakBeforeArrow start
    if !canBeArrow then failAt .arrowNotAllowed start
    expect "=>"
    let params ← arrowParameters comma items
    let f ← arrowFrom g start async_.isSome params
    if (f matches .arrow _ _ (.block ..) _) && (binaryOp? (← get).token).isSome then
      record .semicolonExpected
      discard <| g.operators f 0
    return f
  for item in items do
    match item with
    | .object _ props =>
      for p in props do
        match p with
        | .defaulted s _ _ => recordAt .defaultedProperty s.start
        | _ => pure ()
    | _ => pure ()
  match async_ with
  | some span => return .call (← spanFrom start) (.ident { name := "async", span }) items false
  | none =>
    match comma with
    | some c => recordAt .commaWithoutDeclaration c.start
    | none => pure ()
    for item in items do
      match item with
      | .spread _ e => failAt .spreadInParentheses e.span.start
      | _ => pure ()
    match items with
    | [] => failAt .emptyParentheses start
    | [e] => return .paren (← spanFrom start) e
    | first :: rest =>
      let last := rest.getLast?.getD first
      return .paren (← spanFrom start) (.sequence (first.span.through last.span) (first :: rest))

/-! ## Primary expressions -/

/-- Reads an identifier, which may be the parameter of an arrow function. -/
def identifierOrArrow (start : Nat) (canBeArrow : Bool) : Read Node := do
  let i ← identifier true true
  let s ← get
  if canBeArrow && i.name == "async" && (← atIdentifier) && !s.afterLineBreak then
    let param ← within (fun m => { m with inAsync := true }) (identifier true true)
    expect "=>"
    arrowFrom g start true [.binding param]
  else if canBeArrow && !s.afterLineBreak && (← eat "=>") then
    if (← read).isStrict && (i.name == "eval" || i.name == "arguments") then
      recordAt .strictBinding i.span.start
    arrowFrom g start false [.binding i]
  else return .ident i

/-- Whether the next token stands on the line of the current one and is the given one. -/
def followsOnLine (text : String) : Read Bool := do
  let next ← peek
  return isToken next.token text && !next.afterLineBreak

def primary : Read Node := do
  let start ← position
  let s ← get
  let canBeArrow := s.arrowStart == some start
  match s.token with
  | some (.word "this" false) =>
    advance
    return .this s.span
  | some (.word "null" false) =>
    advance
    return .null s.span
  | some (.word "true" false) =>
    advance
    return .bool s.span true
  | some (.word "false" false) =>
    advance
    return .bool s.span false
  | some (.word "function" false) =>
    let (name, f) ← functionFrom g start false true false
    return .function f.span name f
  | some (.word "class" false) =>
    let (name, c) ← classFrom g start false
    return .class c.span name c
  | some (.num raw) =>
    advance
    return .num s.span raw
  | some (.bigint raw) =>
    advance
    return .bigint s.span raw
  | some (.str value raw) =>
    advance
    return .str ⟨s.span, value, some raw⟩
  | some (.punct "[") => arrayLiteral g
  | some (.punct "\x7b") => objectLiteral g
  | some (.punct "/") => regex
  | some (.punct "/=") => regex
  | some (.punct "`") => template g false
  | some (.punct "(") => parenOrArrow g canBeArrow none
  | some (.punct "#") =>
    advance
    let (_, name) ← anyName
    return .privateName (← spanFrom start) name
  | some (.word w _) =>
    if ← is "async" then
      if ← followsOnLine "function" then
        advance
        let (name, f) ← functionFrom g start true true false
        return .function f.span name f
      if canBeArrow && (← followsOnLine "(") then
        advance
        return ← parenOrArrow g canBeArrow (some s.span)
    if isReserved (← read) w then fail .expressionExpected
    identifierOrArrow g start canBeArrow
  | _ => fail .expressionExpected

/-! ## Members, calls and constructions -/

/-- Reads arguments with their parentheses. -/
def arguments (isImport : Bool) : Read (List Node) := allowingIn do
  let start ← position
  expect "("
  let args ← loop ([], true) fun (args, isFirst) => do
    if (← atEnd) || (← is ")") then return .inr args.reverse
    if !isFirst then
      expect ","
      if ← is ")" then
        if isImport then failAt .trailingCommaInImport start
        return .inr args.reverse
    return .inl ((← spreadable g) :: args, false)
  expect ")"
  return args

/-- Reads the name after a point. -/
def memberName : Read Node := do
  let start ← position
  if ← eat "#" then
    let (_, name) ← anyName
    return .privateName (← spanFrom start) name
  else
    let (span, name) ← anyName
    return .name span name

/-- Reads one more member access or call after an expression; `none` if there is no more. With
`noCall` on, plain calls are left alone. -/
def subscript (start : Nat) (noCall : Bool) (e : Node) : Read (Option Node) := do
  let isSuper := e matches .super _
  let isOptional ← eat "?."
  let inChain := isOptional || e.isOptionalChain
  let checkSuper : Read Unit := do
    if isSuper && !(← read).allowSuper then failAt .superNotAllowed e.span.start
  if ← is "[" then
    let bracket ← position
    advance
    let key ← allowingIn g.expression
    expect "]"
    checkSuper
    let span ← spanFrom start
    let key := .computed (← spanFrom bracket) key
    return some (if inChain then .optionalMember span isOptional e key else .member span e key)
  if (← is "(") && (isOptional || !noCall) then
    checkSuper
    let args ← arguments g false
    let span ← spanFrom start
    return some (if inChain then .optionalCall span isOptional e args else .call span e args false)
  if isOptional || (← eat ".") then
    let key ← memberName
    checkSuper
    let span ← spanFrom start
    return some (if inChain then .optionalMember span isOptional e key else .member span e key)
  if isSuper then fail .superCallNotAllowed
  if ← is "`" then
    let t ← template g true
    let span ← spanFrom start
    if e.isOptionalChain then recordAt .optionalTemplate span.start
    return some (.tagged span e t)
  return none

/-- Reads the member accesses and calls after an expression. -/
def subscripts (noCall : Bool) (e : Node) : Read Node :=
  loop e fun e' => do
    match ← subscript g e.span.start noCall e' with
    | some next => return .inl next
    | none => return .inr e'

/-- Reads `import.meta` or a dynamic import after the keyword, and what is accessed of it. -/
def importExpression (start : Nat) (noCall : Bool) : Read Node := do
  let keyword ← spanFrom start
  if ← eat "." then
    modify fun s => { s with hasModuleItem := true }
    if (← anyName).2 != "meta" then unexpected "meta"
    subscripts g noCall (.importMeta (← spanFrom start))
  else
    if noCall || !(← is "(") then fail .importNotCalled
    let args ← arguments g true
    subscripts g noCall (.importCall (← spanFrom start) keyword args)

/-- Reads a construction, or a primary expression with its members. -/
def constructed : Read Node := do
  let start ← position
  if ← eat "new" then
    if ← eat "." then
      if !(← eat "target") then unexpected "target"
      let span ← spanFrom start
      let m ← read
      if !m.inOrdinaryFunction && !m.inParameters && !m.inField then
        recordAt .newTargetNotAllowed span.start
      return ← subscripts g true (.newTarget span)
    let callee ← g.constructed
    if callee.isArrow then return callee
    match callee with
    | .optionalMember s .. => failAt .optionalConstructor s.start
    | .optionalCall s .. => failAt .optionalConstructor s.start
    | .member _ o _ => if o.isOptionalChain then failAt .optionalConstructor o.span.start
    | _ => pure ()
    if ← is "(" then
      let args ← arguments g false
      subscripts g true (.new (← spanFrom start) callee true args)
    else return .new (← spanFrom start) callee false []
  else if ← eat "super" then subscripts g true (.super (← spanFrom start))
  else if ← eat "import" then importExpression g start true
  else
    let e ← primary g
    if e.isArrow then return e
    subscripts g true e

/-- Reads an expression with its members and calls. -/
def leftHandSide : Read Node := do
  let start ← position
  if ← eat "super" then return ← subscripts g false (.super (← spanFrom start))
  if ← eat "import" then return ← importExpression g start false
  let callee ← constructed g
  if callee.isArrow then return callee
  if callee matches .new _ _ false _ then return callee
  if ← is "(" then
    let args ← arguments g false
    let span ← spanFrom start
    let call := if callee.isOptionalChain then .optionalCall span false callee args
      else .call span callee args false
    subscripts g false call
  else return callee

/-! ## Operators -/

def updateOp? : Read (Option UpdateOp) := do
  if ← is "++" then return some .increment
  else if ← is "--" then return some .decrement
  else return none

def unaryOp? : Read (Option UnaryOp) := do
  let t := (← get).token
  return [UnaryOp.minus, .plus, .not, .tilde, .typeof, .void, .delete].find? (isToken t ·.text)

/-- Reads an `await` expression. Where a function is not asynchronous, `await` may be a name. -/
def awaitExpression : Read Node := do
  let start ← position
  expect "await"
  if ← is "*" then fail .awaitStar
  let span ← spanFrom start
  let m ← read
  if !m.inAsync && (← isOneOf [")", "]", ";", ","]) then
    if m.isModule then recordAt .reservedAwait span.start
    return .ident { name := "await", span }
  if !m.inFunction && !m.inParameters then modify fun s => { s with hasModuleItem := true }
  if m.inFunction && !m.inAsync then record .awaitInFunction
  if m.inParameters && !m.inFunction then recordAt .awaitInParameters span.start
  let arg ← g.unary
  return .await (← spanFrom start) arg

def unary : Read Node := do
  let start ← position
  if let some op ← updateOp? then
    advance
    let arg ← g.unary
    checkTarget arg
    return .update ⟨start, arg.span.stop⟩ op true arg
  if let some op ← unaryOp? then
    advance
    let arg ← tryCatch g.unary fun f => do
      modify fun s => { s with failures := s.failures ++ [f] }
      return .hole
    match op, arg with
    | .delete, .ident i => recordStrictAt .strictDelete i.span.start
    | _, _ => pure ()
    return .unary ⟨start, arg.span.stop⟩ op arg
  if ← is "await" then return ← awaitExpression g
  let e ← leftHandSide g
  if e.isArrow || (← get).afterLineBreak then return e
  if let some op ← updateOp? then
    checkTarget e
    advance
    return .update ⟨e.span.start, (← get).last.stop⟩ op false e
  return e

/-- The operator between two operands that stands here. -/
def operator? : Read (Option BinaryOp) := do
  if (← is "in") && (← read).allowIn then return some .in
  else if ← is "instanceof" then return some .instanceof
  else return binaryOp? (← get).token

/-- Whether an expression is `a && b` or `a || b` without parentheses. -/
def isLogical : Node → Bool
  | .binary _ .and _ _ | .binary _ .or _ _ => true
  | _ => false

/-- Reads the operators that bind tighter than a precedence, and their right operands. -/
def operators (left : Node) (precedence : Nat) : Read Node :=
  loop left fun left => do
    match ← operator? with
    | none => return .inr left
    | some op =>
      if op.precedence ≤ precedence then return .inr left
      advance
      if op == .exp && ((left matches .unary ..) || (left matches .await ..)) then
        fail .unaryBeforeExponent
      let right ← g.unary
      let right ← g.operators right (if op == .exp then op.precedence - 1 else op.precedence)
      if op == .coalesce then
        if isLogical left then recordAt .mixedCoalescing left.span.start
        if isLogical right then recordAt .mixedCoalescing right.span.start
      let e := Node.binary (left.span.through right.span) op left right
      if isLogical e && (left matches .binary _ .coalesce _ _) then
        recordAt .mixedCoalescing e.span.start
      return .inl e

/-- Reads operands and the operators between them. -/
def operation : Read Node := do
  let left ← tryCatch (unary g) fun f => do
    let s ← get
    match s.token with
    | none => failAt .unexpectedEnd s.after.position
    | _ =>
      if (← operator?).isSome then
        record .expressionExpected
        return .hole
      else throw f
  if left.isArrow then return left
  operators g left 0

def conditional : Read Node := do
  let start ← position
  let test ← operation g
  if test.isArrow then return test
  if ← eat "?" then
    let thenBranch ← allowingIn g.assignment
    expect ":"
    let elseBranch ← g.assignment
    return .conditional ⟨start, elseBranch.span.stop⟩ test thenBranch elseBranch
  else return test

/-- Whether an expression may start here. -/
def startsExpression : Option Token → Bool
  | none => true
  | some (.word w _) => !(reservedWords.contains w) ||
      ["class", "delete", "false", "function", "import", "new", "null", "super", "this", "true",
        "typeof", "void"].contains w
  | some (.punct p) =>
    ["!", "~", "(", "[", "\x7b", "`", "+", "-", "++", "--", "#", "/", "/=", "<", "@"].contains p
  | some _ => true

/-- Reads a `yield` expression. -/
def yieldExpression : Read Node := do
  let start ← position
  expect "yield"
  let m ← read
  if m.inParameters && !m.inFunction then failAt .yieldInParameters start
  let s ← get
  if s.afterLineBreak || (s.token != some (.punct "*") && !(startsExpression s.token)) then
    return .yield (← spanFrom start) none false
  let isDelegate ← eat "*"
  let arg ← g.assignment
  return .yield (← spanFrom start) (some arg) isDelegate

/-- The operator of an assignment that stands here. -/
def assignOp? : Read (Option AssignOp) := do
  if ← is "=" then return some .plain
  let t := (← get).token
  return [BinaryOp.add, .sub, .mul, .div, .mod, .shl, .shr, .ushr, .bitOr, .bitXor, .bitAnd, .exp,
    .and, .or, .coalesce].find? (fun op => isToken t (op.text ++ "=")) |>.map .combine

/-- Whether an expression has the form of an assignment target, valid or not. -/
def isAssignable : Node → Bool
  | .ident _ | .binding _ | .member .. | .optionalMember .. | .optionalCall .. | .paren ..
  | .arrayPattern .. | .objectPattern .. | .hole => true
  | _ => false

def assignment : Read Node := do
  if (← read).inGenerator && (← is "yield") then return ← yieldExpression g
  let s ← get
  if s.token.isNone then failAt .unexpectedEnd s.after.position
  let start ← position
  let canStartArrow := match s.token with
    | some (.word w _) => w == "yield" || !(reservedWords.contains w || w == "let" || w == "await")
    | some (.punct p) => p == "("
    | _ => false
  modify fun s => { s with arrowStart := if canStartArrow then some start else none }
  let e ← conditional g
  match e with
  | .arrow .. | .conditional .. | .binary .. | .unary .. | .update .. => return e
  | _ =>
    match ← assignOp? with
    | none => return e
    | some op =>
      let left ← if op == .plain then assignmentTarget e else do
        checkTarget e
        pure e
      if !(isAssignable left) then failAt .invalidAssignmentTarget left.span.start
      let left := match left with
        | .ident i => .binding i
        | n => n
      advance
      let right ← g.assignment
      return .assign (← spanFrom start) op left right

/-- Reads an expression, which may have commas. -/
def expression : Read Node := do
  let first ← assignment g
  if ← is "," then
    let rest ← loop [] fun rest => do
      if ← eat "," then return .inl ((← g.assignment) :: rest) else return .inr rest.reverse
    return .sequence (← spanFrom first.span.start) (first :: rest)
  else return first

/-! ## Binding patterns -/

/-- Reads a property of an object pattern. -/
def patternProperty : Read Node := do
  let start ← position
  if ← eat "..." then
    let dots ← spanFrom start
    let arg ← g.target false
    return .restPattern (← spanFrom start) dots arg
  let key ← propertyKey g
  if ← eat ":" then return .keyValuePattern key (← targetWithDefault g)
  match key with
  | .name span w =>
    let value ←
      if ← eat "=" then some <$> allowingIn g.assignment
      else do
        if isReserved (← read) w then recordAt .reservedShorthand span.start
        pure none
    return .shorthandPattern (← spanFrom start) { name := w, span } value
  | _ => unexpected "an identifier"

/-- Records rest properties that are not last, and stops at one that binds no name. -/
def checkRestProperties (comma : Option Span) : List Node → Read Unit
  | [] => return
  | [.restPattern s _ arg] => do
    if arg matches .binding _ then
      match comma with
      | some c => recordAt .commaAfterRest c.start
      | none => return
    else failAt .restNotIdentifier s.start
  | .restPattern s _ _ :: rest => do
    recordAt .restNotLast s.start
    checkRestProperties comma rest
  | _ :: rest => checkRestProperties comma rest

def objectPattern : Read Node := do
  let start ← position
  expect "\x7b"
  let (props, comma) ← loop (([] : List Node), (none : Option Span)) fun (props, comma) => do
    if ← eat "\x7d" then return .inr (props.reverse, comma)
    let p ← patternProperty g
    if !(← is "\x7d") then
      expect ","
      if ← is "\x7d" then return .inl (p :: props, some (← get).last)
    return .inl (p :: props, none)
  let span ← spanFrom start
  checkRestProperties comma props
  return .objectPattern span props

def arrayPattern : Read Node := do
  let start ← position
  expect "["
  let elements ← loop (([] : List Node), (none : Option Span)) fun (elements, rest) => do
    if (← atEnd) || (← is "]") then return .inr elements.reverse
    if ← eat "," then return .inl (.hole :: elements, rest)
    match rest with
    | some s => recordAt .restNotLast s.start
    | none => pure ()
    let start ← position
    let isRest ← eat "..."
    let element ←
      if isRest then do
        let dots ← spanFrom start
        let arg ← g.target false
        pure (.restPattern (← spanFrom start) dots arg)
      else targetWithDefault g
    if !(← is "]") then
      expect ","
      if isRest && (← is "]") then recordAt .commaAfterRest (← get).last.start
    return .inl (element :: elements, if isRest then some element.span else rest)
  expect "]"
  return .arrayPattern (← spanFrom start) elements

/-- Reads a name or pattern that is bound. -/
def target (noLet : Bool) : Read Node := do
  let s ← get
  match s.token with
  | none => failAt .unexpectedEnd s.after.position
  | some (.word w _) =>
    if noLet && w == "let" then unexpected "let is reserved in const, let, class declaration"
    return .binding (← bindingIdentifier)
  | some (.punct "[") => arrayPattern g
  | some (.punct "\x7b") => objectPattern g
  | _ => unexpected "yield, an identifier, [ or \x7b"

end Read

end ModuleWorkers.Script
