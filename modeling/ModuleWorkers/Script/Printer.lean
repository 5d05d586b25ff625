import ModuleWorkers.Script.Output
import ModuleWorkers.Script.Quoted
/-!
# Printing scripts

`printStatements` writes statements one to a line, indented by four spaces, with all literals as the
source spells them. Array and object literals take a line for each part, patterns and parameters
stay on one line. Marks go to the start of every node with a place in the source, and to the end of
those that end in a token of their own.
-/

namespace ModuleWorkers.Script

open Print

/-- Whether a number needs a second point in front of a member name: it is written with decimal
digits only, and not as an octal number of old. -/
def needsPoint (raw : String) : Bool :=
  let cs := raw.toList
  cs.all Char.isDigit && !(cs.length > 1 && cs.head? == some '0' && cs.all Scan.isOctalDigit)

/-- Whether an operator and its operand would read as another operator if no space stood between. -/
def needsSpace (op : UnaryOp) (arg : Node) : Bool :=
  op.isWord || match op, arg with
    | .plus, .unary _ .plus _ => true
    | .plus, .update _ .increment true _ => true
    | .minus, .unary _ .minus _ => true
    | .minus, .update _ .decrement true _ => true
    | _, _ => false

def printIdent (i : Ident) : Print := do
  markStart i.span
  write i.name

def printLabel (label : Option Ident) : Print :=
  match label with
  | some i => do
    write " "
    printIdent i
  | none => pure ()

/-- Prints the words before the name of a function or method. -/
def printFunctionWords (isAsync : Bool) : Print := do
  if isAsync then write "async "

/-- Prints a block with its contents, without a mark at its start. -/
def printBlock (span : Span) (isEmpty : Bool) (contents : Print) : Print := do
  write "\x7b"
  if !isEmpty then
    newline
    indented contents
    newline
  markLast span
  write "\x7d"

/-- Prints a text of a template, with marks around it. -/
def printText (t : TemplateText) : Print := do
  if !t.raw.isEmpty then
    markStart t.span
    literal t.raw
    markStop t.span

/-- Prints texts of a template that no expressions stand between; the last one gets marks. -/
def printTexts : List TemplateText → Print
  | [] => pure ()
  | [t] => printText t
  | t :: ts => do
    literal t.raw
    printTexts ts

mutual

/-- Prints a node in the place it stands in. -/
def Node.print : Node → Print
  | .ident i | .binding i | .shorthand i => printIdent i
  | .name s text => do
    markStart s
    write text
  | .privateName s text => do
    markStart s
    write "#"
    markStart s
    write text
    markStop s
  | .computed s e => do
    markStart s
    write "["
    e.print
    write "]"
    markStop s
  | .null s => token s "null"
  | .bool s b => token s (if b then "true" else "false")
  | .num s text => do
    markStart s
    literal text
  | .bigint s text => token s text
  | .str l => do
    markStart l.span
    literal (l.raw.getD (Quoted.encode l.value))
  | .regex s pattern flags => do
    markStart s
    write "/"
    literal pattern
    write "/"
    literal flags
  | .template s texts exprs => do
    markStart s
    write "`"
    Node.printTemplate texts exprs
    write "`"
    markStop s
  | .this s => token s "this"
  | .super s => token s "super"
  | .importMeta s => do
    markStart s
    write "import.meta"
  | .newTarget s => do
    markStart s
    write "new.target"
  | .tagged s tag text => do
    markStart s
    tag.print
    text.print
    markStop s
  | .array s elements => do
    markStart s
    write "["
    if !elements.isEmpty then
      newline
      indented do
        Node.printRows elements
        if elements.getLast? matches some .hole then write ", "
      newline
    write "]"
    markStop s
  | .hole => pure ()
  | .spread dots e => do
    token dots "..."
    e.print
  | .object s props => do
    markStart s
    write "\x7b"
    if !props.isEmpty then
      newline
      indented (Node.printRows props)
      newline
    markLast s
    write "\x7d"
  | .function s id f => do
    markStart s
    f.printFunction do
      match id with
      | some i => do
        write " "
        printIdent i
      | none => pure ()
  | .arrow s params body isAsync => do
    markStart s
    printFunctionWords isAsync
    write "("
    Node.printCommas params
    write ")=>"
    match body with
    | .block span stmts => printBlock span stmts.isEmpty (Node.printAll stmts)
    | e => indented e.print
  | .class s id body => do
    markStart s
    write "class"
    match id with
    | some i => do
      write " "
      printIdent i
    | none => pure ()
    body.print
  | .unary s op arg => do
    markStart s
    write op.text
    if needsSpace op arg then write " "
    arg.print
  | .update s op isLeading arg => do
    markStart s
    if isLeading then write op.text
    arg.print
    if !isLeading then write op.text
  | .binary s op left right => do
    markStart s
    left.print
    write s!" {op.text} "
    right.print
  | .assign s op left right => do
    markStart s
    left.print
    write s!" {op.text} "
    right.print
  | .conditional s test thenBranch elseBranch => do
    markStart s
    test.print
    write " ? "
    thenBranch.print
    write " : "
    elseBranch.print
  | .member s o key => do
    markStart s
    o.print
    match o with
    | .num _ raw => if needsPoint raw && !(key matches .computed ..) then write "."
    | _ => pure ()
    if !(key matches .computed ..) then write "."
    key.print
    markStop s
  | .optionalMember s isOptional o key => do
    markStart s
    o.print
    if isOptional then write "?."
    else if !(key matches .computed ..) then write "."
    key.print
  | .call s callee args isPure => do
    if isPure then write "/*#__PURE__*/ "
    markStart s
    callee.print
    write "("
    Node.printCommas args
    write ")"
  | .optionalCall s isOptional callee args => do
    markStart s
    callee.print
    if isOptional then write "?."
    write "("
    Node.printCommas args
    write ")"
  | .importCall s keyword args => do
    markStart s
    token keyword "import"
    write "("
    Node.printCommas args
    write ")"
  | .new s callee hasArgs args => do
    markStart s
    write "new "
    callee.print
    if hasArgs then
      write "("
      Node.printCommas args
      write ")"
  | .sequence s exprs => do
    markStart s
    Node.printCommas exprs
  | .await s arg => do
    markStart s
    write "await "
    arg.print
  | .yield s arg isDelegate => do
    markStart s
    write "yield"
    if isDelegate then write "*"
    match arg with
    | some e => do
      write " "
      e.print
    | none => pure ()
  | .paren s e => do
    markStart s
    write "("
    e.print
    markLast s
    write ")"
  | .keyValue key value => do
    markStart key.span
    key.print
    if !key.span.isNone && value.span.isNone then mark key.span.stop
    write ": "
    value.print
  | .defaulted s id value => do
    markStart s
    printIdent id
    write "="
    value.print
  | .getter s key body => do
    markStart s
    write "get "
    key.print
    write " () "
    body.print
  | .setter s key param body => do
    markStart s
    write "set "
    key.print
    write " ("
    param.print
    write ") "
    body.print
  | .method _ key f => f.printMethod " " key.print
  | .spreadProperty dots e => do
    let s := dots.through e.span
    markStart s
    write "..."
    e.print
    markStop s
  | .func _ params body _ _ => do
    write "("
    Node.printParameters params
    write ") "
    match body with
    | .block span stmts => printBlock span stmts.isEmpty (Node.printAll stmts)
    | n => n.print
  | .classBody s superclass members => do
    match superclass with
    | some e => do
      write " extends "
      e.print
    | none => pure ()
    write " \x7b"
    newline
    indented (Node.printMembers members)
    newline
    markLast s
    write "\x7d"
  | .constructorMember s params body => do
    markStart s
    write "constructor("
    Node.printParameters params
    write ")"
    match body with
    | .block span stmts => printBlock span stmts.isEmpty (Node.printAll stmts)
    | n => n.print
  | .methodMember s key f kind isStatic => do
    markStart s
    if isStatic then write "static "
    match kind with
    | .method => pure ()
    | .getter => write "get "
    | .setter => write "set "
    f.printMethod "" key.print
  | .fieldMember s key value isStatic => do
    markStart s
    if isStatic then write "static "
    key.print
    match value with
    | some e => do
      write " = "
      e.print
    | none => pure ()
    write ";"
    markStop s
  | .staticBlock s body => do
    markStart s
    write "static"
    body.print
  | .emptyMember _ => write ";"
  | .arrayPattern s elements => do
    markStart s
    write "["
    Node.printCommas elements
    write "]"
    markStop s
  | .objectPattern s props => do
    markStart s
    write "\x7b"
    if !props.isEmpty then
      write " "
      Node.printCommas props
      write " "
    write "\x7d"
    markStop s
  | .defaultPattern s left right => do
    markStart s
    left.print
    write " = "
    right.print
    markStop s
  | .restPattern _ dots arg => do
    token dots "..."
    arg.print
  | .keyValuePattern key value => do
    let s := key.span.through value.span
    markStart s
    key.print
    write ": "
    value.print
    markStop s
  | .shorthandPattern s id value => do
    markStart s
    printIdent id
    match value with
    | some e => do
      write " = "
      e.print
    | none => pure ()
    markStop s
  | .exprStmt _ e => do
    e.print
    write ";"
    newline
  | .block s body => do
    markStart s
    printBlock s body.isEmpty (Node.printAll body)
  | .empty _ => do
    write ";"
    newline
  | .debugger s => do
    token s "debugger"
    write ";"
    newline
  | .with s o body => do
    markStart s
    write "with ("
    o.print
    write ") "
    body.print
    newline
  | .return s arg => do
    markStart s
    write "return"
    match arg with
    | some e => do
      write " "
      e.print
    | none => pure ()
    write ";"
    newline
  | .labeled s label body => do
    markStart s
    printIdent label
    write ": "
    body.print
    newline
  | .break s label => do
    markStart s
    write "break"
    printLabel label
    write ";"
    newline
  | .continue s label => do
    markStart s
    write "continue"
    printLabel label
    write ";"
    newline
  | .if s test thenBranch elseBranch => do
    markStart s
    write "if ("
    test.print
    write ") "
    thenBranch.print
    match elseBranch with
    | some e => do
      if thenBranch matches .block .. then write " "
      write "else "
      e.print
    | none => pure ()
    newline
  | .switch s discriminant cases => do
    markStart s
    write "switch("
    discriminant.print
    write ")\x7b"
    newline
    indented (Node.printMembers cases)
    newline
    markLast s
    write "\x7d"
    newline
  | .case s test body => do
    markStart s
    match test with
    | some e => do
      write "case "
      e.print
    | none => write "default"
    write ":"
    newline
    indented (Node.printAll body)
  | .throw s arg => do
    markStart s
    write "throw "
    arg.print
    write ";"
    newline
  | .try s body handler finalizer => do
    markStart s
    write "try "
    body.print
    match handler with
    | some h => do
      write " "
      h.print
    | none => pure ()
    match finalizer with
    | some f => do
      write " finally"
      f.print
    | none => pure ()
    newline
  | .catch s param body => do
    markStart s
    write "catch "
    match param with
    | some p => do
      write "("
      p.print
      write ") "
    | none => pure ()
    body.print
  | .while s test body => do
    markStart s
    write "while("
    test.print
    write ")"
    body.print
    newline
  | .doWhile s test body => do
    markStart s
    write "do "
    body.print
    write "while ("
    test.print
    write ")"
    newline
  | .for s init test step body => do
    markStart s
    write "for("
    match init with
    | some (.decl span kind decls) => do
      markStart span
      write s!"{kind.text} "
      Node.printCommas decls
    | some n => n.print
    | none => pure ()
    write ";"
    match test with
    | some e => do
      write " "
      e.print
    | none => pure ()
    write ";"
    match step with
    | some e => do
      write " "
      e.print
    | none => pure ()
    write ")"
    body.print
    newline
  | .forIn s left right body => do
    markStart s
    write "for("
    match left with
    | .decl span kind decls => do
      markStart span
      write s!"{kind.text} "
      Node.printCommas decls
    | n => n.print
    write " in "
    right.print
    write ")"
    body.print
    newline
  | .forOf s isAwait left right body => do
    markStart s
    write (if isAwait then "for await (" else "for (")
    match left with
    | .decl span kind decls => do
      markStart span
      write s!"{kind.text} "
      Node.printCommas decls
    | n => n.print
    write " of "
    right.print
    write ")"
    body.print
    newline
  | .decl s kind decls => do
    markStart s
    write s!"{kind.text} "
    Node.printCommas decls
    write ";"
    newline
  | .declarator s target value => do
    markStart s
    target.print
    match value with
    | some e => do
      write " = "
      e.print
    | none => pure ()
  | .functionDecl s id f => do
    markStart s
    f.printFunction do
      write " "
      printIdent id
    newline
  | .classDecl s id body => do
    markStart s
    write "class "
    printIdent id
    body.print
    newline

/-- Prints a function whose name is printed by an action. -/
def Node.printFunction (f : Node) (title : Print) : Print :=
  match f with
  | .func _ params body isAsync isGenerator => do
    printFunctionWords isAsync
    write "function"
    if isGenerator then write "*"
    title
    write "("
    Node.printParameters params
    write ") "
    match body with
    | .block span stmts => printBlock span stmts.isEmpty (Node.printAll stmts)
    | n => n.print
  | _ => pure ()

/-- Prints a method whose key is printed by an action; `gap` comes before its parameters. -/
def Node.printMethod (f : Node) (gap : String) (key : Print) : Print :=
  match f with
  | .func _ params body isAsync isGenerator => do
    printFunctionWords isAsync
    if isGenerator then write "*"
    key
    write gap
    write "("
    Node.printParameters params
    write ") "
    match body with
    | .block span stmts => printBlock span stmts.isEmpty (Node.printAll stmts)
    | n => n.print
  | _ => pure ()

/-- Prints nodes one after the other. -/
def Node.printAll : List Node → Print
  | [] => pure ()
  | n :: ns => do
    n.print
    Node.printAll ns

/-- Prints nodes on lines of their own. -/
def Node.printMembers : List Node → Print
  | [] => pure ()
  | n :: ns => do
    n.print
    newline
    Node.printMembers ns

/-- Prints nodes with commas between them. -/
def Node.printCommas : List Node → Print
  | [] => pure ()
  | [n] => n.print
  | n :: ns => do
    n.print
    write ", "
    Node.printCommas ns

/-- Prints nodes with commas between them, on lines of their own. -/
def Node.printRows : List Node → Print
  | [] => pure ()
  | [n] => n.print
  | n :: ns => do
    n.print
    write ","
    newline
    Node.printRows ns

/-- Prints parameters of a function, each with a mark at its end. -/
def Node.printParameters : List Node → Print
  | [] => pure ()
  | [n] => do
    markStart n.span
    n.print
    markStop n.span
  | n :: ns => do
    markStart n.span
    n.print
    markStop n.span
    write ", "
    Node.printParameters ns

/-- Prints the texts of a template with expressions between them. -/
def Node.printTemplate : List TemplateText → List Node → Print
  | ts, [] => printTexts ts
  | [], _ => pure ()
  | t :: ts, e :: es => do
    printText t
    write "$\x7b"
    e.print
    write "\x7d"
    Node.printTemplate ts es

end

/-- Prints statements, after the interpreter line if there is one. -/
def printStatements (shebang : Option String) (stmts : List Node) : Output :=
  let print : Print := do
    match shebang with
    | some line =>
      write ("#!" ++ line)
      newline
    | none => pure ()
    Node.printAll stmts
  (print.run {}).2

end ModuleWorkers.Script
