/-!
# Syntax trees of scripts

A script is a list of items: statements, and the import and export declarations that make it a
module. Nodes carry the stretch of source text they were read from, so that printing can say where
each piece of the output came from; nodes that a conversion makes up carry the empty stretch
`Span.none`.

Patterns serve bindings and the left sides of assignments alike. Property names, class member
names and member accesses keep the form they were written in, so printing an unconverted script
gives back its own spelling.
-/

namespace ModuleWorkers.Script

/-- A stretch of source text: the byte positions of its first byte and of the byte after its last,
counted from one. Position zero stands for no position. -/
structure Span where
  start : Nat
  stop : Nat
  deriving DecidableEq, Inhabited, Repr

namespace Span

/-- The stretch of a node that stands nowhere in the source. -/
def none : Span := ⟨0, 0⟩

def isNone (s : Span) : Bool := s.start == 0 && s.stop == 0

/-- From the start of one stretch to the end of another. -/
def through (a b : Span) : Span := ⟨a.start, b.stop⟩

end Span

/-- The binding a name was resolved to. A name that a conversion makes up without asking for a
binding is `unbound`; a name no scope of the script declares is `free`; any other name belongs to a
numbered scope. -/
inductive Binder
  | unbound
  | free
  | scope (number : Nat)
  deriving DecidableEq, Inhabited, Repr

/-- A name as a variable: bound or used at a place, and resolved to a scope. -/
structure Ident where
  name : String
  span : Span
  binder : Binder := .unbound
  deriving DecidableEq, Inhabited, Repr

/-- A variable apart from where it is written. -/
structure Variable where
  name : String
  binder : Binder
  deriving DecidableEq, Inhabited, Repr

def Ident.var (i : Ident) : Variable := ⟨i.name, i.binder⟩

/-- A string literal, with its text in the source when it has one. -/
structure StringLit where
  span : Span
  value : String
  raw : Option String
  deriving DecidableEq, Inhabited, Repr

inductive UnaryOp
  | minus | plus | not | tilde | typeof | void | delete
  deriving DecidableEq, Inhabited, Repr

inductive UpdateOp
  | increment | decrement
  deriving DecidableEq, Inhabited, Repr

inductive BinaryOp
  | eq | ne | strictEq | strictNe | lt | le | gt | ge | shl | shr | ushr
  | add | sub | mul | div | mod | bitOr | bitXor | bitAnd
  | or | and | in | instanceof | exp | coalesce
  deriving DecidableEq, Inhabited, Repr

namespace BinaryOp

/-- How tightly an operator binds; a larger number binds tighter. -/
def precedence : BinaryOp → Nat
  | .coalesce => 1
  | .or => 1
  | .and => 2
  | .bitOr => 3
  | .bitXor => 4
  | .bitAnd => 5
  | .eq | .ne | .strictEq | .strictNe => 6
  | .lt | .le | .gt | .ge | .instanceof | .in => 7
  | .shl | .shr | .ushr => 8
  | .add | .sub => 9
  | .mul | .div | .mod => 10
  | .exp => 11

def text : BinaryOp → String
  | .eq => "==" | .ne => "!=" | .strictEq => "===" | .strictNe => "!=="
  | .lt => "<" | .le => "<=" | .gt => ">" | .ge => ">="
  | .shl => "<<" | .shr => ">>" | .ushr => ">>>"
  | .add => "+" | .sub => "-" | .mul => "*" | .div => "/" | .mod => "%"
  | .bitOr => "|" | .bitXor => "^" | .bitAnd => "&"
  | .or => "||" | .and => "&&" | .in => "in" | .instanceof => "instanceof"
  | .exp => "**" | .coalesce => "??"

end BinaryOp

/-- An assignment operator: plain, or one that first combines with a binary operator. -/
inductive AssignOp
  | plain
  | combine (op : BinaryOp)
  deriving DecidableEq, Inhabited, Repr

def AssignOp.text : AssignOp → String
  | .plain => "="
  | .combine op => op.text ++ "="

def UnaryOp.text : UnaryOp → String
  | .minus => "-" | .plus => "+" | .not => "!" | .tilde => "~"
  | .typeof => "typeof" | .void => "void" | .delete => "delete"

/-- Whether the operator is spelled with letters. -/
def UnaryOp.isWord : UnaryOp → Bool
  | .typeof | .void | .delete => true
  | _ => false

def UpdateOp.text : UpdateOp → String
  | .increment => "++" | .decrement => "--"

inductive DeclKind
  | var | let | const
  deriving DecidableEq, Inhabited, Repr

def DeclKind.text : DeclKind → String
  | .var => "var" | .let => "let" | .const => "const"

inductive MethodKind
  | method | getter | setter
  deriving DecidableEq, Inhabited, Repr

/-- A stretch of template text: raw, as written. -/
structure TemplateText where
  span : Span
  raw : String
  deriving DecidableEq, Inhabited, Repr

/-- A node of the syntax tree. The constructors come in the groups that the grammar has: names and
literals, expressions, the parts of object literals, functions and classes, patterns, statements.
A group's comment says which of the others its children come from. -/
inductive Node
  -- Names and literals.
  | ident (id : Ident)
  | binding (id : Ident)
  | name (span : Span) (text : String)
  | privateName (span : Span) (text : String)
  | computed (span : Span) (expr : Node)
  | null (span : Span)
  | bool (span : Span) (value : Bool)
  | num (span : Span) (raw : String)
  | bigint (span : Span) (raw : String)
  | str (lit : StringLit)
  | regex (span : Span) (pattern flags : String)
  | template (span : Span) (texts : List TemplateText) (exprs : List Node)
  -- Expressions. A callee, a tag and an object are expressions; arguments are expressions or
  -- `spread`; elements may also be `hole`; a member's key is a name, private name or `computed`.
  | this (span : Span)
  | super (span : Span)
  | importMeta (span : Span)
  | newTarget (span : Span)
  | tagged (span : Span) (tag template : Node)
  | array (span : Span) (elements : List Node)
  | hole
  | spread (dots : Span) (arg : Node)
  | object (span : Span) (properties : List Node)
  | function (span : Span) (name : Option Ident) (func : Node)
  | arrow (span : Span) (params : List Node) (body : Node) (isAsync : Bool)
  | class (span : Span) (name : Option Ident) (body : Node)
  | unary (span : Span) (op : UnaryOp) (arg : Node)
  | update (span : Span) (op : UpdateOp) (isLeading : Bool) (arg : Node)
  | binary (span : Span) (op : BinaryOp) (left right : Node)
  | assign (span : Span) (op : AssignOp) (left right : Node)
  | conditional (span : Span) (test thenBranch elseBranch : Node)
  | member (span : Span) (object key : Node)
  | optionalMember (span : Span) (isOptional : Bool) (object key : Node)
  | call (span : Span) (callee : Node) (args : List Node) (isPure : Bool)
  | optionalCall (span : Span) (isOptional : Bool) (callee : Node) (args : List Node)
  | importCall (span : Span) (keyword : Span) (args : List Node)
  | new (span : Span) (callee : Node) (hasArgs : Bool) (args : List Node)
  | sequence (span : Span) (exprs : List Node)
  | await (span : Span) (arg : Node)
  | yield (span : Span) (arg : Option Node) (isDelegate : Bool)
  | paren (span : Span) (inner : Node)
  -- Properties of object literals. `defaulted` only makes sense while the literal may still turn
  -- out to be a pattern.
  | shorthand (id : Ident)
  | keyValue (key value : Node)
  | defaulted (span : Span) (id : Ident) (value : Node)
  | getter (span : Span) (key body : Node)
  | setter (span : Span) (key param body : Node)
  | method (span : Span) (key func : Node)
  | spreadProperty (dots : Span) (arg : Node)
  -- Functions and classes: parameters are patterns, the body is a `block`.
  | func (span : Span) (params : List Node) (body : Node) (isAsync isGenerator : Bool)
  | classBody (span : Span) (superclass : Option Node) (members : List Node)
  | constructorMember (span : Span) (params : List Node) (body : Node)
  | methodMember (span : Span) (key func : Node) (kind : MethodKind) (isStatic : Bool)
  | fieldMember (span : Span) (key : Node) (value : Option Node) (isStatic : Bool)
  | staticBlock (span : Span) (body : Node)
  | emptyMember (span : Span)
  -- Patterns; a member expression in parentheses or not may stand where a `binding` does.
  | arrayPattern (span : Span) (elements : List Node)
  | objectPattern (span : Span) (properties : List Node)
  | defaultPattern (span : Span) (left right : Node)
  | restPattern (span : Span) (dots : Span) (arg : Node)
  | keyValuePattern (key value : Node)
  | shorthandPattern (span : Span) (id : Ident) (value : Option Node)
  -- Statements.
  | exprStmt (span : Span) (expr : Node)
  | block (span : Span) (body : List Node)
  | empty (span : Span)
  | debugger (span : Span)
  | with (span : Span) (object body : Node)
  | return (span : Span) (arg : Option Node)
  | labeled (span : Span) (label : Ident) (body : Node)
  | break (span : Span) (label : Option Ident)
  | continue (span : Span) (label : Option Ident)
  | if (span : Span) (test thenBranch : Node) (elseBranch : Option Node)
  | switch (span : Span) (discriminant : Node) (cases : List Node)
  | case (span : Span) (test : Option Node) (body : List Node)
  | throw (span : Span) (arg : Node)
  | try (span : Span) (block : Node) (handler finalizer : Option Node)
  | catch (span : Span) (param : Option Node) (body : Node)
  | while (span : Span) (test body : Node)
  | doWhile (span : Span) (test body : Node)
  | for (span : Span) (init test update : Option Node) (body : Node)
  | forIn (span : Span) (left right body : Node)
  | forOf (span : Span) (isAwait : Bool) (left right body : Node)
  | decl (span : Span) (kind : DeclKind) (declarators : List Node)
  | declarator (span : Span) (target : Node) (value : Option Node)
  | functionDecl (span : Span) (name : Ident) (func : Node)
  | classDecl (span : Span) (name : Ident) (body : Node)

instance : Inhabited Node := ⟨.hole⟩

namespace Node

/-- Where a node stands. The stretch of a property or of a spread element is put together from its
first and last parts. -/
def span : Node → Span
  | hole => .none
  | ident i | binding i | shorthand i => i.span
  | str l => l.span
  | keyValue k v | keyValuePattern k v => k.span.through v.span
  | spread d a | spreadProperty d a => d.through a.span
  | name s _ | privateName s _ | computed s _ | null s | bool s _ | num s _ | bigint s _
  | regex s _ _ | template s _ _ | this s | super s | importMeta s | newTarget s | tagged s _ _
  | array s _ | object s _ | function s _ _ | arrow s _ _ _ | «class» s _ _ | unary s _ _
  | update s _ _ _ | binary s _ _ _ | assign s _ _ _ | conditional s _ _ _ | member s _ _
  | optionalMember s _ _ _ | call s _ _ _ | optionalCall s _ _ _ | importCall s _ _ | new s _ _ _
  | sequence s _ | await s _ | yield s _ _ | paren s _ | defaulted s _ _ | getter s _ _
  | setter s _ _ _ | method s _ _ | func s _ _ _ _ | classBody s _ _ | constructorMember s _ _
  | methodMember s _ _ _ _ | fieldMember s _ _ _ | staticBlock s _ | emptyMember s
  | arrayPattern s _ | objectPattern s _ | defaultPattern s _ _ | restPattern s _ _
  | shorthandPattern s _ _ | exprStmt s _ | block s _ | empty s | debugger s | «with» s _ _
  | «return» s _ | labeled s _ _ | «break» s _ | «continue» s _ | «if» s _ _ _ | switch s _ _
  | case s _ _ | throw s _ | «try» s _ _ _ | «catch» s _ _ | «while» s _ _ | doWhile s _ _
  | «for» s _ _ _ _ | forIn s _ _ _ | forOf s _ _ _ _ | decl s _ _ | declarator s _ _
  | functionDecl s _ _ | classDecl s _ _ => s

/-- Whether the statement is a string literal on its own, as directives are. -/
def isDirective : Node → Bool
  | exprStmt _ (str _) => true
  | _ => false

/-- Whether the statement is the directive that turns strict mode on, written without escapes. -/
def isUseStrict : Node → Bool
  | exprStmt _ (str l) => l.raw == some "\"use strict\"" || l.raw == some "'use strict'"
  | _ => false

end Node

/-- A name in an import or export list: an identifier or a string. -/
inductive ExternalName
  | ident (span : Span) (text : String)
  | str (lit : StringLit)
  deriving Inhabited

namespace ExternalName

def text : ExternalName → String
  | .ident _ t => t
  | .str l => l.value

def span : ExternalName → Span
  | .ident s _ => s
  | .str l => l.span

end ExternalName

/-- One entry of an import list. -/
inductive ImportItem
  | default (local_ : Ident)
  | namespace (local_ : Ident)
  | named (local_ : Ident) (imported : Option ExternalName)
  deriving Inhabited

/-- One entry of an export list. -/
structure ExportItem where
  source : ExternalName
  exported : Option ExternalName
  deriving Inhabited

/-- What an export list with a source takes from it. -/
inductive ReexportItem
  | named (item : ExportItem)
  | namespace (exported : ExternalName)
  deriving Inhabited

/-- A top level item. -/
inductive Item
  | stmt (stmt : Node)
  | import (span : Span) (items : List ImportItem) (source : StringLit)
  | exportDecl (span : Span) (decl : Node)
  | exportList (span : Span) (items : List ExportItem)
  | exportFrom (span : Span) (items : List ReexportItem) (source : StringLit)
  | exportAll (span : Span) (source : StringLit)
  | exportDefaultFunction (span : Span) (exprSpan : Span) (name : Option Ident) (func : Node)
  | exportDefaultClass (span : Span) (exprSpan : Span) (name : Option Ident) (body : Node)
  | exportDefaultExpr (span : Span) (expr : Node)

namespace Item

/-- Whether the item is an import or export declaration. -/
def isDeclaration : Item → Bool
  | .stmt _ => false
  | _ => true

end Item

/-- A script: its interpreter line, if any, and its items. -/
structure Program where
  span : Span
  shebang : Option String
  items : List Item

namespace Program

/-- Whether the script is a module: it has an import or export declaration. -/
def isModule (p : Program) : Bool := p.items.any Item.isDeclaration

end Program

end ModuleWorkers.Script
