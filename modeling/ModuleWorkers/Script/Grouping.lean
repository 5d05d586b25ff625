import ModuleWorkers.Script.Traversal
/-!
# Parentheses

Replacing parts of a tree can make its parentheses superfluous, or make others necessary.
`regroup` takes all parentheses out of statements and puts in those that the text needs to be read
as the same tree again. Parentheses that come back keep their place in the source.
-/

namespace ModuleWorkers.Script

/-- The places of parentheses that were taken out, by the place of what stood between them. -/
abbrev Groups := List (Span × Span)

namespace Groups

/-- Takes out parentheses. -/
def remover : Visitor (StateM Groups) := fun _ _ children => do
  match ← children with
  | .paren s e => do
    modify ((e.span, s) :: ·)
    return e
  | n => return n

/-- Puts parentheses around a node. -/
def wrap (g : Groups) (n : Node) : Node := .paren ((g.lookup n.span).getD n.span) n

end Groups

/-- The forms of expressions that differ in how tightly they hold together. -/
inductive Form
  | sequence | yield | conditional | assign | arrow | binary | unary | await | update
  | object | function | «class»
  /-- A number or a string. -/
  | plainLiteral
  | otherLiteral
  | call
  /-- A `new` without arguments. -/
  | bareNew
  /-- An access or call that may stop short. -/
  | optional
  /-- Anything that holds together by itself. -/
  | tight
  deriving DecidableEq, Inhabited, Repr

namespace Form

/-- The forms that bind looser than binary operators do. -/
def loose : List Form := [sequence, yield, conditional, assign, arrow]

/-- The forms that cannot stand in front of a dot, a bracket or a template, with or without care
for objects. -/
def operators : List Form := loose ++ [binary, unary, await, update]

def literals : List Form := [plainLiteral, otherLiteral]

end Form

namespace Node

def form : Node → Form
  | sequence .. => .sequence
  | yield .. => .yield
  | conditional .. => .conditional
  | assign .. => .assign
  | arrow .. => .arrow
  | binary .. => .binary
  | unary .. => .unary
  | await .. => .await
  | update .. => .update
  | object .. => .object
  | function .. => .function
  | «class» .. => .class
  | num .. | str .. => .plainLiteral
  | null .. | bool .. | bigint .. | regex .. => .otherLiteral
  | call .. | importCall .. => .call
  | new _ _ false _ => .bareNew
  | optionalMember .. | optionalCall .. => .optional
  | _ => .tight

/-- Whether only its value matters, so that it can be dropped where the value is not used. -/
def isIdle (n : Node) : Bool :=
  [Form.plainLiteral, .otherLiteral, .function, .arrow].contains n.form

end Node

namespace BinaryOp

/-- Whether the right side is not always evaluated. -/
def isLazy (op : BinaryOp) : Bool := op == .and || op == .or || op == .coalesce

/-- Whether a comparison tells equal from different. -/
def isEquality (op : BinaryOp) : Bool :=
  op == .eq || op == .ne || op == .strictEq || op == .strictNe

/-- Whether the left side of an operator needs parentheses. -/
def groupsLeft (op : BinaryOp) : Node → Bool
  | .binary _ .coalesce _ _ => op != .coalesce
  | .binary _ left _ _ =>
    left.precedence < op.precedence || (left == .exp && op == .exp) || op == .coalesce
  | .unary _ .void _ => !op.isEquality
  | .unary _ .delete _ => true
  | .unary .. => op == .exp
  | .object .. => op == .instanceof || op.isEquality
  | .function .. => op == .instanceof
  | n => Form.loose.contains n.form

/-- Whether the right side of an operator needs parentheses. -/
def groupsRight (op : BinaryOp) : Node → Bool
  | .binary _ right _ _ =>
    if right == op then !op.isLazy && op != .exp
    else right.precedence ≤ op.precedence || (right == .and && op == .coalesce)
  | n => Form.loose.contains n.form

end BinaryOp

/-- What matters about the surroundings of an expression. -/
structure Surroundings where
  /-- Nothing but an expression can stand here, so a brace opens an object. -/
  isForced : Bool := false
  /-- Inside the head of a `for`, where `in` ends it. -/
  inHead : Bool := false
  /-- Inside the callee of a `new`, where a parenthesis opens its arguments. -/
  inNew : Bool := false

namespace Surroundings

/-- The surroundings at a place below. -/
def enter (s : Surroundings) : Slot → Surroundings
  | .element | .argument | .initializer | .awaited => { s with isForced := true, inNew := false }
  | .newCallee => { s with isForced := false, inNew := true }
  | .memberObject => s
  | .conditionalTest | .conditionalBranch | .binaryLeft _ | .propertyValue | .optionalObject
  | .sequenceHead | .computedKey | .assignLeft => { s with inNew := false }
  | .loopHead => { inHead := true }
  | .functionBody => {}
  | _ => { s with isForced := false, inNew := false }

/-- The forms of expression that need parentheses at a place. -/
def grouped (s : Surroundings) : Slot → List Form
  | .element | .argument => [.sequence, .yield]
  | .spread | .patternDefault | .shorthandDefault | .initializer | .propertyValue | .yielded
  | .assignRight | .computedKey | .conditionalBranch | .iterated | .fieldValue => [.sequence]
  | .arrowBody => [.sequence, .object]
  | .awaited => .binary :: Form.loose
  | .callee => Form.operators ++ [.otherLiteral, .optional, .class, .object]
  | .optionalCallee => Form.operators ++ [.class, .object]
  | .newCallee => Form.operators ++ Form.literals ++ [.optional, .class, .object]
  | .superclass => Form.operators
  | .conditionalTest => Form.loose
  | .memberObject => .optional :: objects
  | .optionalObject => objects
  | .tag => Form.operators ++ [.optional, .object]
  | .unaryArg _ => .binary :: Form.loose
  | _ => []
where
  objects : List Form :=
    Form.operators ++ [.function, .class, .bareNew] ++ if s.isForced then [] else [.object]

/-- Whether the operator `in` of an expression would end the head of a `for`. -/
def stopsAt (s : Surroundings) : Node → Bool
  | .binary _ .in _ _ => s.inHead
  | _ => false

/-- Whether an expression needs parentheses at a place. -/
def groups (s : Surroundings) (slot : Slot) (n : Node) : Bool :=
  (s.grouped slot).contains n.form || (s.inNew && n.form == .call) || s.stopsAt n ||
  match slot, n with
  | .binaryLeft op, n => op.groupsLeft n
  | .binaryRight op, n => op.groupsRight n
  | .arrowBody, .assign _ _ (.objectPattern ..) _ => true
  | _, _ => false
end Surroundings

/-- Leaves out the parts of a comma expression that do nothing. One of them stays in front of a
single part, to show that it is not called on an object. -/
def dropIdle (exprs : List Node) : List Node :=
  match exprs.reverse with
  | [] => []
  | last :: before =>
    let kept := keepFirst false before.reverse
    let kept := if kept.length ≥ 2 then kept.filter (!·.isIdle) else kept
    kept ++ [last]
where
  keepFirst (seen : Bool) : List Node → List Node
    | [] => []
    | .unary _ .void a :: es =>
      if a.isIdle then if seen then keepFirst seen es else a :: keepFirst true es
      else a :: keepFirst seen es
    | e :: es =>
      if !e.isIdle then e :: keepFirst seen es
      else if seen then keepFirst seen es else e :: keepFirst true es

/-- Makes one comma expression of those in it. -/
def flattenSequence (s : Span) (exprs : List Node) : Node :=
  let parts := dropIdle <| exprs.flatMap fun
    | .sequence _ es => es
    | e => [e]
  match parts with
  | [e] => e
  | es => .sequence s es

/-- Whether an `else` after a statement would belong to an `if` at its end. -/
def Node.takesElse : Node → Bool
  | .if _ _ _ none => true
  | .if _ _ _ (some e) => e.takesElse
  | .labeled _ _ b | .while _ _ b | .for _ _ _ _ b | .forIn _ _ _ b | .forOf _ _ _ _ b => b.takesElse
  | _ => false

namespace Groups

variable (g : Groups)

/-- Puts parentheses around the first part of an expression if it would read as a statement. -/
def wrapFirst : Node → Node
  | .object s ps => g.wrap (.object s ps)
  | .function s i f => g.wrap (.function s i f)
  | .class s i b => g.wrap (.class s i b)
  | .assign s op (.objectPattern t ps) r => g.wrap (.assign s op (.objectPattern t ps) r)
  | .assign s op l r => .assign s op (wrapFirst l) r
  | .member s o k => .member s (wrapFirst o) k
  | .optionalMember s p o k => .optionalMember s p (wrapFirst o) k
  | .call s c as p => .call s (wrapFirst c) as p
  | .optionalCall s p c as => .optionalCall s p (wrapFirst c) as
  | .binary s op l r => .binary s op (wrapFirst l) r
  | .conditional s t a b => .conditional s (wrapFirst t) a b
  | .sequence s (e :: es) => .sequence s (wrapFirst e :: es)
  | .tagged s t q => .tagged s (wrapFirst t) q
  | .update s op false a => .update s op false (wrapFirst a)
  | n => n

/-- Puts in parentheses where a node's parts, which have theirs, need them to be told apart. -/
def settle : Node → Node
  | .sequence s es => flattenSequence s es
  | .exprStmt s e => .exprStmt s (wrapFirst g e)
  | .arrow s ps b a =>
    match b with
    | .block .. | .function .. | .class .. => .arrow s ps b a
    | b => .arrow s ps (wrapFirst g b) a
  | .if s t a b => if a.takesElse then .if s t (.block a.span [a]) b else .if s t a b
  | .forOf s false (.ident i) r b =>
    .forOf s false (if i.name == "async" then g.wrap (.ident i) else .ident i) r b
  | n => n

def inserter : Visitor (ReaderM Surroundings) := fun slot _ children => do
  let here := (← read).enter slot
  let n' := g.settle (← withReader (fun _ => here) children)
  return if here.groups slot n' then g.wrap n' else n'

end Groups

/-- Puts parentheses where they are needed, and nowhere else. -/
def regroup (stmts : List Node) : List Node :=
  let (bare, g) := (Node.visitAll Groups.remover .plain stmts).run []
  (Node.visitAll g.inserter .plain bare).run {}

end ModuleWorkers.Script
