import ModuleWorkers.Script.Syntax
/-!
# Walking a syntax tree

`Node.visit` walks a tree in source order, with two exceptions that the order of discovery of
dependencies depends on: the test of a `do` loop comes before its body, and the members of a class
before its superclass. At every node it calls the visitor with the place the node has in its
parent, the node, and the action that visits the node's children and puts the results back.
-/

namespace ModuleWorkers.Script

/-- The place a node has in its parent. -/
inductive Slot
  /-- A place where an expression needs no care, or no expression stands. -/
  | plain
  | statement
  | element
  | argument
  | spread
  | arrowBody
  | assignLeft
  | assignRight
  | patternDefault
  | shorthandDefault
  | awaited
  | yielded
  | binaryLeft (op : BinaryOp)
  | binaryRight (op : BinaryOp)
  | callee
  | newCallee
  | superclass
  | propertyKey
  | computedKey
  | propertyValue
  | conditionalTest
  | conditionalBranch
  | memberObject
  | optionalObject
  | optionalCallee
  | parameter
  | sequenceHead
  | sequenceTail
  | tag
  | unaryArg (op : UnaryOp)
  | updateArg (isLeading : Bool)
  | initializer
  | templateExpr
  | loopHead
  | iterated
  | thenBranch
  | functionBody
  | fieldValue
  deriving DecidableEq, Inhabited

/-- What a walk does at a node: given its place, the node, and the visit of its children. -/
abbrev Visitor (m : Type → Type) := Slot → Node → m Node → m Node

variable {m : Type → Type} [Monad m]

mutual

/-- Visits a node standing at a place. -/
def Node.visit (v : Visitor m) (slot : Slot) : Node → m Node
  | .computed s e => v slot (.computed s e) do
    return .computed s (← e.visit v (if slot == .propertyKey then .computedKey else .plain))
  | .template s ts es =>
    v slot (.template s ts es) do return .template s ts (← Node.visitAll v .templateExpr es)
  | .tagged s t q => v slot (.tagged s t q) do
    return .tagged s (← t.visit v .tag) (← q.visit v .plain)
  | .array s es => v slot (.array s es) do return .array s (← Node.visitAll v .element es)
  | .spread d a => v slot (.spread d a) do return .spread d (← a.visit v slot)
  | .object s ps => v slot (.object s ps) do return .object s (← Node.visitAll v .plain ps)
  | .function s n f => v slot (.function s n f) do return .function s n (← f.visit v .plain)
  | .arrow s ps b a => v slot (.arrow s ps b a) do
    return .arrow s (← Node.visitAll v .plain ps) (← b.visit v .arrowBody) a
  | .class s n b => v slot (.class s n b) do return .class s n (← b.visit v .plain)
  | .unary s op a => v slot (.unary s op a) do return .unary s op (← a.visit v (.unaryArg op))
  | .update s op l a => v slot (.update s op l a) do
    return .update s op l (← a.visit v (.updateArg l))
  | .binary s op l r => v slot (.binary s op l r) do
    return .binary s op (← l.visit v (.binaryLeft op)) (← r.visit v (.binaryRight op))
  | .assign s op l r => v slot (.assign s op l r) do
    return .assign s op (← l.visit v .assignLeft) (← r.visit v .assignRight)
  | .conditional s t a b => v slot (.conditional s t a b) do
    return .conditional s (← t.visit v .conditionalTest) (← a.visit v .conditionalBranch)
      (← b.visit v .conditionalBranch)
  | .member s o k => v slot (.member s o k) do
    return .member s (← o.visit v .memberObject) (← k.visit v .plain)
  | .optionalMember s p o k => v slot (.optionalMember s p o k) do
    return .optionalMember s p (← o.visit v .optionalObject) (← k.visit v .plain)
  | .call s c as p => v slot (.call s c as p) do
    return .call s (← c.visit v .callee) (← Node.visitAll v .argument as) p
  | .optionalCall s p c as => v slot (.optionalCall s p c as) do
    return .optionalCall s p (← c.visit v .optionalCallee) (← Node.visitAll v .argument as)
  | .importCall s k as => v slot (.importCall s k as) do
    return .importCall s k (← Node.visitAll v .argument as)
  | .new s c h as => v slot (.new s c h as) do
    return .new s (← c.visit v .newCallee) h (← Node.visitAll v .argument as)
  | .sequence s es => v slot (.sequence s es) do return .sequence s (← Node.visitSequence v es)
  | .await s a => v slot (.await s a) do return .await s (← a.visit v .awaited)
  | .yield s a d => v slot (.yield s a d) do return .yield s (← Node.visitOption v .yielded a) d
  | .paren s e => v slot (.paren s e) do return .paren s (← e.visit v slot)
  | .keyValue k e => v slot (.keyValue k e) do
    return .keyValue (← k.visit v .propertyKey) (← e.visit v .propertyValue)
  | .defaulted s i e => v slot (.defaulted s i e) do
    return .defaulted s i (← e.visit v .propertyValue)
  | .getter s k b => v slot (.getter s k b) do
    return .getter s (← k.visit v .propertyKey) (← b.visit v .functionBody)
  | .setter s k p b => v slot (.setter s k p b) do
    return .setter s (← k.visit v .propertyKey) (← p.visit v .parameter) (← b.visit v .functionBody)
  | .method s k f => v slot (.method s k f) do
    return .method s (← k.visit v .propertyKey) (← f.visit v .plain)
  | .spreadProperty d a => v slot (.spreadProperty d a) do
    return .spreadProperty d (← a.visit v .spread)
  | .func s ps b a g => v slot (.func s ps b a g) do
    return .func s (← Node.visitAll v .parameter ps) (← b.visit v .functionBody) a g
  | .classBody s e ms => v slot (.classBody s e ms) do
    let ms ← Node.visitAll v .plain ms
    return .classBody s (← Node.visitOption v .superclass e) ms
  | .constructorMember s ps b => v slot (.constructorMember s ps b) do
    return .constructorMember s (← Node.visitAll v .parameter ps) (← b.visit v .functionBody)
  | .methodMember s k f d t => v slot (.methodMember s k f d t) do
    return .methodMember s (← k.visit v .propertyKey) (← f.visit v .plain) d t
  | .fieldMember s k e t => v slot (.fieldMember s k e t) do
    return .fieldMember s (← k.visit v .propertyKey) (← Node.visitOption v .fieldValue e) t
  | .staticBlock s b => v slot (.staticBlock s b) do
    return .staticBlock s (← b.visit v .functionBody)
  | .arrayPattern s es => v slot (.arrayPattern s es) do
    return .arrayPattern s (← Node.visitAll v .plain es)
  | .objectPattern s ps => v slot (.objectPattern s ps) do
    return .objectPattern s (← Node.visitAll v .plain ps)
  | .defaultPattern s l r => v slot (.defaultPattern s l r) do
    return .defaultPattern s (← l.visit v .plain) (← r.visit v .patternDefault)
  | .restPattern s d a => v slot (.restPattern s d a) do
    return .restPattern s d (← a.visit v .plain)
  | .keyValuePattern k e => v slot (.keyValuePattern k e) do
    return .keyValuePattern (← k.visit v .propertyKey) (← e.visit v .plain)
  | .shorthandPattern s i e => v slot (.shorthandPattern s i e) do
    return .shorthandPattern s i (← Node.visitOption v .shorthandDefault e)
  | .exprStmt s e => v slot (.exprStmt s e) do return .exprStmt s (← e.visit v .statement)
  | .block s b => v slot (.block s b) do return .block s (← Node.visitAll v .plain b)
  | .with s o b => v slot (.with s o b) do
    return .with s (← o.visit v .plain) (← b.visit v .plain)
  | .return s a => v slot (.return s a) do return .return s (← Node.visitOption v .plain a)
  | .labeled s l b => v slot (.labeled s l b) do return .labeled s l (← b.visit v .plain)
  | .if s t a b => v slot (.if s t a b) do
    return .if s (← t.visit v .plain) (← a.visit v .thenBranch)
      (← Node.visitOption v .plain b)
  | .switch s d cs => v slot (.switch s d cs) do
    return .switch s (← d.visit v .plain) (← Node.visitAll v .plain cs)
  | .case s t b => v slot (.case s t b) do
    return .case s (← Node.visitOption v .plain t) (← Node.visitAll v .plain b)
  | .throw s a => v slot (.throw s a) do return .throw s (← a.visit v .plain)
  | .try s b h f => v slot (.try s b h f) do
    return .try s (← b.visit v .plain) (← Node.visitOption v .plain h)
      (← Node.visitOption v .plain f)
  | .catch s p b => v slot (.catch s p b) do
    return .catch s (← Node.visitOption v .plain p) (← b.visit v .plain)
  | .while s t b => v slot (.while s t b) do
    return .while s (← t.visit v .plain) (← b.visit v .plain)
  | .doWhile s t b => v slot (.doWhile s t b) do
    return .doWhile s (← t.visit v .plain) (← b.visit v .plain)
  | .for s i t u b => v slot (.for s i t u b) do
    return .for s (← Node.visitOption v .loopHead i) (← Node.visitOption v .plain t)
      (← Node.visitOption v .plain u) (← b.visit v .plain)
  | .forIn s l r b => v slot (.forIn s l r b) do
    return .forIn s (← l.visit v .loopHead) (← r.visit v .plain) (← b.visit v .plain)
  | .forOf s w l r b => v slot (.forOf s w l r b) do
    return .forOf s w (← l.visit v .loopHead) (← r.visit v .iterated) (← b.visit v .plain)
  | .decl s k ds => v slot (.decl s k ds) do return .decl s k (← Node.visitAll v .plain ds)
  | .declarator s t e => v slot (.declarator s t e) do
    return .declarator s (← t.visit v .plain) (← Node.visitOption v .initializer e)
  | .functionDecl s n f => v slot (.functionDecl s n f) do
    return .functionDecl s n (← f.visit v .plain)
  | .classDecl s n b => v slot (.classDecl s n b) do return .classDecl s n (← b.visit v .plain)
  | .ident i => v slot (.ident i) (pure (.ident i))
  | .binding i => v slot (.binding i) (pure (.binding i))
  | .name s t => v slot (.name s t) (pure (.name s t))
  | .privateName s t => v slot (.privateName s t) (pure (.privateName s t))
  | .null s => v slot (.null s) (pure (.null s))
  | .bool s b => v slot (.bool s b) (pure (.bool s b))
  | .num s r => v slot (.num s r) (pure (.num s r))
  | .bigint s r => v slot (.bigint s r) (pure (.bigint s r))
  | .str l => v slot (.str l) (pure (.str l))
  | .regex s p f => v slot (.regex s p f) (pure (.regex s p f))
  | .this s => v slot (.this s) (pure (.this s))
  | .super s => v slot (.super s) (pure (.super s))
  | .importMeta s => v slot (.importMeta s) (pure (.importMeta s))
  | .newTarget s => v slot (.newTarget s) (pure (.newTarget s))
  | .hole => v slot .hole (pure .hole)
  | .shorthand i => v slot (.shorthand i) (pure (.shorthand i))
  | .emptyMember s => v slot (.emptyMember s) (pure (.emptyMember s))
  | .empty s => v slot (.empty s) (pure (.empty s))
  | .debugger s => v slot (.debugger s) (pure (.debugger s))
  | .break s l => v slot (.break s l) (pure (.break s l))
  | .continue s l => v slot (.continue s l) (pure (.continue s l))

/-- Visits nodes that all stand at places of one kind, first to last. -/
def Node.visitAll (v : Visitor m) (slot : Slot) : List Node → m (List Node)
  | [] => pure []
  | n :: ns => do return (← n.visit v slot) :: (← Node.visitAll v slot ns)

/-- Visits the parts of a comma expression. -/
def Node.visitSequence (v : Visitor m) : List Node → m (List Node)
  | [] => pure []
  | n :: ns => do return (← n.visit v .sequenceHead) :: (← Node.visitAll v .sequenceTail ns)

/-- Visits a node that may be missing. -/
def Node.visitOption (v : Visitor m) (slot : Slot) : Option Node → m (Option Node)
  | none => pure none
  | some n => do return some (← n.visit v slot)

end

/-- Visits the syntax below a top level item; names and sources of imports and exports are not
nodes and stay as they are. -/
def Item.visit (v : Visitor m) : Item → m Item
  | .stmt n => do return .stmt (← n.visit v .plain)
  | .exportDecl s n => do return .exportDecl s (← n.visit v .plain)
  | .exportDefaultFunction s e n f => do
    return .exportDefaultFunction s e n (← f.visit v .plain)
  | .exportDefaultClass s e n b => do return .exportDefaultClass s e n (← b.visit v .plain)
  | .exportDefaultExpr s e => do return .exportDefaultExpr s (← e.visit v .initializer)
  | .import s is l => pure (.import s is l)
  | .exportList s is => pure (.exportList s is)
  | .exportFrom s is l => pure (.exportFrom s is l)
  | .exportAll s l => pure (.exportAll s l)

def Program.visit (v : Visitor m) (p : Program) : m Program := do
  return { p with items := ← p.items.mapM (Item.visit v) }

end ModuleWorkers.Script
