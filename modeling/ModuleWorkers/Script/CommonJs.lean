import ModuleWorkers.Script.Helper
/-!
# Converting ES modules to CommonJS modules

A CommonJS module asks for others by calling `require` and puts its exports on the object `exports`.
The converted module first defines its exports as getters, so that importers see the current value
of a binding, then requires what it imports, each module once and in the order of first mention, and
then runs its body. Uses of imported names become accesses of the required module, so that they see
current values as well.
-/

namespace ModuleWorkers.Script

open ModuleWorkers.Text

/-- One name that a module takes from another, or passes on. -/
inductive Link
  | named (local_ : Variable) (imported : String)
  | default (local_ : Variable)
  | namespace (local_ : Variable)
  /-- Everything is passed on. -/
  | all
  deriving DecidableEq, Inhabited

/-- What a module takes from one other module. -/
structure Requirement where
  source : StringLit
  links : List Link
  deriving Inhabited

namespace Requirement

def hasDefault (r : Requirement) : Bool :=
  r.links.any fun
    | .default _ => true
    | _ => false

def hasNamespace (r : Requirement) : Bool :=
  r.links.any fun
    | .namespace _ => true
    | _ => false

def hasNamed (r : Requirement) : Bool :=
  r.links.any fun
    | .named .. => true
    | _ => false

def passesAll (r : Requirement) : Bool := r.links.contains .all

/-- Whether a name of the module refers to the required one. -/
def isReferred (r : Requirement) : Bool := r.links.any (· != .all)

/-- Whether the default export is used and nothing else that needs a namespace object. -/
def needsDefault (r : Requirement) : Bool :=
  r.hasDefault && !r.hasNamed && !r.hasNamespace

/-- Whether a namespace object is needed. -/
def needsWildcard (r : Requirement) : Bool := r.hasNamespace || (r.hasDefault && r.hasNamed)

/-- The name of the variable that holds a required module: an underscore, unless it starts with
one, and what of the last segment of its id can stand in a name. The extensions of scripts are left
out. -/
def variableName (id : String) : String :=
  let segment := (id.splitOn "/").getLastD ""
  let segment :=
    if segment.endsWith ".js" then (segment.dropEnd 3).toString
    else if segment.endsWith ".mjs" then (segment.dropEnd 4).toString
    else segment
  let cs := segment.toList.filter isIdentPart
  let cs := if cs.isEmpty then ['_'] else cs
  .ofList (if cs.head? == some '_' then cs else '_' :: cs)

end Requirement

/-- An export: its name with the place that name has, and the binding it reads. -/
structure Export where
  name : String
  span : Span
  binding : Ident
  deriving Inhabited

/-- The bindings that stand for parts of required modules: the variable that holds the module, and
the name of the export, or none for the whole module. -/
abbrev Imports := List (Variable × Variable × Option String)

/-- What the declarations of a module come to. -/
structure Interface where
  requirements : List Requirement := []
  exports : List Export := []
  /-- The next free scope number. -/
  next : Nat
  deriving Inhabited

namespace Interface

/-- Adds links to the requirement of a module. -/
def require (f : Interface) (source : StringLit) (links : List Link) : Interface :=
  if f.requirements.any (·.source.value == source.value) then
    { f with requirements := f.requirements.map fun r =>
        if r.source.value == source.value then { r with links := r.links ++ links } else r }
  else { f with requirements := f.requirements ++ [⟨source, links⟩] }

def addExports (f : Interface) (es : List Export) : Interface := { f with exports := f.exports ++ es }

/-- A variable that nothing else refers to. -/
def fresh (f : Interface) (name : String) : Variable × Interface :=
  (⟨name, .scope f.next⟩, { f with next := f.next + 1 })

/-- The link of an import. -/
def linkOf : ImportItem → Link
  | .default i => .default i.var
  | .namespace i => .namespace i.var
  | .named i none => .named i.var i.name
  | .named i (some imported) =>
    if imported.text == "default" then .default i.var else .named i.var imported.text

/-- Adds what is passed on from another module under a name. -/
def reexport (source : StringLit) (f : Interface) : ReexportItem → Interface
  | .namespace exported =>
    let (x, f) := f.fresh exported.text
    (f.require source [.namespace x]).addExports
      [⟨exported.text, exported.span, ⟨x.name, exported.span, x.binder⟩⟩]
  | .named item =>
    let exported := item.exported.getD item.source
    let (x, f) := f.fresh item.source.text
    if item.source.text == "default" then
      (f.require source [.default x]).addExports
        [⟨exported.text, exported.span, ⟨x.name, exported.span, x.binder⟩⟩]
    else
      (f.require source [.named x item.source.text]).addExports
        [⟨exported.text, exported.span, ⟨x.name, item.source.span, x.binder⟩⟩]

/-- The name that a default export without one is given. -/
def defaultName : String := "_default"

/-- Adds what a top level item imports and exports, and gives the statement that is left of it. -/
def declare (top : Scopes) (f : Interface) : Item → Interface × List Node
  | .stmt n => (f, [n])
  | .import _ items source => (f.require source (items.map linkOf), [])
  | .exportDecl _ n =>
    let names := match n with
      | .decl _ _ ds => Node.boundNamesOf ds
      | n => n.blockNames
    (f.addExports (names.map fun i => ⟨i.name, i.span, i⟩), [n])
  | .exportList _ items =>
    (f.addExports (items.map fun i =>
      let exported := i.exported.getD i.source
      ⟨exported.text, exported.span, top.bind { name := i.source.text, span := i.source.span }⟩),
      [])
  | .exportFrom _ items source =>
    (items.foldl (reexport source) (if items.isEmpty then f.require source [] else f), [])
  | .exportAll _ source => (f.require source [.all], [])
  | .exportDefaultFunction s e name g =>
    let (i, f) := named f s name
    (f.addExports [⟨"default", s, i⟩], [.functionDecl e i g])
  | .exportDefaultClass s e name b =>
    let (i, f) := named f s name
    (f.addExports [⟨"default", s, i⟩], [.classDecl e i b])
  | .exportDefaultExpr s e =>
    let (i, f) := named f s none
    (f.addExports [⟨"default", s, i⟩], [.decl .none .var [.declarator .none (.binding i) (some e)]])
where
  named (f : Interface) (s : Span) : Option Ident → Ident × Interface
    | some i => (i, f)
    | none =>
      let (x, f) := f.fresh defaultName
      (⟨x.name, s, x.binder⟩, f)

/-- Goes through the items of a module. -/
def declareAll (top : Scopes) (f : Interface) (items : List Item) : Interface × List Node :=
  items.foldl (fun (f, stmts) i =>
    let (f, more) := f.declare top i
    (f, stmts ++ more)) (f, [])

end Interface

/-! ## Statements of the converted module -/

open Build

/-- A property key, as a name where it can be one. -/
def keyNode (span : Span) (name : String) : Node :=
  if isIdentText name then .name span name else .str ⟨span, name, none⟩

/-- An access to an export of a module. -/
def exportAccess (span : Span) (object : Node) (name : String) : Node :=
  if isIdentText name then .member span object (.name .none name)
  else .member span object (.computed .none (.text name))

/-- The object that takes the exports. -/
def exportsObject : Node := .variable "exports" .free

/-- A function that gives the current value of a binding. -/
def getterOf (i : Ident) : Node := lambda [] [«return» (.ident i)]

/-- Marks the module as one that was an ES module. -/
def markModule : Node :=
  stmt (defineProperty exportsObject (.text "__esModule") (object [("value", bool true)]))

/-- Defines the exports, which are given in their order. -/
def defineExports (exports : List Export) (helper : Variable) : List Node :=
  match exports with
  | [] => []
  | [e] =>
    [stmt (defineProperty exportsObject (.str ⟨e.span, e.name, none⟩)
      (object [("enumerable", bool true), ("get", getterOf e.binding)]))]
  | es =>
    [stmt (Node.apply (.variable helper.name helper.binder) [exportsObject,
      .object .none (es.map fun e => .keyValue (keyNode e.span e.name) (getterOf e.binding))])]

/-- The call that requires a module. -/
def Requirement.call (r : Requirement) (helper : String → Node) : Node :=
  let required := (Node.variable "require" .free).apply
    [.str { r.source with raw := none }]
  let required := if r.passesAll then (helper "_export_star").apply [required, exportsObject]
    else required
  if r.needsWildcard then Build.pure (helper "_interop_require_wildcard") [required]
  else if r.needsDefault then Build.pure (helper "_interop_require_default") [required]
  else required

/-- Requires a module, keeping it in a variable if names refer to it. -/
def Requirement.stmt (r : Requirement) (x : Variable) (helper : String → Node) : Node :=
  if r.isReferred then
    .decl .none .var [.declarator .none (.binding ⟨x.name, .none, x.binder⟩) (some (r.call helper))]
  else Build.stmt (r.call helper)

/-- The bindings that a requirement makes, given the variable that holds the module. -/
def Requirement.imports (r : Requirement) (x : Variable) : Imports :=
  r.links.filterMap fun
    | .named l imported => some (l, x, some imported)
    | .default l => some (l, x, some "default")
    | .namespace l => some (l, x, none)
    | .all => none

/-! ## Uses of imported names -/

/-- What stands for a use of an imported name. -/
def Imports.access? (imports : Imports) (i : Ident) : Option Node :=
  (imports.lookup i.var).map fun (x, name) =>
    let module := Node.ident ⟨x.name, i.span, x.binder⟩
    match name with
    | some name => exportAccess i.span module name
    | none => module

/-- Whether a node is an imported name. -/
def Imports.isImported (imports : Imports) : Node → Bool
  | .ident i => (imports.lookup i.var).isSome
  | _ => false

/-- Calls a function without the object it was taken from as its receiver. -/
def detached (callee : Node) : Node := .sequence .none [.num .none "0", callee]

/-- Replaces uses of imported names. Assignments to them stay, since they fail anyhow. -/
def Imports.visitor (imports : Imports) : Visitor Id := fun _ n children =>
  match n with
  | .ident i => (imports.access? i).getD n
  | .shorthand i =>
    match imports.access? i with
    | some e => .keyValue (.name i.span i.name) e
    | none => n
  | .call _ callee _ _ =>
    match children with
    | .call s c as p => .call s (if imports.isImported callee then detached c else c) as p
    | n => n
  | .tagged _ tag _ =>
    match children with
    | .tagged s t q => .tagged s (if imports.isImported tag then detached t else t) q
    | n => n
  | _ => children

/-- Replaces `this` where it is the one of the module, which has none. -/
def dropThis : Visitor Id := fun slot n children =>
  match slot with
  | .functionBody | .fieldValue | .parameter => n
  | _ =>
    match n with
    | .this _ => .unary .none .void (.num .none "0")
    | _ => children

/-- Requires a module that is imported dynamically, without waiting for anything to load. -/
def requireLater (span : Span) (args : List Node) (parameter : Variable) : Node :=
  let resolve := (v "Promise").dot "resolve"
  let require (args : List Node) : Node :=
    «return» (Build.pure (v "_interop_require_wildcard")
      [(Node.variable "require" .free).apply args])
  let later (resolved params : List Node) (body : Node) : Node :=
    .call span ((resolve.apply resolved).dot "then")
      [.function .none none (.func .none params (block [body]) false false)] false
  match args with
  | .str l :: rest => later [] [] (require (.str { l with raw := none } :: rest))
  | first :: rest =>
    later [.template .none [⟨.none, ""⟩, ⟨.none, ""⟩] [first]]
      [.binding ⟨parameter.name, .none, parameter.binder⟩]
      (require (.ident ⟨parameter.name, .none, parameter.binder⟩ :: rest))
  | [] => later [] [] (require [])

/-- Replaces dynamic imports, telling whether there were any. -/
def replaceImports : Visitor (StateM (Nat × Bool)) := fun _ n children => do
  match ← children with
  | .importCall span _ args => do
    let (next, _) ← get
    set (next + 1, true)
    return requireLater span args ⟨"p", .scope next⟩
  | n' => return if n matches .importCall .. then n else n'

/-! ## The whole conversion -/

/-- Ties uses of helpers to their definitions. -/
def tieHelpers (number : Nat) : Visitor Id := fun _ _ children =>
  children.mapNames fun i =>
    if i.binder == .unbound && i.name == "_interop_require_wildcard" then
      { i with binder := .scope number }
    else i

/-- Whether a statement does nothing. -/
def isEmptyStmt : Node → Bool
  | .empty _ => true
  | _ => false

/-- The definitions of the functions that a module uses, those that go in front of the mark of a
module first. -/
def helpersFor (requirements : List Requirement) (hasLater : Bool) : List Node :=
  (if requirements.any Requirement.passesAll then [exportStarHelper] else []) ++
  (if requirements.any Requirement.needsDefault then [requireDefaultHelper] else []) ++
  (if hasLater || requirements.any Requirement.needsWildcard then
    [wildcardCacheHelper, requireWildcardHelper] else [])

/-- The statements among items. -/
def stmtsOf (items : List Item) : List Node :=
  items.filterMap fun
    | .stmt n => some n
    | _ => none

/-- Converts the items of an ES module to the statements of a CommonJS module. -/
def toCommonJs (items : List Item) : List Node :=
  let (items, helperScope) := resolveItems 0 items
  let top : Scopes := [(0, (items.flatMap Item.names).map (·.name))]
  let (face, stmts) := Interface.declareAll top { next := helperScope + 1 } items
  let helper (name : String) : Node := .variable name (.scope helperScope)
  let directives := stmts.takeWhile Node.isDirective
  let body := (stmts.drop directives.length).filter (!isEmptyStmt ·)
  let body : List Node := body.map fun n => n.visit (m := Id) dropThis .plain
  let replaced : StateM (Nat × Bool) (List Node) := body.mapM fun n => n.visit replaceImports .plain
  let (body, number, hasLater) := replaced.run (face.next, false)
  let body : List Node := body.map fun n => n.visit (m := Id) (tieHelpers helperScope) .plain
  let required : List (Requirement × Variable) := face.requirements.zipIdx.map fun (r, k) =>
    (r, ⟨Requirement.variableName r.source.value, .scope (number + k)⟩)
  let imports : Imports := required.flatMap fun (r, x) => r.imports x
  let exports := face.exports.mergeSort fun a b => !(b.name < a.name)
  let helpers := helpersFor face.requirements hasLater
  let exportHelpers := if exports.length > 1 then [exportHelper] else []
  let tied := stmtsOf (resolveItems helperScope ((helpers ++ exportHelpers).map .stmt)).1
  let strict := if directives.any Node.isUseStrict then [] else [stmt (.text "use strict")]
  let use (n : Node) : Node := n.visit (m := Id) imports.visitor .plain
  strict ++ directives ++ tied.take helpers.length ++ [markModule] ++ tied.drop helpers.length ++
    (defineExports exports ⟨"_export", .scope helperScope⟩).map use ++
    required.map (fun (r, x) => r.stmt x helper) ++ body.map use

end ModuleWorkers.Script
