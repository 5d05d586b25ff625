import ModuleWorkers.Script.Scope
/-!
# Telling variables apart by their names

A conversion makes up variables and knows them by their binders; in the printed text only names are
left. `renameVariables` gives a variable another name wherever its own would be taken for another
variable: a number is added to it, the smallest that works. A name that no scope of the script
declares keeps its meaning everywhere, so no variable is ever renamed to one.
-/

namespace ModuleWorkers.Script

/-- A scope: the variables it declares, those that are used in it or below it, and the scopes right
below it. -/
inductive ScopeTree
  | mk (declared used : List Variable) (inner : List ScopeTree)

/-- A scope that is being gone through. -/
structure OpenScope where
  isFunction : Bool
  declared : List Variable := []
  /-- The variables that `var` declares for a function around. -/
  hoisted : List Variable := []
  used : List Variable := []
  inner : List ScopeTree := []

namespace OpenScope

/-- The scope once all of it was gone through. -/
def close (s : OpenScope) : ScopeTree :=
  .mk (if s.isFunction then s.declared ++ s.hoisted else s.declared) s.used s.inner

def declare (is : List Ident) (s : OpenScope) : OpenScope :=
  { s with declared := s.declared ++ is.map Ident.var }

def declareVar (is : List Ident) (s : OpenScope) : OpenScope :=
  if s.isFunction then s.declare is else { s with hoisted := s.hoisted ++ is.map Ident.var }

def use (is : List Ident) (s : OpenScope) : OpenScope :=
  { s with used := s.used ++ is.map Ident.var }

/-- Goes through the syntax of an inner scope. -/
def within (isFunction : Bool) (names : List Ident) (children : StateM OpenScope Node) :
    StateM OpenScope Node := do
  let outer ← get
  set (({ isFunction } : OpenScope).declare names)
  let n ← children
  let s ← get
  set { outer with
    hoisted := if isFunction then outer.hoisted else outer.hoisted ++ s.hoisted
    used := outer.used ++ s.used
    inner := outer.inner ++ [s.close] }
  return n

/-- Notes what a node declares in the scope around it. -/
def note : Node → OpenScope → OpenScope
  | .decl _ .var ds => declareVar (Node.boundNamesOf ds)
  | .decl _ _ ds => declare (Node.boundNamesOf ds)
  | .functionDecl _ i _ | .classDecl _ i _ => declare [i]
  | _ => id

def visitor : Visitor (StateM OpenScope) := fun slot n children => do
  modify (·.note n)
  if !n.namesItself then modify (·.use n.ownNames)
  match n with
  | .func _ ps _ _ _ | .arrow _ ps _ _ | .constructorMember _ ps _ =>
    within true (Node.boundNamesOf ps) children
  | .getter .. | .staticBlock .. => within true [] children
  | .setter _ _ p _ => within true p.boundNames children
  | .function _ (some i) _ | .class _ (some i) _ => within false [i] children
  | .catch _ (some p) _ => within false p.boundNames children
  | .for .. | .forIn .. | .forOf .. | .switch .. => within false [] children
  | .block .. =>
    if slot == .functionBody || slot == .arrowBody then children else within false [] children
  | _ => children

end OpenScope

/-- The scopes of a script. -/
def scopesOf (stmts : List Node) : ScopeTree :=
  ((Node.visitAll OpenScope.visitor .plain stmts).run { isFunction := true }).2.close

namespace ScopeTree

def declared : ScopeTree → List Variable
  | mk ds _ _ => ds

def used : ScopeTree → List Variable
  | mk _ us _ => us

mutual

/-- The variables that a scope or one below it declares. -/
def allDeclared : ScopeTree → List Variable
  | mk ds _ inner => ds ++ allDeclaredIn inner

def allDeclaredIn : List ScopeTree → List Variable
  | [] => []
  | s :: ss => s.allDeclared ++ allDeclaredIn ss

end

/-- The variables that occur in a scope or below it. -/
def occurring (s : ScopeTree) : List Variable := s.allDeclared ++ s.used

/-- The names that the script uses and no scope of it declares. -/
def freeNames (s : ScopeTree) : List String :=
  let declared := s.allDeclared
  s.used.filterMap fun x =>
    if x.binder == .unbound || declared.contains x then none else some x.name

end ScopeTree

/-- The names given so far: the new names of variables that got one, and who has which name in the
scope at hand and those around it. -/
structure Naming where
  renamed : List (Variable × String) := []
  taken : List (String × Variable) := []

namespace Naming

/-- A name with a number added, the number zero not being written. -/
def numbered (name : String) (n : Nat) : String := if n == 0 then name else s!"{name}{n}"

/-- Whether a variable may have a name in a scope: it is not the name of something else there. -/
def isOpen (free : List String) (occurring : List Variable) (g : Naming) (x : Variable)
    (name : String) : Bool :=
  !free.contains name &&
    g.taken.all fun (name', y) => name' != name || y == x || !occurring.contains y

/-- The smallest number that can be added to the name of a variable. One of the first numbers works,
as each name that is in the way rules out one number at most. -/
def number (free : List String) (occurring : List Variable) (g : Naming) (x : Variable) : Nat :=
  ((List.range (free.length + g.taken.length + 1)).find? fun n =>
    g.isOpen free occurring x (numbered x.name n)).getD 0

/-- Gives a variable its name in the scope that declares it. -/
def add (free : List String) (occurring : List Variable) (g : Naming) (x : Variable) : Naming :=
  if (g.renamed.lookup x).isSome || x.name == "eval" || x.name == "arguments" then g
  else
    let name := numbered x.name (g.number free occurring x)
    { renamed := if name == x.name then g.renamed else (x, name) :: g.renamed
      taken := (name, x) :: g.taken }

mutual

/-- Names the variables of a scope and of those below it. What is taken below it is of no matter to
the scopes beside it. -/
def addScope (free : List String) (g : Naming) : ScopeTree → Naming
  | .mk declared used inner =>
    let here := declared.foldl (add free (ScopeTree.mk declared used inner).occurring) g
    { addScopes free here inner with taken := g.taken }

def addScopes (free : List String) (g : Naming) : List ScopeTree → Naming
  | [] => g
  | s :: ss => addScopes free (g.addScope free s) ss

end

/-- The name to print for an identifier. -/
def apply (g : Naming) (i : Ident) : Ident :=
  match g.renamed.lookup i.var with
  | some name => { i with name }
  | none => i

/-- Writes out the property of a shorthand whose variable got another name. -/
def visitor (g : Naming) : Visitor Id := fun _ _ children =>
  match children with
  | .shorthand i =>
    if g.apply i == i then .shorthand i
    else .keyValue (.name i.span i.name) (.ident (g.apply i))
  | .shorthandPattern s i value =>
    if g.apply i == i then .shorthandPattern s i value
    else .keyValuePattern (.name i.span i.name) <| match value with
      | some e => .defaultPattern s (.binding (g.apply i)) e
      | none => .binding (g.apply i)
  | n => n.mapNames g.apply

end Naming

/-- Whether a node calls `eval`, which can see the names around it. -/
def Node.callsEval (n : Node) : Bool :=
  ((n.visit (m := StateM Bool) (fun _ n children => do
    match n with
    | .call _ (.ident i) _ _ => if i.name == "eval" then set true
    | _ => pure ()
    children) .plain).run false).2

/-- Gives variables other names where they would be taken for other variables. Scripts that call
`eval` stay as they are. -/
def renameVariables (stmts : List Node) : List Node :=
  if stmts.any Node.callsEval then stmts
  else
    let scopes := scopesOf stmts
    let g := ({} : Naming).addScope scopes.freeNames scopes
    stmts.map fun n => n.visit (m := Id) g.visitor .plain

end ModuleWorkers.Script
