import ModuleWorkers.Script.Traversal
/-!
# What names are bound to

Functions, classes, blocks, loops with a declaration and `catch` clauses open scopes; `var` and the
names of functions and classes belong to the scope of what encloses them. `Program.resolve` ties
every name of a script to the number of the scope that declares it, the top level being scope zero,
or marks it as free.
-/

namespace ModuleWorkers.Script

namespace Node

mutual

/-- The names that a pattern binds. -/
def boundNames : Node → List Ident
  | .binding i => [i]
  | .shorthandPattern _ i _ => [i]
  | .keyValuePattern _ v => v.boundNames
  | .defaultPattern _ l _ => l.boundNames
  | .restPattern _ _ a => a.boundNames
  | .arrayPattern _ es => boundNamesOf es
  | .objectPattern _ ps => boundNamesOf ps
  | .declarator _ t _ => t.boundNames
  | _ => []

def boundNamesOf : List Node → List Ident
  | [] => []
  | n :: ns => n.boundNames ++ boundNamesOf ns

end

/-- Lists the names that `var` declares below a node, outside the functions in it. -/
def varNames (n : Node) : List Ident :=
  ((n.visit collector .plain).run []).2
where
  collector : Visitor (StateM (List Ident)) := fun _ n children => do
    match n with
    | .decl _ .var ds =>
      modify (· ++ boundNamesOf ds)
      children
    | .func .. | .arrow .. | .getter .. | .setter .. | .constructorMember .. | .classBody .. =>
      return n
    | _ => children

/-- The names that a statement declares in the block it stands in. -/
def blockNames : Node → List Ident
  | .decl _ .let ds | .decl _ .const ds => boundNamesOf ds
  | .functionDecl _ i _ | .classDecl _ i _ => [i]
  | .labeled _ _ b => b.blockNames
  | _ => []

/-- The names of the scope that a node opens for its children, if it opens one. -/
def scopeNames : Node → Option (List Ident)
  | .func _ ps b _ _ | .arrow _ ps b _ => some (boundNamesOf ps ++ b.varNames)
  | .constructorMember _ ps b => some (boundNamesOf ps ++ b.varNames)
  | .getter _ _ b => some b.varNames
  | .setter _ _ p b => some (p.boundNames ++ b.varNames)
  | .staticBlock _ b => some b.varNames
  | .function _ (some i) _ | .class _ (some i) _ => some [i]
  | .block _ b => some (b.flatMap blockNames)
  | .switch _ _ cs => some (cs.flatMap fun
    | .case _ _ b => b.flatMap blockNames
    | _ => [])
  | .catch _ (some p) _ => some p.boundNames
  | .for _ (some d) _ _ _ | .forIn _ d _ _ | .forOf _ _ d _ _ => some d.blockNames
  | _ => none

/-- Changes the names that a node holds itself, other than in nodes below it. Labels are not names
of variables. -/
def mapNames (f : Ident → Ident) : Node → Node
  | .ident i => .ident (f i)
  | .binding i => .binding (f i)
  | .shorthand i => .shorthand (f i)
  | .defaulted s i v => .defaulted s (f i) v
  | .shorthandPattern s i v => .shorthandPattern s (f i) v
  | .function s i g => .function s (i.map f) g
  | .class s i b => .class s (i.map f) b
  | .functionDecl s i g => .functionDecl s (f i) g
  | .classDecl s i b => .classDecl s (f i) b
  | n => n

/-- The names that a node holds itself. -/
def ownNames : Node → List Ident
  | .ident i | .binding i | .shorthand i | .defaulted _ i _ | .shorthandPattern _ i _
  | .functionDecl _ i _ | .classDecl _ i _ => [i]
  | .function _ i _ | .class _ i _ => i.toList
  | _ => []

/-- Whether the names that a node holds belong inside the scope it opens. -/
def namesItself : Node → Bool
  | .function .. | .class .. => true
  | _ => false

end Node

/-- The scopes around a place, innermost first: their numbers and the names they declare. -/
abbrev Scopes := List (Nat × List String)

namespace Scopes

/-- What a name is bound to. -/
def binder (scopes : Scopes) (name : String) : Binder :=
  match scopes.find? fun (_, names) => names.contains name with
  | some (number, _) => .scope number
  | none => .free

def bind (scopes : Scopes) (i : Ident) : Ident := { i with binder := scopes.binder i.name }

/-- Reads in the scopes around, and counts the scopes. -/
abbrev Resolve := ReaderT Scopes (StateM Nat)

/-- A scope number that was not used yet. -/
def fresh : Resolve Nat := modifyGet fun n => (n, n + 1)

def visitor : Visitor Resolve := fun _ n children => do
  let outer ← read
  match n.scopeNames with
  | none => return (← children).mapNames outer.bind
  | some names =>
    let inner : Scopes := (← fresh, names.map (·.name)) :: outer
    let n' ← withReader (fun _ => inner) children
    return n'.mapNames (if n.namesItself then inner.bind else outer.bind)

end Scopes

namespace ImportItem

def local_ : ImportItem → Ident
  | .default i | .namespace i | .named i _ => i

def mapName (f : Ident → Ident) : ImportItem → ImportItem
  | .default i => .default (f i)
  | .namespace i => .namespace (f i)
  | .named i imported => .named (f i) imported

end ImportItem

namespace Item

/-- The names that an item declares at the top level. -/
def names : Item → List Ident
  | .stmt n | .exportDecl _ n => n.blockNames ++ n.varNames
  | .import _ items _ => items.map ImportItem.local_
  | .exportDefaultFunction _ _ i _ | .exportDefaultClass _ _ i _ => i.toList
  | _ => []

def mapNames (f : Ident → Ident) : Item → Item
  | .import s items source => .import s (items.map (·.mapName f)) source
  | .exportDefaultFunction s e i g => .exportDefaultFunction s e (i.map f) g
  | .exportDefaultClass s e i b => .exportDefaultClass s e (i.map f) b
  | i => i

end Item

/-- Ties the names of top level items to their scopes, given the number of the top level's scope,
and gives the next free number. -/
def resolveItems (number : Nat) (items : List Item) : List Item × Nat :=
  let top : Scopes := [(number, (items.flatMap Item.names).map (·.name))]
  let resolve : Scopes.Resolve (List Item) :=
    items.mapM fun i => return (← i.visit Scopes.visitor).mapNames top.bind
  (resolve.run top).run (number + 1)

end ModuleWorkers.Script
