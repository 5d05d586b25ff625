import ModuleWorkers.Script.Dependency
/-!
# Pointing a script at the modules it depends on

Specifiers become the ids that modules are defined under. An `import()` becomes a call that loads
the chunk of its target, and `import.meta`, which classic scripts do not have, becomes an object
that holds the script's address.
-/

namespace ModuleWorkers.Script

/-- What a dependency refers to: the id of a module, and the chunk to load it from when it is not
in the script's own bundle. -/
structure Target where
  id : String
  chunk : Option String := none
  deriving DecidableEq, Inhabited, Repr

/-- A literal that the source does not spell. -/
def Node.text (value : String) : Node := .str ⟨.none, value, none⟩

/-- A name that the source does not spell. -/
def Node.variable (name : String) (binder : Binder := .unbound) : Node :=
  .ident { name, span := .none, binder }

/-- A member access that the source does not spell. -/
def Node.dot (object : Node) (key : String) : Node := .member .none object (.name .none key)

/-- A call of a function that the source does not spell. -/
def Node.apply (callee : Node) (args : List Node) : Node := .call .none callee args false

/-- What the specifiers of a script stand for, and the script's address. -/
structure Substitution where
  target? : Dependency → Option Target
  url : String

namespace Substitution

variable (s : Substitution)

/-- The address of the script as an absolute one. -/
def address (span : Span) : Node :=
  .member span
    (.new span (.variable "URL") true [.text s.url, (Node.variable "location").dot "origin"])
    (.name .none "href")

/-- The call that loads a module. -/
def load (span : Span) (t : Target) : Node :=
  let chunk := match t.chunk with
    | some file => .text file
    | none => .null .none
  .call span ((Node.variable "__omt").dot "load") [chunk, .text t.id] false

/-- The string literal that takes the place of a specifier. -/
def specifier (kind : DependencyKind) (l : StringLit) : StringLit :=
  match s.target? ⟨kind, l.value⟩ with
  | some t => { l with value := t.id, raw := none }
  | none => l

/-- Puts the id of its target into a call of `require`. -/
def requireCall (span : Span) (callee : Node) (args : List Node) (isPure : Bool) : Node :=
  match literalArgument? args with
  | some l =>
    if isRequireName callee then .call span callee [.str (s.specifier .require l)] isPure
    else .call span callee args isPure
  | none => .call span callee args isPure

/-- What is done at each node. The left side of an assignment is never replaced as a whole. -/
def visitor : Visitor Id := fun slot n children =>
  match n with
  | .member span (.importMeta _) (.name _ "url") =>
    if slot == .assignLeft then children else s.address span
  | .importMeta span =>
    .paren span (.object span [.keyValue (.name .none "url") (s.address span)])
  | .importCall span _ args =>
    match (literalArgument? args).bind fun l => s.target? ⟨.dynamic, l.value⟩ with
    | some t => load span t
    | none => children
  | .call .. =>
    match children with
    | .call span callee args isPure => s.requireCall span callee args isPure
    | n => n
  | _ => children

def item : Item → Item
  | .import span items source => .import span items (s.specifier .static source)
  | .exportFrom span items source => .exportFrom span items (s.specifier .static source)
  | .exportAll span source => .exportAll span (s.specifier .static source)
  | i => i.visit (m := Id) s.visitor

end Substitution

/-- Puts what its specifiers stand for into a script. -/
def Program.substitute (p : Program) (s : Substitution) : Program :=
  { p with items := p.items.map s.item }

end ModuleWorkers.Script
