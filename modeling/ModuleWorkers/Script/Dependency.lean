import ModuleWorkers.Script.Parser.Module
/-!
# What a script depends on

Import and export declarations name the modules a script cannot run without; `import()` and
`require()` with a single string literal name others. `Program.dependencies` lists them in the order
of the walk of `Node.visit`, a call before the calls inside it, with repetitions.
-/

namespace ModuleWorkers.Script

/-- How a script asks for another module. -/
inductive DependencyKind
  /-- By an import or export declaration. -/
  | static
  /-- By `import()`. -/
  | dynamic
  /-- By `require()`. -/
  | require
  deriving DecidableEq, Inhabited, Repr

structure Dependency where
  kind : DependencyKind
  specifier : String
  deriving DecidableEq, Inhabited, Repr

/-- The string literal that is the only argument of a call. -/
def literalArgument? : List Node → Option StringLit
  | [.str l] => some l
  | _ => none

/-- Whether an expression is the name `require`. -/
def isRequireName : Node → Bool
  | .ident i => i.name == "require"
  | _ => false

namespace Node

/-- The dependency that a node itself is. -/
def dependency? : Node → Option Dependency
  | .importCall _ _ args => (literalArgument? args).map fun l => ⟨.dynamic, l.value⟩
  | .call _ callee args _ =>
    if isRequireName callee then (literalArgument? args).map fun l => ⟨.require, l.value⟩
    else none
  | _ => none

/-- Lists the dependencies of every node. -/
def collect : Visitor (StateM (List Dependency)) := fun _ n children => do
  modify (· ++ n.dependency?.toList)
  children

end Node

namespace Item

def dependencies : Item → List Dependency
  | .import _ _ source | .exportFrom _ _ source | .exportAll _ source => [⟨.static, source.value⟩]
  | i => ((i.visit Node.collect).run []).2

end Item

def Program.dependencies (p : Program) : List Dependency := p.items.flatMap Item.dependencies

/-- A place in a text, by line and character, both counted from one. -/
structure Place where
  line : Nat
  column : Nat
  deriving DecidableEq, Inhabited, Repr

/-- The place of a byte position, which is counted from one. -/
def Place.of (text : List Char) (position : Nat) : Place :=
  go text 1 ⟨1, 1⟩
where
  go : List Char → Nat → Place → Place
    | [], _, place => place
    | c :: rest, p, place =>
      if position ≤ p then place
      else if c == '\n' || (c == '\r' && rest.head? != some '\n') then
        go rest (p + c.utf8Size) ⟨place.line + 1, 1⟩
      else go rest (p + c.utf8Size) ⟨place.line, place.column + 1⟩

/-- What is wrong with a script and where. -/
structure ParseError where
  fault : Fault
  place : Place
  deriving DecidableEq, Inhabited, Repr

def ParseError.message (e : ParseError) : String :=
  s!"{e.fault.message} ({e.place.line}:{e.place.column})"

/-- Reads a script, telling the place of a failure. -/
def Program.parse (text : String) : Except ParseError Program :=
  (Program.read text).mapError fun f => ⟨f.fault, Place.of text.toList f.position⟩

/-- The dependencies of a script. -/
def analyze (text : String) : Except ParseError (List Dependency) :=
  Program.dependencies <$> Program.parse text

end ModuleWorkers.Script
