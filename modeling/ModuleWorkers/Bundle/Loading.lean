import ModuleWorkers.Bundle.Graph
import ModuleWorkers.Bundle.Resolution
import ModuleWorkers.SourceMap.Reference
/-!
# Loading the modules of a bundle

Modules are loaded breadth first: those that a module imports, in the order of its imports, before
those that these import. What is wrong with the first file in this order is what is wrong with the
bundle.
-/

namespace ModuleWorkers

open Script (Dependency ParseError)

/-- Loads modules from files. What a script depends on is told by a function of its text. -/
structure ModuleLoader extends Resolver where
  /-- The directory that source maps are relative to. -/
  mapDir : Path
  analyze : String → Except ParseError (List Dependency)

namespace ModuleLoader

/-- The source map that a file refers to, if it can be read, and the file that holds it. -/
def inputMap? (l : ModuleLoader) (file : Path) (code : String) :
    Option (SourceMap × Option Path) := do
  guard l.options.extractSourceMaps
  let reference ← SourceMap.Reference.find? code
  let m ← (SourceMap.load l.fs l.mapDir file reference.url).toOption
  let mapFile := SourceMap.referencedFile? file reference.url
  let dir := ((mapFile.getD file).parent?).getD ((file.parent?).getD l.root)
  return (m.relocate dir, mapFile)

/-- Reads a script, and tells which file its source map is in. -/
def readScript (l : ModuleLoader) (m : BundledModule) :
    Except BundleError (BundledModule × Option Path) :=
  match l.analyze m.code with
  | .error e => .error (.syntaxError m.path e)
  | .ok imports =>
    let map := l.inputMap? m.path m.code
    .ok ({ m with imports, inputMap := map.map (·.1) }, map.bind (·.2))

/-- Reads a module, and tells which file its source map is in. -/
def readModule (l : ModuleLoader) (file : Path) :
    Except BundleError (BundledModule × Option Path) :=
  match l.fs.readText file with
  | .error e => .error (.unreadable file e)
  | .ok code =>
    let m : BundledModule := { id := BundledModule.idOf l.root file, path := file, code }
    if file.extension? == some "json" then .ok ({ m with isJson := true }, none)
    else l.readScript m

/-- Adds a module at the end. -/
def add (l : ModuleLoader) (g : ModuleGraph) (file : Path) : Except BundleError ModuleGraph := do
  let (m, mapFile) ← l.readModule file
  return { g with modules := g.modules.push m }.watch (file :: mapFile.toList)

/-- Finds the module that an import of a file means, which is added if it is not there. -/
def target (l : ModuleLoader) (file : Path) (g : ModuleGraph) (d : Dependency) :
    Except BundleError (Nat × ModuleGraph) := do
  let r := l.resolve d.specifier file
  match r.found with
  | none => throw (.unresolved d.specifier file)
  | some path =>
    let g := g.watch r.read
    match g.indexOf? path with
    | some k => return (k, g)
    | none => return (g.modules.size, ← l.add g path)

/-- Finds the modules that imports of a file mean. -/
def targets (l : ModuleLoader) (file : Path) (g : ModuleGraph) :
    List Dependency → Except BundleError (List Nat × ModuleGraph)
  | [] => return ([], g)
  | d :: ds => do
    let (k, g) ← l.target file g d
    let (ks, g) ← l.targets file g ds
    return (k :: ks, g)

/-- Finds the targets of the modules from an index on. There is no outcome if it takes more than a
number of steps, each of which finds the targets of one module. -/
def expandWithin (l : ModuleLoader) :
    Nat → Nat → ModuleGraph → Option (Except BundleError ModuleGraph)
  | 0, _, _ => none
  | steps + 1, index, g =>
    match g.modules[index]? with
    | none => some (.ok g)
    | some m =>
      match l.targets m.path g m.imports with
      | .error e => some (.error e)
      | .ok (targets, g) =>
        expandWithin l steps (index + 1)
          { g with modules := g.modules.modify index fun m => { m with targets } }

/-- Loads an entry and all modules that it needs, if that takes no more than a number of steps. -/
def loadWithin (l : ModuleLoader) (steps : Nat) (entry : Path) :
    Option (Except BundleError ModuleGraph) :=
  match l.add {} entry with
  | .error e => some (.error e)
  | .ok g => l.expandWithin steps 0 g

/-- Modules have indexes of 64 bits. -/
def maxModules : Nat := UInt64.size

/-- Loads an entry and all modules that it needs. Files are finitely many, but ways to them are not:
an extension with `..` in it can lead from a file to itself by longer and longer ways. Such a load
goes on until there are no more indexes, and what stands for its outcome is no graph. -/
def load (l : ModuleLoader) (entry : Path) : Except BundleError ModuleGraph :=
  (l.loadWithin maxModules entry).getD (.error default)

end ModuleLoader

end ModuleWorkers
