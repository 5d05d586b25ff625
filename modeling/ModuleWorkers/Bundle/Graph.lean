import ModuleWorkers.Bundle.Error
import ModuleWorkers.Bundle.Order
import ModuleWorkers.SourceMap.Basic
/-!
# Graphs of modules
-/

namespace ModuleWorkers

open Script (Dependency DependencyKind)

/-- A file of a bundle. -/
structure BundledModule where
  /-- The path below the root directory. -/
  id : String
  path : Path
  code : String
  isJson : Bool := false
  /-- What the module depends on, as it is written. -/
  imports : List Dependency := []
  /-- The indexes of the modules that the imports mean. -/
  targets : List Nat := []
  /-- The source map that the module refers to. -/
  inputMap : Option SourceMap := none
  deriving Inhabited

namespace BundledModule

/-- The path of a file as seen from the root directory. -/
def idOf (root file : Path) : String := ((file.relativeTo? root).getD file).text

/-- The targets of some kinds of imports. -/
def edges (m : BundledModule) (kinds : List DependencyKind) : List Nat :=
  (m.imports.zip m.targets).filterMap fun (d, k) => if kinds.contains d.kind then some k else none

end BundledModule

/-- The modules that an entry needs, in the order in which they were found, and all files that were
read. The entry comes first. -/
structure ModuleGraph where
  modules : Array BundledModule := #[]
  watchFiles : PathSet := []
  deriving Inhabited

namespace ModuleGraph

/-- The edges that have to be followed before a module runs. -/
def staticEdges (g : ModuleGraph) (index : Nat) : List Nat :=
  match g.modules[index]? with
  | some m => m.edges [.static, .require]
  | none => []

/-- The modules that a root needs before it runs, dependencies first. Those that are left out are
not passed. -/
def staticOrder (g : ModuleGraph) (root : Nat) (leftOut : List Nat) : List Nat :=
  DepthFirst.order g.modules.size g.staticEdges leftOut.contains root

/-- The modules that are imported while others run, in the order in which they are found. -/
def dynamicTargets (g : ModuleGraph) : List Nat :=
  (g.modules.toList.flatMap (·.edges [.dynamic])).eraseDups

/-- The index of a file. -/
def indexOf? (g : ModuleGraph) (file : Path) : Option Nat := g.modules.findIdx? (·.path == file)

/-- Adds files to those that were read. -/
def watch (g : ModuleGraph) (files : List Path) : ModuleGraph :=
  { g with watchFiles := files.foldl (fun s p => PathSet.insert p s) g.watchFiles }

/-- The module that a bundle starts with. -/
def entry? (g : ModuleGraph) : Option BundledModule := g.modules[0]?

end ModuleGraph

end ModuleWorkers
