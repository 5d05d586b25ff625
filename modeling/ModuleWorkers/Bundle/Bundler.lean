import ModuleWorkers.Bundle.Loading
import ModuleWorkers.Bundle.Output
import ModuleWorkers.Bundle.Package
import ModuleWorkers.Edits.Provenance
import ModuleWorkers.Hash.Xxh3
import ModuleWorkers.Script.Provenance
import ModuleWorkers.SourceMap.Compose
/-!
# Building bundles

A worker becomes one script with all modules that it needs before it runs, and one more script for
each module that is imported while it runs and is not in the first one. Names of scripts come from
what is in them.
-/

namespace ModuleWorkers

open Script (Dependency DependencyKind ParseError Rendered Target)

/-- How scripts are read and converted. -/
structure Conversion where
  analyze : String → Except ParseError (List Dependency)
  render : Path → String → List Target → String → Path → Except ParseError Rendered

def Conversion.standard : Conversion := ⟨Script.analyze, Script.render⟩

/-- A bundler that finds modules in a file system. -/
structure Bundler where
  fs : FileSystem
  options : BundlerOptions := {}
  conversion : Conversion := .standard

/-- A script to load later: the module that it is for, its name and the modules in it. -/
structure LaterScript where
  target : Nat
  name : String
  modules : List Nat
  deriving Inhabited, Repr

namespace Bundler

/-- The name of a script: that of its module and digits that depend on everything in the script. -/
def scriptName (g : ModuleGraph) (target : Nat) (modules : List Nat) : String :=
  let bytes := modules.foldl (fun (b : ByteArray) k =>
    match g.modules[k]? with
    | some m => b ++ m.id.toUTF8 ++ m.code.toUTF8
    | none => b) .empty
  let stem := (g.modules[target]?.bind (·.path.stem?)).getD "chunk"
  stem ++ "-" ++ .ofList (Xxh3.digits 8 bytes) ++ ".js"

/-- The modules of the first script, the entry last. -/
def mainModules (g : ModuleGraph) : List Nat := g.staticOrder 0 []

/-- The scripts to load later, in the order in which their modules are found. -/
def laterScripts (g : ModuleGraph) : List LaterScript :=
  let main := mainModules g
  (g.dynamicTargets.filter (!main.contains ·)).map fun target =>
    let modules := g.staticOrder target main
    ⟨target, scriptName g target modules, modules⟩

/-- What the imports of a module become: the ids of the modules that they mean, and for imports
while the module runs the name of the script to load first, if there is one. -/
def importTargets (g : ModuleGraph) (later : List LaterScript) (m : BundledModule) : List Target :=
  (m.imports.zip m.targets).map fun (d, k) =>
    let chunk :=
      if d.kind = .dynamic then (later.find? (·.target == k)).map (·.name) else none
    { id := (g.modules[k]?.map (·.id)).getD "", chunk }

/-- The body of a module that holds JSON. -/
def jsonBody (m : BundledModule) (mapDir : Path) : Except EditError (String × SourceMap) := do
  let b : EditBuffer := { base := m.code }
  let b ← b.overwrite 0 0 "module.exports = "
  let b ← b.append ";"
  return (b.text, b.sourceMap mapDir m.path.text true)

/-- The body of a module and the map of the body to the file of the module. -/
def moduleBody (b : Bundler) (g : ModuleGraph) (later : List LaterScript) (mapDir : Path)
    (m : BundledModule) : Except BundleError (String × SourceMap) :=
  if m.isJson then (jsonBody m mapDir).mapError .edit
  else
    match b.conversion.render m.path m.code (importTargets g later m) ("/" ++ m.id) mapDir with
    | .error e => .error (.conversion m.path e)
    | .ok r => .ok (r.code, r.map)

/-- A module ready to be packaged. -/
def packageModule (b : Bundler) (g : ModuleGraph) (later : List LaterScript) (mapDir : Path)
    (m : BundledModule) : Except BundleError PackagedModule := do
  let (code, map) ← b.moduleBody g later mapDir m
  let map ← match m.inputMap with
    | some inputMap => (map.compose inputMap).mapError .sourceMap
    | none => .ok map
  return ⟨m.id, code, map⟩

/-- Packages the modules at indexes. -/
def packageAll (modules : List PackagedModule) (indexes : List Nat) (entry : Option String)
    (mapDir : Path) : Except BundleError Package :=
  (Package.ofModules (indexes.filterMap fun k => modules[k]?) entry mapDir).mapError .sourceMap

/-- Builds a bundle from the modules that it needs. -/
def ofGraph (b : Bundler) (g : ModuleGraph) (mapDir : Path) : Except BundleError BundleOutput := do
  let later := laterScripts g
  let modules ← g.modules.toList.mapM (b.packageModule g later mapDir)
  let main ← packageAll modules (mainModules g) (g.entry?.map (·.id)) mapDir
  let files ← later.mapM fun (s : LaterScript) => do
    let p ← packageAll modules s.modules none mapDir
    return OutputFile.script s.name p.code (some p.map)
  return ⟨main.code, main.map, files, g.watchFiles⟩

/-- What loads the modules of a bundle. Maps are relative to the directory that the bundle is served
in. -/
def loader (b : Bundler) (request : BundleRequest) : ModuleLoader :=
  { fs := b.fs, options := b.options, root := request.root
    mapDir := request.root.ofUrl (UrlPath.dirname request.requestedPath)
    analyze := b.conversion.analyze }

/-- Builds a bundle. -/
def bundle (b : Bundler) (request : BundleRequest) : Except BundleError BundleOutput := do
  let l := b.loader request
  b.ofGraph (← l.load request.entry) l.mapDir

end Bundler

/-- The bundler as a pipeline. -/
def Pipeline.bundler (options : BundlerOptions) : Pipeline Unit BundleError :=
  { run := fun _ fs request => { outcome := Bundler.bundle { fs, options } request, next := () } }

end ModuleWorkers
