import ModuleWorkers.FileSystem
import ModuleWorkers.SourceMap.Basic
/-!
# What builds take and make
-/

namespace ModuleWorkers

/-- What is to be built. -/
structure BundleRequest where
  /-- The file that the worker starts with. -/
  entry : Path
  /-- The directory of the script that constructs the worker. -/
  baseDir : Path
  root : Path
  /-- The path that the bundle is served at. -/
  requestedPath : String
  deriving Inhabited, Repr

/-- A file that goes with a bundle. -/
inductive OutputFile
  | script (name code : String) (map : Option SourceMap)
  | asset (name : String) (bytes : ByteArray)
  deriving Inhabited

def OutputFile.name : OutputFile → String
  | script name _ _ => name
  | asset name _ => name

/-- What a build makes. -/
structure BundleOutput where
  code : String
  map : SourceMap
  files : List OutputFile := []
  /-- The files that were read. -/
  watchFiles : List Path := []
  deriving Inhabited

/-- A run of a pipeline. -/
structure PipelineRun (σ ε : Type) where
  outcome : Except ε BundleOutput
  /-- The files that were reported as changed during the run, in order. -/
  changes : List Path := []
  /-- The state of the pipeline after the run. -/
  next : σ

/-- What builds bundles, from files and with a state of its own. -/
structure Pipeline (σ ε : Type) where
  run : σ → FileSystem → BundleRequest → PipelineRun σ ε
  /-- Whether of builds that run at the same time the one that started last ends first. -/
  lastEndsFirst : Bool := false

end ModuleWorkers
