import ModuleWorkers.Server.Arguments
import ModuleWorkers.Server.Config
import ModuleWorkers.Server.State
/-!
# Command line

The names of the files below the directory come from standard input, one a line, up to an empty
line. Each line after that is a request: its method, its target and the name of the browser. The
responses go to standard output.
-/

namespace ModuleWorkers

/-- A line without its end, or nothing at the end of the input. -/
def readLine? (input : IO.FS.Stream) : IO (Option String) := do
  let line ← input.getLine
  return if line.isEmpty then none else some (line.trimAsciiEnd.toString)

/-- Adds the files that are named up to an empty line. -/
partial def readFiles (input : IO.FS.Stream) (directory : String) (root : Path)
    (fs : FileSystem) : IO FileSystem := do
  match ← readLine? input with
  | none | some "" => return fs
  | some name =>
    let content ← IO.FS.readBinFile (directory ++ "/" ++ name)
    readFiles input directory root (fs.write (root.joinNormal name) content)

/-- Answers the requests of the lines that are left. -/
partial def answerRequests (input output : IO.FS.Stream) (s : Server) : IO Unit := do
  match ← readLine? input with
  | none => return
  | some line =>
    match Request.ofLine? line with
    | none => answerRequests input output s
    | some request =>
      let (response, s) := s.handle request
      output.putStrLn response.text
      output.flush
      answerRequests input output s

/-- Reads the configuration, if one is named. -/
def readConfig (arguments : ServerArguments) : IO (Except ConfigError ServerConfig) := do
  match arguments.config with
  | none => return .ok (ServerConfig.withMode {} arguments.legacy)
  | some name =>
    let file : Path := ⟨name⟩
    let fs : FileSystem := FileSystem.write {} file (← IO.FS.readBinFile name)
    return (ServerConfig.load fs file).map (·.withMode arguments.legacy)

/-- Serves a directory. -/
def serveDirectory (arguments : ServerArguments) (config : ServerConfig) : IO Unit := do
  let input ← IO.getStdin
  let root := (Path.mk arguments.root).absolute
  let fs ← readFiles input arguments.root root {}
  let plugin := ⟨config.plugin, .bundler config.bundler⟩
  answerRequests input (← IO.getStdout) (Server.start fs plugin root)

end ModuleWorkers

open ModuleWorkers in
def main (args : List String) : IO UInt32 := do
  match ServerArguments.parse args with
  | .error e =>
    let isAnswer := e = .helpWanted ∨ e = .versionWanted
    (if isAnswer then IO.println e.message else IO.eprintln e.message)
    return if isAnswer then 0 else 2
  | .ok arguments =>
    match ← readConfig arguments with
    | .error e =>
      IO.eprintln e.message
      return 1
    | .ok config =>
      serveDirectory arguments config
      return 0
