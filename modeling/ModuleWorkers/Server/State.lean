import ModuleWorkers.Bundle.Bundler
import ModuleWorkers.Plugin.Request
import ModuleWorkers.Server.BodyCache
import ModuleWorkers.Server.Message
/-!
# The server

Serves a directory: the plugin is asked first, scripts it does not answer are read from the
directory and pass through the plugin, and nothing else is there. Bodies of scripts are kept until
their files change.
-/

namespace ModuleWorkers

structure Server where
  fs : FileSystem
  plugin : Plugin Unit BundleError
  state : PluginState := {}
  bodies : BodyCache := {}

namespace Server

/-- A server for a directory. It listens to changes for the bodies that it keeps, after the
plugin. -/
def start (fs : FileSystem) (plugin : Plugin Unit BundleError) (root : Path) : Server :=
  let state := PluginState.start {} root
  { fs, plugin, state := { state with watcher := (state.watcher.listen .other).2 } }

/-- Writes a file. Nobody hears of it. -/
def write (s : Server) (file : Path) (content : ByteArray) : Server :=
  { s with fs := s.fs.write file content }

/-- Reports a change of a file. -/
def emit (s : Server) (file : Path) : Server :=
  { s with
    state := s.state.emit file
    bodies := match s.state.root.urlOf? file with
      | some url => s.bodies.erase url
      | none => s.bodies }

/-- The number of those who hear of changes. -/
def listenerCount (s : Server) : Nat := s.state.watcher.host.listeners.length

/-- The body of a script in the directory, if it can be read. -/
def scriptBody (s : Server) (path : String) (headers : Headers) : Option String × Server :=
  let partition := s.state.partition? s.plugin.options path headers
  match s.bodies.get? path partition with
  | some body => (some body, s)
  | none =>
    match s.fs.readText (s.state.root.ofUrl path) with
    | .error _ => (none, s)
    | .ok source =>
      let (answer, state) := s.state.respond s.fs path source true
      let body := answer.getD source
      (some body, { s with state, bodies := s.bodies.insert path partition body })

/-- Serves what the plugin has no answer for. -/
def serveFile (s : Server) (r : Request) : Response × Server :=
  let (body, s) :=
    if isScriptPath r.path then s.scriptBody r.path r.readableHeaders else (none, s)
  (match body with
    | some text => .ofContent r.path (.text text)
    | none => .missing r.method, s)

/-- Answers a request. -/
def handle (s : Server) (r : Request) : Response × Server :=
  let (answer, state, _) := s.plugin.request s.fs r.path r.readableHeaders (s.state, ())
  let s := { s with state }
  let (response, s) := match answer with
    | .error e => (Response.failure (e.message BundleError.message), s)
    | .ok (some content) => (Response.ofContent r.path content, s)
    | .ok none => s.serveFile r
  (response.forMethod r.method, s)

end Server

end ModuleWorkers
