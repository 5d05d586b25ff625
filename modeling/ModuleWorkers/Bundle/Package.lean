import ModuleWorkers.SourceMap.Json
/-!
# Packaged scripts

A bundle is a script that classic workers can run: a loader, then each module as the body of a
function that the loader is given with the module's id, and last a call that runs the entry. Modules
keep their lines, so their maps only have to be moved down.
-/

namespace ModuleWorkers

/-- A module as the body of a function, and the map of the body. -/
structure PackagedModule where
  id : String
  code : String
  map : SourceMap
  deriving Inhabited

/-- A script and its map. -/
structure Package where
  code : String
  map : SourceMap
  deriving Inhabited

namespace Package

/-- The lines of the loader. Modules are defined with their functions, required by their ids, and
loaded with the script that defines them if it is another one. -/
def loader : List String := [
  "var __omt = (self.__omt = self.__omt || (function () \x7b",
  "  var factories = \x7b\x7d;",
  "  var cache = \x7b\x7d;",
  "  var loadedScripts = \x7b\x7d;",
  "  function define(id, factory) \x7b",
  "    if (!Object.prototype.hasOwnProperty.call(factories, id)) factories[id] = factory;",
  "  \x7d",
  "  function require(id) \x7b",
  "    if (Object.prototype.hasOwnProperty.call(cache, id)) return cache[id].exports;",
  "    var factory = factories[id];",
  "    if (!factory) throw new Error(\"Cannot find module '\" + id + \"'\");",
  "    var module = (cache[id] = \x7b id: id, exports: \x7b\x7d \x7d);",
  "    factory.call(module.exports, require, module, module.exports);",
  "    return module.exports;",
  "  \x7d",
  "  function namespace(exports) \x7b",
  "    if (exports && exports.__esModule) return exports;",
  "    var ns = \x7b default: exports \x7d;",
  "    if (exports && typeof exports === \"object\") \x7b",
  "      for (var key in exports) if (key !== \"default\") ns[key] = exports[key];",
  "    \x7d",
  "    return ns;",
  "  \x7d",
  "  function load(file, id) \x7b",
  "    return new Promise(function (resolve) \x7b",
  "      if (file && !loadedScripts[file]) \x7b",
  "        importScripts(new URL(file, self.location.href).href);",
  "        loadedScripts[file] = true;",
  "      \x7d",
  "      resolve(namespace(require(id)));",
  "    \x7d);",
  "  \x7d",
  "  return \x7b",
  "    define: define,",
  "    require: require,",
  "    load: load,",
  "    namespace: namespace,",
  "  \x7d;",
  "\x7d)());"]

/-- Text that ends with a line feed unless it is empty. -/
def lines (ls : List String) : String := String.join (ls.map (· ++ "\n"))

def opening (id : String) : String :=
  "__omt.define(" ++ Json.Quoted.quote id ++ ", function (require, module, exports) \x7b\n"

def closing : String := "\x7d);\n"

def call (id : String) : String := "__omt.require(" ++ Json.Quoted.quote id ++ ");\n"

/-- The body of a module, which ends with a line feed. -/
def body (code : String) : String := if code.endsWith "\n" then code else code ++ "\n"

def countLines (text : String) : Nat := text.toList.count '\n'

/-- The text of a module. -/
def wrapped (m : PackagedModule) : String := opening m.id ++ body m.code ++ closing

/-- The line behind a module that starts at a line, counted along its opening, its code, the line
feed that the code may lack, and its closing. -/
def lineAfter (line : Nat) (m : PackagedModule) : Nat :=
  let line := line + 1
  let line := line + countLines m.code
  let line := if m.code.endsWith "\n" then line else line + 1
  line + 1

/-- Adds the maps of modules that start at a line. -/
def addMaps (map : SourceMap) (line : Nat) :
    List PackagedModule → Except SourceMapError SourceMap
  | [] => .ok map
  | m :: ms =>
    match map.append m.map (line + 1) with
    | (_, .error e) => .error e
    | (map, .ok ()) => addMaps map (lineAfter line m) ms

/-- Packages modules, in their order, into a script that at the end runs an entry if there is
one. -/
def ofModules (modules : List PackagedModule) (entry : Option String) (mapDir : Path) :
    Except SourceMapError Package := do
  let map ← addMaps (.empty mapDir) (countLines (lines loader)) modules
  let code := lines loader ++ String.join (modules.map wrapped) ++ (entry.map call).getD ""
  return ⟨code, map⟩

end Package

end ModuleWorkers
