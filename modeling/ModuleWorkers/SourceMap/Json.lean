import ModuleWorkers.SourceMap.Basic
import ModuleWorkers.Json.Diagnosis
import ModuleWorkers.Json.Parser
import ModuleWorkers.Encoding.DataUrl
/-!
# Source maps as JSON

The file format of source maps, version 3, and the addresses that hold a map themselves. Written
maps have no blanks and name all sources and contents; what is read may leave out most fields, name
a common root of its sources, and give `null` for a source or its content.
-/

namespace ModuleWorkers.SourceMap

/-! ## Writing -/

/-- Quoted texts as an array. -/
def quotedList (texts : List String) : String :=
  "[" ++ String.intercalate "," (texts.map Json.Quoted.quote) ++ "]"

/-- The text of all segments. -/
def mappingsText (m : SourceMap) : String := .ofList (Mappings.encode m.lines.toList)

def toJson (m : SourceMap) : String :=
  let file := match m.file with
    | some f => "\"file\":" ++ Json.Quoted.quote f ++ ","
    | none => ""
  "\x7b\"version\":3," ++ file ++ "\"mappings\":" ++ Json.Quoted.quote m.mappingsText ++
    ",\"sources\":" ++ quotedList (m.sources.map (·.path)) ++
    ",\"sourcesContent\":" ++ quotedList (m.sources.map (·.content)) ++
    ",\"names\":" ++ quotedList m.names ++ "\x7d"

/-- An address that holds the map. -/
def toDataUrl (m : SourceMap) : String :=
  "data:application/json;charset=utf-8;base64," ++
    .ofList (Base64.encode m.toJson.toUTF8.toList)

/-! ## Reading -/

/-- The fields of a map as they are written. -/
structure Fields where
  file : Option String
  mappings : String
  sourceRoot : Option String
  sources : List (Option String)
  contents : List (Option String)
  names : List String
  deriving Inhabited, Repr

namespace Fields

open Json

/-- The fields in the order in which an array lists them. -/
def keys : List String :=
  ["file", "mappings", "sourceRoot", "sources", "sourcesContent", "names"]

def ofValue? (v : Value) : Option Fields := do
  match ← v.record? keys with
  | [file, some mappings, sourceRoot, some sources, contents, names] =>
    return {
      file := ← Value.orAbsent? (Value.orNull? Value.text?) none file
      mappings := ← mappings.text?
      sourceRoot := ← Value.orAbsent? (Value.orNull? Value.text?) none sourceRoot
      sources := ← Value.listOf? (Value.orNull? Value.text?) sources
      contents := ← Value.orAbsent? (Value.listOf? (Value.orNull? Value.text?)) [] contents
      names := ← Value.orAbsent? (Value.listOf? Value.text?) [] names }
  | _ => none

/-- The fields as faults tell of them. -/
def shape : Diagnosis.RecordShape :=
  ⟨"SourceMapJson", [
    { name := "file", shape := .orNull .text },
    { name := "mappings", shape := .text, isRequired := true },
    { name := "sourceRoot", shape := .orNull .text },
    { name := "sources", shape := .list (.orNull .text), isRequired := true },
    { name := "sourcesContent", shape := .list (.orNull .text) },
    { name := "names", shape := .list .text }]⟩

/-- What stands in front of each source. -/
def sourcePrefix (f : Fields) : String :=
  match f.sourceRoot with
  | none => ""
  | some root =>
    if root.isEmpty then "" else .ofList ((root.toList.reverse.dropWhile (· == '/')).reverse ++ ['/'])

/-- Each source, with its content if it is known. -/
def sourceList (f : Fields) : List (String × Option String) :=
  f.sources.zipIdx.map fun (s, k) => (f.sourcePrefix ++ s.getD "", f.contents[k]?.join)

end Fields

/-- Adds sources as a file lists them; a content that is given counts even if it is empty. -/
def addSources (m : SourceMap) : List (String × Option String) → List Nat × SourceMap
  | [] => ([], m)
  | (path, content) :: ss =>
    let (k, m) := m.addSource path
    let m := match content with
      | some content => m.withContent k content
      | none => m
    let (ks, m) := m.addSources ss
    (k :: ks, m)

/-- The map that fields describe. -/
def ofFields (root : Path) (f : Fields) : Except SourceMapError SourceMap := do
  let m : SourceMap := { root, file := f.file }
  let (sources, m) := m.addSources f.sourceList
  let (names, m) := m.mergeNames f.names
  let mappings ← Mappings.decode f.mappings.toList
  match m.addMappings ⟨sources, names⟩ 0 mappings with
  | (m, .ok ()) => return m
  | (_, .error e) => throw e

/-- Reads a map whose sources are kept relative to a root directory. -/
def ofJson (root : Path) (text : String) : Except SourceMapError SourceMap :=
  match (Json.parse? text).bind Fields.ofValue? with
  | some f => ofFields root f
  | none => .error (.invalidJson ((Json.Diagnosis.fault? Fields.shape text).getD default))

/-- Reads a map that an address holds. -/
def ofDataUrl (root : Path) (url : String) : Except SourceMapError SourceMap :=
  match (DataUrl.parse? url).filter (·.mediaType == "application/json") with
  | none => .error .invalidDataUrl
  | some d =>
    match d.text? with
    | none => .error .invalidDataUrl
    | some text => ofJson root text

end ModuleWorkers.SourceMap
