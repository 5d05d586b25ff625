import ModuleWorkers.Bundle.Options
import ModuleWorkers.Bundle.Specifier
import ModuleWorkers.FileSystem
/-!
# Finding the file of a module

A specifier names a file up to its extension, or a directory that is entered as a package: where its
`package.json` says, or at its `index`. Packages are looked for in the `node_modules` directories
beside the importing file and above. A resolution also tells which `package.json` files were read.
-/

namespace ModuleWorkers

namespace Path

/-- A path and the directories above it, nearest first. -/
def ancestors (p : Path) : List Path := p :: go p.counting.length p
where
  go : Nat → Path → List Path
    | 0, _ => []
    | n + 1, p =>
      match p.parent? with
      | none => []
      | some q => q :: go n q

end Path

open Json

/-- What a `package.json` says of where its package is entered. -/
structure PackageManifest where
  browser : Option String := none
  module : Option String := none
  main : Option String := none
  deriving DecidableEq, Inhabited, Repr

namespace PackageManifest

/-- How deep the value of the `browser` field may be nested. -/
def depthLimit : Nat := 127

/-- The `browser` field, which may be anything and counts if it is text. -/
def browser? (v : Value) : Option (Option String) :=
  if v.isSound depthLimit then some v.text? else none

/-- Reads a manifest; one that cannot be read says nothing. -/
def read? (text : String) : Option PackageManifest := do
  match ← (← Json.parse? text).record? ["browser", "module", "main"] with
  | [browser, module, main] =>
    return {
      browser := ← Value.orAbsent? browser? none browser
      module := ← Value.orAbsent? (Value.orNull? Value.text?) none module
      main := ← Value.orAbsent? (Value.orNull? Value.text?) none main }
  | _ => none

/-- The places to try, in order. -/
def entries (m : PackageManifest) (options : BundlerOptions) : List String :=
  (if options.browserField then m.browser.toList else []) ++ m.module.toList ++ m.main.toList

end PackageManifest

/-- A file, if one was found, and the manifests that were read on the way. -/
structure Resolution where
  found : Option Path
  read : List Path := []
  deriving Inhabited, Repr

/-- Where modules are looked for. -/
structure Resolver where
  fs : FileSystem
  options : BundlerOptions
  root : Path
  deriving Inhabited

namespace Resolver

/-- A file at a path, or at the path with one of the extensions. -/
def probe? (r : Resolver) (p : Path) : Option Path :=
  (p :: r.options.extensions.map fun e => ⟨p.text ++ e⟩).find? r.fs.isFile

/-- The manifest at a path. -/
def manifest (r : Resolver) (p : Path) : PackageManifest :=
  match r.fs.readText p with
  | .ok text => (PackageManifest.read? text).getD {}
  | .error _ => {}

/-- A file where a manifest says that its directory is entered. -/
def probeNamed? (r : Resolver) (dir : Path) (entry : String) : Option Path :=
  let target := dir.joinNormal entry
  (r.probe? target).or (if target == dir then none else r.probe? (target / "index"))

/-- Enters a directory. -/
def resolveDirectory (r : Resolver) (dir : Path) : Resolution :=
  if !r.fs.isDir dir then ⟨none, []⟩
  else
    let manifestFile := dir / "package.json"
    let index := r.probe? (dir / "index")
    if r.fs.isFile manifestFile then
      let entries := (r.manifest manifestFile).entries r.options
      ⟨(entries.findSome? (r.probeNamed? dir)).or index, [manifestFile]⟩
    else ⟨index, []⟩

/-- Finds a file, or enters a directory. -/
def resolvePath (r : Resolver) (p : Path) : Resolution :=
  match r.probe? p with
  | some file => ⟨some file, []⟩
  | none => r.resolveDirectory p

/-- Finds a package from a directory. -/
def resolvePackage (r : Resolver) (name : String) (subpath : Option String) (dir : Path) :
    Resolution :=
  match (dir.ancestors.map (· / "node_modules" / name)).find? r.fs.isDir with
  | none => ⟨none, []⟩
  | some packageDir =>
    match subpath with
    | some subpath => r.resolvePath (packageDir.joinNormal subpath)
    | none => r.resolveDirectory packageDir

/-- Finds the file that a specifier in a file means. -/
def resolve (r : Resolver) (specifier : String) (file : Path) : Resolution :=
  let dir := file.parent?.getD r.root
  match Specifier.ofText specifier with
  | .relative path => r.resolvePath (dir.joinNormal path)
  | .absolute path => r.resolvePath (r.root.joinNormal path)
  | .package name subpath => r.resolvePackage name subpath dir
  | .url _ => ⟨none, []⟩

end Resolver

end ModuleWorkers
