import ModuleWorkers.Script.Substitution
import ModuleWorkers.Script.Scope
/-!
# Functions that converted modules use

A module that became a CommonJS one defines the functions it needs at its top: `_export_star` copies
the exports of another module, `_interop_require_default` and `_interop_require_wildcard` make a
module that was never an ES module look like one, and `_export` defines several exports at once.
-/

namespace ModuleWorkers.Script

namespace Build

/-! ## Making up syntax -/

def id (name : String) : Ident := { name, span := .none }

/-- A variable. -/
def v (name : String) : Node := .variable name

def param (name : String) : Node := .binding (id name)

def index (object key : Node) : Node := .member .none object (.computed .none key)

def op (o : BinaryOp) (left right : Node) : Node := .binary .none o left right

def not (e : Node) : Node := .unary .none .not e

def cond (test thenBranch elseBranch : Node) : Node := .conditional .none test thenBranch elseBranch

/-- A string literal between double quotes. -/
def str (value : String) : Node := .str ⟨.none, value, some s!"\"{value}\""⟩

def object (props : List (String × Node)) : Node :=
  .object .none (props.map fun (key, value) => .keyValue (.name .none key) value)

def bool (b : Bool) : Node := .bool .none b

def stmt (e : Node) : Node := .exprStmt .none e

def block (stmts : List Node) : Node := .block .none stmts

def «return» (e : Node) : Node := .return .none (some e)

def «if» (test thenBranch : Node) (elseBranch : Option Node := none) : Node :=
  .if .none test thenBranch elseBranch

def assign (left right : Node) : Node := .assign .none .plain left right

def var (name : String) (value : Node) : Node :=
  .decl .none .var [.declarator .none (param name) (some value)]

def forIn (name : String) (object body : Node) : Node :=
  .forIn .none (.decl .none .var [.declarator .none (param name) none]) object body

def new (callee : String) (args : List Node) : Node := .new .none (v callee) true args

def func (params : List String) (body : List Node) : Node :=
  .func .none (params.map param) (block body) false false

/-- A function without a name. -/
def lambda (params : List String) (body : List Node) : Node :=
  .function .none none (func params body)

def define (name : String) (params : List String) (body : List Node) : Node :=
  .functionDecl .none (id name) (func params body)

/-- The definition of a property of an object by a descriptor. -/
def defineProperty (object key descriptor : Node) : Node :=
  ((v "Object").dot "defineProperty").apply [object, key, descriptor]

/-- A call that has no effect but its result. -/
def pure (callee : Node) (args : List Node) : Node := .call .none callee args true

end Build

open Build

/-- Whether an object has a property of its own. -/
private def hasOwn (object key : Node) : Node :=
  ((((v "Object").dot "prototype").dot "hasOwnProperty").dot "call").apply [object, key]

/-- Copies the exports of a module to another, `default` apart. -/
def exportStarHelper : Node :=
  define "_export_star" ["from", "to"] [
    stmt ((((v "Object").dot "keys").apply [v "from"]).dot "forEach" |>.apply [
      lambda ["k"] [
        «if» (op .and (op .strictNe (v "k") (str "default")) (not (hasOwn (v "to") (v "k"))))
          (block [stmt (defineProperty (v "to") (v "k") (object [
            ("enumerable", bool true),
            ("get", lambda [] [«return» (index (v "from") (v "k"))])]))])]]),
    «return» (v "from")]

/-- Gives a module that was never an ES module a default export. -/
def requireDefaultHelper : Node :=
  define "_interop_require_default" ["obj"] [
    «return» (cond (op .and (v "obj") ((v "obj").dot "__esModule")) (v "obj")
      (object [("default", v "obj")]))]

/-- The cache of the namespace objects that were made up. -/
def wildcardCacheHelper : Node :=
  define "_getRequireWildcardCache" ["nodeInterop"] [
    «if» (op .strictNe (.unary .none .typeof (v "WeakMap")) (str "function"))
      («return» (.null .none)),
    var "cacheBabelInterop" (new "WeakMap" []),
    var "cacheNodeInterop" (new "WeakMap" []),
    «return» (Node.apply (.paren .none (assign (param "_getRequireWildcardCache")
      (lambda ["nodeInterop"] [
        «return» (cond (v "nodeInterop") (v "cacheNodeInterop") (v "cacheBabelInterop"))])))
      [v "nodeInterop"])]

/-- Gives a module that was never an ES module a namespace object. -/
def requireWildcardHelper : Node :=
  define "_interop_require_wildcard" ["obj", "nodeInterop"] [
    «if» (op .and (op .and (not (v "nodeInterop")) (v "obj")) ((v "obj").dot "__esModule"))
      (block [«return» (v "obj")]),
    «if» (op .or (op .strictEq (v "obj") (.null .none))
        (op .and (op .strictNe (.unary .none .typeof (v "obj")) (str "object"))
          (op .strictNe (.unary .none .typeof (v "obj")) (str "function"))))
      (block [«return» (object [("default", v "obj")])]),
    var "cache" ((v "_getRequireWildcardCache").apply [v "nodeInterop"]),
    «if» (op .and (v "cache") (((v "cache").dot "has").apply [v "obj"]))
      (block [«return» (((v "cache").dot "get").apply [v "obj"])]),
    var "newObj" (object [("__proto__", .null .none)]),
    var "hasPropertyDescriptor" (op .and ((v "Object").dot "defineProperty")
      ((v "Object").dot "getOwnPropertyDescriptor")),
    forIn "key" (v "obj") (block [
      «if» (op .and (op .strictNe (v "key") (str "default")) (hasOwn (v "obj") (v "key")))
        (block [
          var "desc" (cond (v "hasPropertyDescriptor")
            (((v "Object").dot "getOwnPropertyDescriptor").apply [v "obj", v "key"])
            (.null .none)),
          «if» (op .and (v "desc") (op .or ((v "desc").dot "get") ((v "desc").dot "set")))
            (block [stmt (defineProperty (v "newObj") (v "key") (v "desc"))])
            (some (block [stmt (assign (index (v "newObj") (v "key"))
              (index (v "obj") (v "key")))]))])]),
    stmt (assign ((v "newObj").dot "default") (v "obj")),
    «if» (v "cache") (block [stmt (((v "cache").dot "set").apply [v "obj", v "newObj"])]),
    «return» (v "newObj")]

/-- Defines getters for several exports. -/
def exportHelper : Node :=
  define "_export" ["target", "all"] [
    forIn "name" (v "all") (stmt (defineProperty (v "target") (v "name") (object [
      ("enumerable", bool true), ("get", index (v "all") (v "name"))])))]

end ModuleWorkers.Script
