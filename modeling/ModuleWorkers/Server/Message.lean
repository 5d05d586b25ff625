import ModuleWorkers.Plugin.Client
import ModuleWorkers.Plugin.VirtualFiles
/-!
# Requests and responses

What the server is asked and what it answers, as far as the answer depends on it.
-/

namespace ModuleWorkers

structure Request where
  method : String := "GET"
  /-- The address as the client sends it. -/
  target : String
  headers : Headers := []
  deriving Inhabited, Repr

structure Response where
  status : Nat
  contentType : Option String := none
  cacheControl : Option String := none
  body : FileContent := .text ""
  deriving Inhabited

namespace Request

/-- Reads a request from a line with its method, its target and, if the client has a name, that. -/
def ofLine? (line : String) : Option Request :=
  match line.toList.span (· != ' ') with
  | (method, ' ' :: rest) =>
    let request : Request :=
      { method := .ofList method, target := .ofList (rest.takeWhile (· != ' ')) }
    match rest.dropWhile (· != ' ') with
    | ' ' :: agent => some { request with headers := [("user-agent", .ofList agent)] }
    | _ => some request
  | _ => none

/-- What comes after the name of a protocol, if a target starts with one. -/
def afterProtocol? : List Char → Option (List Char)
  | ':' :: '/' :: '/' :: rest => some rest
  | [] => none
  | _ :: rest => afterProtocol? rest

/-- The path that a target names: the target without a query, and without the host if it names
one. -/
def path (r : Request) : String :=
  let chars := r.target.toList.takeWhile fun c => c != '?' && c != '#'
  if chars.head? == some '/' || chars == ['*'] then .ofList chars
  else
    match afterProtocol? chars with
    | none => ""
    | some rest =>
      match rest.dropWhile (· != '/') with
      | [] => "/"
      | path => .ofList path

/-- Whether a character may stand in a header. -/
def isHeaderChar (c : Char) : Bool := c == '\t' || (' ' ≤ c && c ≤ '~')

/-- The headers that are text. Of several with one name the last one counts. -/
def readableHeaders (r : Request) : Headers :=
  (r.headers.filter fun (_, value) => value.toList.all isHeaderChar).reverse

end Request

/-- Whether a path is that of a script. -/
def isScriptPath (path : String) : Bool := path.endsWith ".js" || path.endsWith ".mjs"

namespace Response

/-- The type of what is served at a path, by its extension. -/
def typeOf (path : String) : String :=
  match path.toList.reverse.span (· != '.') with
  | (_, []) => "application/octet-stream"
  | (extension, _ :: _) =>
    match String.ofList extension.reverse with
    | "js" | "mjs" | "cjs" => "text/javascript; charset=utf-8"
    | "map" | "json" => "application/json; charset=utf-8"
    | _ => "application/octet-stream"

/-- A response with the content at a path. Clients have to ask for it again each time. -/
def ofContent (path : String) (content : FileContent) : Response :=
  { status := 200, contentType := some (typeOf path), cacheControl := some "no-cache"
    body := content }

/-- A response that says why there is no content. -/
def failure (message : String) : Response :=
  { status := 500, contentType := some "text/plain; charset=utf-8", body := .text message }

/-- The response for what is not there, or may not be asked for with a method. -/
def missing (method : String) : Response :=
  { status := if method = "GET" ∨ method = "HEAD" then 404 else 405 }

/-- A response as a method asks for it: some methods ask for no body. -/
def forMethod (r : Response) (method : String) : Response :=
  if method = "HEAD" ∨ (method = "CONNECT" ∧ r.status = 200) then { r with body := .text "" }
  else r

/-- The status and the headers, one a line, and the body after an empty line. -/
def text (r : Response) : String :=
  let header (name : String) : Option String → String
    | some value => s!"{name}: {value}\n"
    | none => ""
  s!"{r.status}\n" ++ header "content-type" r.contentType ++
    header "cache-control" r.cacheControl ++ "\n" ++ r.body.text?.getD ""

end Response

end ModuleWorkers
