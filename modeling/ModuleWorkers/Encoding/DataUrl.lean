import ModuleWorkers.Encoding.Base64
import ModuleWorkers.Json.Quoted
/-!
# Addresses that hold data

A `data:` address has a media type, a comma and a body, which is percent encoded and may also be
base 64. Tabs and line ends in an address do not matter, and what follows `#` is not part of the
data.
-/

namespace ModuleWorkers

/-- An address that holds data, taken apart but not decoded. -/
structure DataUrl where
  /-- The media type, such as `text/plain`, in lower case and without parameters. -/
  mediaType : String
  isBase64 : Bool
  body : List Char
  deriving Inhabited, Repr

namespace DataUrl

/-- Whether a character is left out of an address. -/
def isDropped (c : Char) : Bool := c == '\t' || c == '\n' || c == '\r'

def isControlOrSpace (c : Char) : Bool := c.toNat ≤ 32

/-- A text without the characters at its ends that a test holds for. -/
def trim (p : Char → Bool) (cs : List Char) : List Char :=
  ((cs.dropWhile p).reverse.dropWhile p).reverse

/-- What follows the scheme of a `data:` address. -/
def afterScheme? (cs : List Char) : Option (List Char) :=
  go ['d', 'a', 't', 'a', ':'] (cs.dropWhile isControlOrSpace)
where
  go : List Char → List Char → Option (List Char)
    | [], cs => some (cs.reverse.dropWhile isControlOrSpace).reverse
    | _ :: _, [] => none
    | s :: ss, c :: cs =>
      if isDropped c then go (s :: ss) cs else if c.toLower == s then go ss cs else none

/-- Takes the mark of base 64 off a reversed header. -/
def withoutMark? (header : List Char) : Option (List Char) :=
  go ['4', '6', 'e', 's', 'a', 'b'] header
where
  go : List Char → List Char → Option (List Char)
    | [], cs =>
      match cs.dropWhile fun c => isDropped c || c == ' ' with
      | ';' :: rest => some rest
      | _ => none
    | _ :: _, [] => none
    | s :: ss, c :: cs =>
      if isDropped c then go (s :: ss) cs else if c.toLower == s then go ss cs else none

/-- Whether a character can be part of the name of a media type. -/
def isTokenChar (c : Char) : Bool :=
  c.isAlphanum || "!#$%&'*+-.^_`|~".toList.contains c

/-- A media type without its parameters, if it is well formed. -/
def mediaType? (cs : List Char) : Option String :=
  let blank (c : Char) : Bool := c == ' ' || isDropped c
  let whole := trim blank cs
  let top := whole.takeWhile (· != '/')
  match whole.dropWhile (· != '/') with
  | [] => none
  | _ :: rest =>
    let sub := trim blank ('x' :: rest.takeWhile (· != ';')) |>.drop 1
    if top.isEmpty || sub.isEmpty || !top.all isTokenChar || !sub.all isTokenChar then none
    else some (.ofList (top.map Char.toLower ++ '/' :: sub.map Char.toLower))

/-- Takes an address apart. -/
def parse? (url : String) : Option DataUrl := do
  let cs ← afterScheme? url.toList
  let header := cs.takeWhile fun c => c != ',' && c != '#'
  match cs.dropWhile fun c => c != ',' && c != '#' with
  | ',' :: body =>
    let header := trim (fun c => c == ' ' || isDropped c) header
    let stripped := withoutMark? header.reverse
    let header := match stripped with
      | some front => front.reverse
      | none => header
    let header := header.filter (!isDropped ·)
    let header := if header.head? == some ';' then "text/plain".toList ++ header else header
    return ⟨(mediaType? header).getD "text/plain", stripped.isSome, body⟩
  | _ => none

/-- The bytes of a percent encoded body up to a `#`. -/
def percentDecode (read : List UInt8) : List Char → List UInt8
  | [] => read.reverse
  | '#' :: _ => read.reverse
  | '%' :: a :: b :: rest =>
    match Json.hexValue? a, Json.hexValue? b with
    | some h, some l => percentDecode (.ofNat (h * 16 + l) :: read) rest
    | _, _ => percentDecode (37 :: read) (a :: b :: rest)
  | c :: rest =>
    if isDropped c then percentDecode read rest
    else percentDecode ((String.singleton c).toUTF8.toList.reverse ++ read) rest
termination_by cs => cs.length

/-- The data of an address. -/
def bytes? (d : DataUrl) : Option (List UInt8) :=
  let plain := percentDecode [] d.body
  if d.isBase64 then Base64.decode? (plain.map fun b => .ofNat b.toNat) else some plain

/-- The data of an address as text. -/
def text? (d : DataUrl) : Option String := do
  String.fromUTF8? ⟨(← d.bytes?).toArray⟩

end DataUrl

end ModuleWorkers
