import ModuleWorkers.Script.Parser.Basic
import ModuleWorkers.Script.Traversal
/-!
# Expressions that turn out to be patterns

The left side of an assignment and the parameters of an arrow function are read as expressions
first, because only what follows tells that they are patterns. `Read.toPattern` turns such an
expression into the pattern it spells, recording what cannot be one.
-/

namespace ModuleWorkers.Script

/-- Whether an expression other than an array or object literal may be assigned to. -/
def Node.isSimpleTarget (isStrict : Bool) : Node → Bool
  | .ident i | .binding i => !(isStrict && (i.name == "eval" || i.name == "arguments"))
  | .paren _ e => e.isSimpleTarget isStrict
  | .member _ o _ =>
    match o with
    | .member .. => o.isSimpleTarget isStrict
    | .optionalMember .. | .optionalCall .. => false
    | _ => true
  | _ => false

/-- Whether a node is an optional chain, which goes on over members and calls. -/
def Node.isOptionalChain : Node → Bool
  | .optionalMember .. | .optionalCall .. => true
  | _ => false

namespace Node

def isHole : Node → Bool
  | .hole => true
  | _ => false

def isArrow : Node → Bool
  | .arrow .. => true
  | _ => false

/-- Whether the node is a literal with properties or elements, which may be reread as a pattern. -/
def isLiteralPattern : Node → Bool
  | .object .. | .array .. => true
  | _ => false

end Node

/-- What a pattern is for: declaring names, as parameters do, or assigning to any target. -/
inductive PatternUse
  | declare
  | assign
  deriving DecidableEq, Inhabited

namespace Read

/-- Records that an expression cannot be assigned to, if so. -/
def checkTarget (e : Node) : Read Unit := do
  if !(e.isSimpleTarget (← read).isStrict) then recordAt .invalidAssignmentTarget e.span.start

/-- Records a comma after a rest element that ends a literal, if there is one. -/
def checkTrailingComma (literalStart : Nat) : Read Unit := do
  match (← get).trailingCommas.lookup literalStart with
  | some comma => recordAt .commaAfterRest comma.start
  | none => return

/-- Whether an expression may be a target inside a destructuring assignment, apart from being a
valid one. -/
def isTargetLike : Node → Bool
  | .member .. | .call .. | .importCall .. | .new .. | .null _ | .bool .. | .num .. | .bigint ..
  | .str _ | .regex .. | .ident _ | .function .. | .class .. | .paren .. | .template .. => true
  | _ => false

mutual

/-- Rereads an expression inside a literal, or a parameter, as a pattern. -/
def elementPattern (use : PatternUse) : Node → Read Node
  | .array s es => do return .arrayPattern s (← elementPatterns use s.start es)
  | .object s ps => do return .objectPattern s (← propertyPatterns use s.start ps)
  | .assign s .plain l r => return .defaultPattern s l r
  | .ident i => do
    if use == .assign then checkTarget (.ident i)
    return .binding i
  | e => do
    if use == .assign && isTargetLike e then
      checkTarget e
      return e
    else
      recordAt .invalidPattern e.span.start
      return e

/-- Rereads the elements of an array literal. Holes at the end are dropped; a rest element is
possible only at the very end. -/
def elementPatterns (use : PatternUse) (literalStart : Nat) : List Node → Read (List Node)
  | [] => return []
  | .spread d e :: rest => do
    if rest.isEmpty then
      if e matches .assign .. then recordAt .restWithInitializer e.span.start
      checkTrailingComma literalStart
      return [.restPattern e.span d (← elementPattern use e)]
    else
      recordAt .restNotLast e.span.start
      elementPatterns use literalStart rest
  | .hole :: rest => do
    if rest.all Node.isHole then return []
    return .hole :: (← elementPatterns use literalStart rest)
  | e :: rest => do
    let p ← elementPattern use e
    return p :: (← elementPatterns use literalStart rest)

/-- Rereads the properties of an object literal. -/
def propertyPatterns (use : PatternUse) (literalStart : Nat) : List Node → Read (List Node)
  | [] => return []
  | .shorthand i :: rest =>
    return .shorthandPattern i.span i none :: (← propertyPatterns use literalStart rest)
  | .defaulted s i v :: rest =>
    return .shorthandPattern s i (some v) :: (← propertyPatterns use literalStart rest)
  | .keyValue k v :: rest => do
    let p ← elementPattern use v
    return .keyValuePattern k p :: (← propertyPatterns use literalStart rest)
  | .spreadProperty d e :: rest => do
    let span := d.through e.span
    if rest.isEmpty then checkTrailingComma literalStart else recordAt .restNotLast span.start
    let arg ← match use, e with
      | .declare, .ident i => pure (.binding i)
      | .declare, e => do
        recordAt .restNotIdentifier span.start
        pure e
      | .assign, e => elementPattern use e
    if arg matches .defaultPattern .. then recordAt .restWithInitializer span.start
    return .restPattern span d arg :: (← propertyPatterns use literalStart rest)
  | p :: _ => failAt .invalidPattern p.span.start

end

/-- Rereads the left side of an assignment. -/
def assignmentTarget (e : Node) : Read Node := do
  match e with
  | .array .. | .object .. => elementPattern .assign e
  | .ident i => do
    checkTarget e
    return .binding i
  | _ => do
    checkTarget e
    return e

/-- Rereads what stands in parentheses before an arrow as parameters. -/
def arrowParameters (trailingComma : Option Span) : List Node → Read (List Node)
  | [] => return []
  | .spread d e :: rest => do
    if rest.isEmpty then
      if e matches .assign .. then recordAt .restWithInitializer e.span.start
      match trailingComma with
      | some comma => recordAt .commaAfterRest comma.start
      | none => pure ()
      return [.restPattern e.span d (← elementPattern .declare e)]
    else
      recordAt .restNotLast d.start
      arrowParameters trailingComma rest
  | e :: rest => do
    let p ← elementPattern .declare e
    return p :: (← arrowParameters trailingComma rest)

/-- Records properties with initializers that did not turn out to be parts of a pattern, outside
the functions below an expression. -/
def checkProperties (e : Node) : Read Unit := do
  discard <| e.visit (m := Read) (fun _ n children => do
    match n with
    | .function .. | .arrow .. => return n
    | .defaulted s .. =>
      recordAt .defaultedProperty s.start
      children
    | _ => children) .plain

end Read

end ModuleWorkers.Script
