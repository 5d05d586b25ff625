/-!
# Finding text in text
-/

namespace ModuleWorkers.Text

/-- Splits a text at the first place where another one stands, which is left out. -/
def cut? (part : List Char) : List Char → Option (List Char × List Char)
  | [] => if part = [] then some ([], []) else none
  | c :: cs =>
    if part.isPrefixOf (c :: cs) then some ([], (c :: cs).drop part.length)
    else (cut? part cs).map fun (before, after) => (c :: before, after)

/-- Whether a text stands in another one. -/
def contains (text part : String) : Bool := (cut? part.toList text.toList).isSome

end ModuleWorkers.Text
