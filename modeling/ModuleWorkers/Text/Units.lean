/-!
# UTF-16 code units

Columns of source maps and of printed text count UTF-16 code units: one for a character of the
basic plane, two for any other.
-/

namespace ModuleWorkers.Text

/-- How many UTF-16 code units a character takes. -/
def units16 (c : Char) : Nat := if c.toNat < 0x10000 then 1 else 2

/-- How many UTF-16 code units a text takes. -/
def unitLength (cs : List Char) : Nat := cs.foldl (fun n c => n + units16 c) 0

end ModuleWorkers.Text
