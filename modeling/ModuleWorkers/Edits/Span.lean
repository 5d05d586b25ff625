import ModuleWorkers.Edits.Basic
/-!
# Where edits are

The byte offsets of each edit in the base text and in the edited text, and what becomes of offsets
of the base text.
-/

namespace ModuleWorkers

open ModuleWorkers.Text

/-- A stretch of the base text and the stretch that took its place, by byte offsets. -/
structure EditSpan where
  oldStart : Nat
  oldStop : Nat
  newStart : Nat
  newStop : Nat
  deriving DecidableEq, Inhabited, Repr

namespace EditSpan

/-- The spans of the edits among pieces, given the offsets of the first piece. -/
def ofPieces (old new : Nat) : List Piece → List EditSpan
  | [] => []
  | .kept text :: ps => ofPieces (old + byteLength text) (new + byteLength text) ps
  | .edited before after :: ps =>
    let (oldStop, newStop) := (old + byteLength before, new + byteLength after)
    ⟨old, oldStop, new, newStop⟩ :: ofPieces oldStop newStop ps

/-- The offset in the edited text of an offset of the base text, given how far the text in front was
moved. Offsets in a replaced stretch go to the start of what took its place. -/
def moved (delta : Int) (offset : Nat) : List EditSpan → Nat
  | [] => (offset + delta).toNat
  | s :: ss =>
    if offset < s.oldStart then (offset + delta).toNat
    else if offset < s.oldStop then s.newStart
    else moved ((s.newStop : Int) - s.oldStop) offset ss

end EditSpan

namespace EditBuffer

/-- The spans of the edits, in order. -/
def spans (b : EditBuffer) : List EditSpan := EditSpan.ofPieces 0 0 b.pieces

/-- The offset in the edited text of an offset of the base text. -/
def newOffset (b : EditBuffer) (offset : Nat) : Nat := EditSpan.moved 0 offset b.spans

end EditBuffer

end ModuleWorkers
