import ModuleWorkers.Edits.Basic
import ModuleWorkers.SourceMap.Basic
import ModuleWorkers.Text.Units
/-!
# Source maps of edited texts

Every character of the base text that is still there gets a segment of its own; what took the place
of a stretch gets one that leads to the start of the stretch. Columns count UTF-16 code units, and
lines end at line feeds only.
-/

namespace ModuleWorkers

open ModuleWorkers.Text

/-- A line of a text and a column on it. -/
structure TextPosition where
  line : Nat := 0
  column : Nat := 0
  deriving DecidableEq, Inhabited, Repr

namespace TextPosition

/-- The position behind a character. -/
def past (p : TextPosition) (c : Char) : TextPosition :=
  if c = '\n' then ⟨p.line + 1, 0⟩ else ⟨p.line, p.column + units16 c⟩

/-- The position behind a text. -/
def pastAll (p : TextPosition) (cs : List Char) : TextPosition := cs.foldl past p

end TextPosition

namespace EditBuffer

/-- A segment that leads from a place of the edited text to one of the base text. -/
def link (new old : TextPosition) : Mapping :=
  ⟨new.line, new.column, some ⟨0, old.line, old.column, none⟩⟩

/-- The segments of a text that was kept. -/
def keptMappings (new old : TextPosition) : List Char → List Mapping
  | [] => []
  | c :: cs =>
    let rest := keptMappings (new.past c) (old.past c) cs
    if c = '\n' then rest else link new old :: rest

/-- The segments of pieces, given the positions of the first one. -/
def pieceMappings (new old : TextPosition) : List Piece → List Mapping
  | [] => []
  | .kept text :: ps =>
    keptMappings new old text ++ pieceMappings (new.pastAll text) (old.pastAll text) ps
  | .edited before after :: ps =>
    let rest := pieceMappings (new.pastAll after) (old.pastAll before) ps
    if after.isEmpty then rest else link new old :: rest

/-- The map from the edited text back to the base text, which is the text of a source. -/
def sourceMap (b : EditBuffer) (root : Path) (source : String) (withContent : Bool) : SourceMap :=
  let (_, m) := (SourceMap.empty root).addSource source
  let m := if withContent then m.withContent 0 b.base else m
  (pieceMappings {} {} b.pieces).foldl (fun m s => m.addMapping s.line s.column s.location) m

end EditBuffer

end ModuleWorkers
