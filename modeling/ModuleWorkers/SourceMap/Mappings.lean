import ModuleWorkers.SourceMap.Line
import ModuleWorkers.SourceMap.Vlq
/-!
# The text of mappings

All segments of a map as one text: lines end in `;`, segments of a line are parted by `,`, and a
segment is one, four or five numbers, each relative to the last one of its kind. Columns start anew
on each line.
-/

namespace ModuleWorkers

/-- A segment and its line. -/
structure Mapping where
  line : Nat
  column : Nat
  location : Option Location
  deriving DecidableEq, Inhabited, Repr

namespace Mappings

/-- The largest number that may stand in a segment. -/
def maxNumber : Nat := 1 <<< 32 - 1

/-- The last numbers of each kind. -/
structure Previous where
  source : Nat := 0
  line : Nat := 0
  column : Nat := 0
  name : Nat := 0
  deriving DecidableEq, Inhabited, Repr

/-! ## Writing -/

/-- A number, relative to the one before it. -/
def relative (previous n : Nat) : List Char := Vlq.encode ((n : Int) - (previous : Int))

/-- A location and the numbers that the next one is relative to. -/
def encodeLocation (p : Previous) (o : Location) : List Char × Previous :=
  let place := relative p.source o.source ++ relative p.line o.line ++ relative p.column o.column
  match o.name with
  | none => (place, { p with source := o.source, line := o.line, column := o.column })
  | some name => (place ++ relative p.name name, ⟨o.source, o.line, o.column, name⟩)

/-- A segment, given the column of the one before it on the line. -/
def encodeSegment (column : Nat) (p : Previous) (s : Segment) : List Char × Previous :=
  match s.location with
  | none => (relative column s.column, p)
  | some o =>
    let (text, p) := encodeLocation p o
    (relative column s.column ++ text, p)

/-- The segments of a line after the first. -/
def encodeRest (column : Nat) (p : Previous) : List Segment → List Char × Previous
  | [] => ([], p)
  | s :: ss =>
    let (text, p) := encodeSegment column p s
    let (rest, p) := encodeRest s.column p ss
    (',' :: text ++ rest, p)

def encodeLine (p : Previous) : List Segment → List Char × Previous
  | [] => ([], p)
  | s :: ss =>
    let (text, p) := encodeSegment 0 p s
    let (rest, p) := encodeRest s.column p ss
    (text ++ rest, p)

/-- The lines after the first. -/
def encodeLines (p : Previous) : List Line → List Char
  | [] => []
  | l :: ls =>
    let (text, p) := encodeLine p l.segments.toList
    ';' :: text ++ encodeLines p ls

/-- The text of lines. -/
def encode : List Line → List Char
  | [] => []
  | l :: ls =>
    let (text, p) := encodeLine {} l.segments.toList
    text ++ encodeLines p ls

/-! ## Reading -/

/-- Whether a segment ends here. -/
def atEnd : List Char → Bool
  | [] => true
  | c :: _ => c == ',' || c == ';'

/-- Reads a number that is relative to another one. -/
def readRelative (previous : Nat) (cs : List Char) : Except SourceMapError (Nat × List Char) :=
  match Vlq.decode cs with
  | .error e => .error e
  | .ok (n, rest) =>
    let sum := (previous : Int) + n
    if (maxNumber : Int) < sum then .error .bigNumber
    else if sum < 0 then .error .negativeNumber
    else .ok (sum.toNat, rest)

/-- Reads a location, and gives the numbers that the next one is relative to. -/
def readLocation (p : Previous) (cs : List Char) :
    Except SourceMapError (Location × Previous × List Char) := do
  let (source, cs) ← readRelative p.source cs
  let (line, cs) ← readRelative p.line cs
  let (column, cs) ← readRelative p.column cs
  if atEnd cs then
    .ok (⟨source, line, column, none⟩, ⟨source, line, column, p.name⟩, cs)
  else
    let (name, cs) ← readRelative p.name cs
    .ok (⟨source, line, column, some name⟩, ⟨source, line, column, name⟩, cs)

/-- Reads a segment. -/
def readSegment (column : Nat) (p : Previous) (cs : List Char) :
    Except SourceMapError (Segment × Previous × List Char) := do
  let (column, cs) ← readRelative column cs
  if atEnd cs then .ok (⟨column, none⟩, p, cs)
  else
    let (location, p, cs) ← readLocation p cs
    .ok (⟨column, some location⟩, p, cs)

theorem length_readRelative {previous : Nat} {cs : List Char} {r : Nat × List Char}
    (h : readRelative previous cs = .ok r) : r.2.length < cs.length := by
  unfold readRelative at h
  split at h
  · simp at h
  · rename_i hr
    have := Vlq.length_decode hr
    grind

theorem length_readLocation {p : Previous} {cs : List Char} {r : Location × Previous × List Char}
    (h : readLocation p cs = .ok r) : r.2.2.length < cs.length := by
  simp only [readLocation, bind, Except.bind] at h
  repeat' split at h
  all_goals grind [→ length_readRelative]

theorem length_readSegment {column : Nat} {p : Previous} {cs : List Char}
    {r : Segment × Previous × List Char} (h : readSegment column p cs = .ok r) :
    r.2.2.length < cs.length := by
  simp only [readSegment, bind, Except.bind] at h
  repeat' split at h
  all_goals grind [→ length_readRelative, → length_readLocation]

/-- Reads segments from a place in the text on. -/
def decodeFrom (line column : Nat) (p : Previous) : List Char → Except SourceMapError (List Mapping)
  | [] => .ok []
  | c :: cs =>
    if c = ';' then decodeFrom (line + 1) 0 p cs
    else if c = ',' then decodeFrom line column p cs
    else
      match h : readSegment column p (c :: cs) with
      | .error e => .error e
      | .ok (s, q, rest) =>
        have : rest.length < cs.length + 1 := length_readSegment h
        (decodeFrom line s.column q rest).map (⟨line, s.column, s.location⟩ :: ·)
termination_by cs => cs.length

/-- Reads the text of mappings. -/
def decode (cs : List Char) : Except SourceMapError (List Mapping) := decodeFrom 0 0 {} cs

end Mappings

end ModuleWorkers
