import ModuleWorkers.Text.CharClass
import ModuleWorkers.Text.Cursor
import ModuleWorkers.Text.Units
import ModuleWorkers.Script.Syntax
/-!
# Printed text

What a printer has written so far: the text, where its end is, and the marks that tie places of the
text to places of the source. A mark made at the start of a line waits for the first text on it, so
that it stands after the indentation.
-/

namespace ModuleWorkers.Script

open ModuleWorkers.Text

/-- A place of the source, by its byte position, and the line and column where it was printed. -/
structure Mark where
  source : Nat
  line : Nat
  column : Nat
  deriving DecidableEq, Inhabited, Repr

structure Output where
  text : String := ""
  line : Nat := 0
  column : Nat := 0
  indent : Nat := 0
  atLineStart : Bool := true
  pending : Option Nat := none
  /-- The marks, last one first. -/
  marks : List Mark := []
  deriving Inhabited

/-- A step that prints something. -/
abbrev Print := StateM Output Unit

namespace Print

/-- Ties the end of the text to a position of the source, unless it is already. -/
def markHere (position : Nat) : Print :=
  modify fun o =>
    let m : Mark := ⟨position, o.line, o.column⟩
    let here := o.marks.takeWhile fun m' => m'.line == o.line && m'.column == o.column
    if here.contains m then o else { o with marks := m :: o.marks }

/-- Ties the place of the next text to a position of the source. -/
def mark (position : Nat) : Print := do
  if (← get).atLineStart then modify fun o => { o with pending := some position }
  else markHere position

/-- Ties the place of the next text to the start of a node. -/
def markStart (s : Span) : Print := do if !s.isNone then mark s.start

/-- Ties the place of the next text to the end of a node. -/
def markStop (s : Span) : Print := do if !s.isNone then mark s.stop

/-- Ties the place of the next text to the last byte of a node. -/
def markLast (s : Span) : Print := do if !s.isNone then mark (s.stop - 1)

/-- Appends text that has no line break. -/
def raw (text : String) : Print :=
  modify fun o => { o with text := o.text ++ text, column := o.column + unitLength text.toList }

/-- Starts the line with its indentation, if nothing stands on it yet. -/
def startLine : Print := do
  let o ← get
  if o.atLineStart then
    raw (String.ofList (List.replicate (4 * o.indent) ' '))
    modify fun o => { o with atLineStart := false, pending := none }
    match o.pending with
    | some position => markHere position
    | none => pure ()

/-- Prints text that has no line break. -/
def write (text : String) : Print := do
  if text.isEmpty then return
  startLine
  raw text

/-- Prints a token of the source, with marks at both of its ends. -/
def token (s : Span) (text : String) : Print := do
  startLine
  if !s.isNone then markHere s.start
  raw text
  if !s.isNone then markHere s.stop

/-- The lines of a text, without their ends. -/
def linesOf (text : List Char) : List (List Char) :=
  go text [] []
where
  go : List Char → List Char → List (List Char) → List (List Char)
    | [], line, lines => (line.reverse :: lines).reverse
    | '\r' :: '\n' :: rest, line, lines => go rest [] (line.reverse :: lines)
    | c :: rest, line, lines =>
      if isLineTerminator c then go rest [] (line.reverse :: lines) else go rest (c :: line) lines

/-- Prints a literal as it was written. After a line break in it columns count bytes. -/
def literal (text : String) : Print := do
  write text
  match (linesOf text.toList).reverse with
  | last :: rest@(_ :: _) =>
    modify fun o => { o with line := o.line + rest.length, column := byteLength last }
  | _ => return

/-- Ends the line, unless nothing stands on it. -/
def newline : Print := do
  let o ← get
  if !o.atLineStart then
    set { o with
      text := o.text.push '\n', line := o.line + 1, column := 0, atLineStart := true
      pending := none }
    match o.pending with
    | some position => markHere position
    | none => pure ()
  else modify fun o => { o with pending := none }

/-- Prints something one level deeper. -/
def indented (p : Print) : Print := do
  modify fun o => { o with indent := o.indent + 1 }
  p
  modify fun o => { o with indent := o.indent - 1 }

end Print

end ModuleWorkers.Script
