import ModuleWorkers.Proofs.SourceMap.Bytes
import ModuleWorkers.Proofs.SourceMap.Mappings

/-!
# Mappings are written and read without loss

Two things can stop the writing of mappings: a difference of two numbers that is too large for 64
bits with its sign, and bytes that are no text. `Mappings.write` stops there. Numbers of 32 bits
never make it stop: their differences are small, and the last numbers of each kind stay numbers of
32 bits over lines and segments of all kinds (`Mappings.writeText_eq`). What is written reads back,
and what is read of any text are numbers of 32 bits (`Mappings.write_and_decode_encode`).
-/

namespace ModuleWorkers.Mappings

/-! ## Writing number by number -/

/-- Writes a number relative to the one before it, unless the difference is too large. -/
def writeRelative (previous n : Nat) : Except SourceMapError (List Char) :=
  let difference := (n : Int) - (previous : Int)
  if difference.natAbs < 1 <<< 63 then .ok (Vlq.encode difference) else .error .overflow

def writeLocation (p : Previous) (o : Location) : Except SourceMapError (List Char × Previous) := do
  let source ← writeRelative p.source o.source
  let line ← writeRelative p.line o.line
  let column ← writeRelative p.column o.column
  let place := source ++ line ++ column
  match o.name with
  | none => return (place, { p with source := o.source, line := o.line, column := o.column })
  | some k => do
    let name ← writeRelative p.name k
    return (place ++ name, ⟨o.source, o.line, o.column, k⟩)

def writeSegment (column : Nat) (p : Previous) (s : Segment) :
    Except SourceMapError (List Char × Previous) := do
  let start ← writeRelative column s.column
  match s.location with
  | none => return (start, p)
  | some o => do
    let (text, p) ← writeLocation p o
    return (start ++ text, p)

/-- Writes the segments of a line after the first. -/
def writeRest (column : Nat) (p : Previous) :
    List Segment → Except SourceMapError (List Char × Previous)
  | [] => return ([], p)
  | s :: ss => do
    let (text, p) ← writeSegment column p s
    let (rest, p) ← writeRest s.column p ss
    return (',' :: text ++ rest, p)

def writeLine (p : Previous) : List Segment → Except SourceMapError (List Char × Previous)
  | [] => return ([], p)
  | s :: ss => do
    let (text, p) ← writeSegment 0 p s
    let (rest, p) ← writeRest s.column p ss
    return (text ++ rest, p)

/-- Writes the lines after the first. -/
def writeLines (p : Previous) : List Line → Except SourceMapError (List Char)
  | [] => return []
  | l :: ls => do
    let (text, p) ← writeLine p l.segments.toList
    let rest ← writeLines p ls
    return ';' :: text ++ rest

def writeText : List Line → Except SourceMapError (List Char)
  | [] => return []
  | l :: ls => do
    let (text, p) ← writeLine {} l.segments.toList
    let rest ← writeLines p ls
    return text ++ rest

/-- Writes lines, unless a difference is too large or the bytes that were put together are no text. -/
def write (ls : List Line) : Except SourceMapError String := do
  let text ← writeText ls
  match String.fromUTF8? ⟨(text.map fun c => UInt8.ofNat c.toNat).toArray⟩ with
  | none => throw .invalidDigit
  | some written => return written

/-! ## Numbers of 32 bits are written -/

theorem writeRelative_eq {previous n : Nat} (hprevious : previous ≤ maxNumber)
    (hn : n ≤ maxNumber) : writeRelative previous n = .ok (relative previous n) := by
  have hmax : maxNumber = 4294967295 := rfl
  have hsmall : ((n : Int) - (previous : Int)).natAbs < 1 <<< 63 := by
    have : (1 <<< 63 : Nat) = 9223372036854775808 := rfl
    omega
  exact if_pos hsmall

theorem writeLocation_eq {p : Previous} (hp : p.IsBounded) {o : Location} (ho : o.IsBounded) :
    writeLocation p o = .ok (encodeLocation p o) := by
  unfold writeLocation encodeLocation
  rw [writeRelative_eq hp.source ho.source, writeRelative_eq hp.line ho.line,
    writeRelative_eq hp.column ho.column]
  cases hname : o.name with
  | none => rfl
  | some k =>
    simp only [writeRelative_eq hp.name (ho.name k hname)]
    rfl

theorem writeSegment_eq {column : Nat} (hcolumn : column ≤ maxNumber) {p : Previous}
    (hp : p.IsBounded) {s : Segment} (hs : s.IsBounded) :
    writeSegment column p s = .ok (encodeSegment column p s) := by
  unfold writeSegment encodeSegment
  rw [writeRelative_eq hcolumn hs.column]
  cases hlocation : s.location with
  | none => rfl
  | some o =>
    simp only [writeLocation_eq hp (hs.location o hlocation)]
    rfl

theorem writeRest_eq {column : Nat} (hcolumn : column ≤ maxNumber) {p : Previous} (hp : p.IsBounded)
    {ss : List Segment} (hss : ∀ s ∈ ss, s.IsBounded) :
    writeRest column p ss = .ok (encodeRest column p ss) := by
  induction ss generalizing column p with
  | nil => rfl
  | cons s ss ih =>
    obtain ⟨hs, hss⟩ := List.forall_mem_cons.1 hss
    rw [writeRest, writeSegment_eq hcolumn hp hs]
    simp only [bind, Except.bind, ih hs.column (bounded_encodeSegment hp hs) hss]
    rfl

theorem writeLine_eq {p : Previous} (hp : p.IsBounded) {ss : List Segment}
    (hss : ∀ s ∈ ss, s.IsBounded) : writeLine p ss = .ok (encodeLine p ss) := by
  cases ss with
  | nil => rfl
  | cons s ss =>
    obtain ⟨hs, hss⟩ := List.forall_mem_cons.1 hss
    rw [writeLine, writeSegment_eq (Nat.zero_le _) hp hs]
    simp only [bind, Except.bind, writeRest_eq hs.column (bounded_encodeSegment hp hs) hss]
    rfl

theorem writeLines_eq {p : Previous} (hp : p.IsBounded) {ls : List Line}
    (hls : ∀ l ∈ ls, ∀ s ∈ l.segments.toList, s.IsBounded) :
    writeLines p ls = .ok (encodeLines p ls) := by
  induction ls generalizing p with
  | nil => rfl
  | cons l ls ih =>
    obtain ⟨hl, hls⟩ := List.forall_mem_cons.1 hls
    rw [writeLines, writeLine_eq hp hl]
    simp only [bind, Except.bind, ih (bounded_encodeLine hp hl) hls]
    rfl

theorem writeText_eq {ls : List Line} (hls : ∀ l ∈ ls, ∀ s ∈ l.segments.toList, s.IsBounded) :
    writeText ls = .ok (encode ls) := by
  have hzero : ({} : Previous).IsBounded :=
    ⟨Nat.zero_le _, Nat.zero_le _, Nat.zero_le _, Nat.zero_le _⟩
  cases ls with
  | nil => rfl
  | cons l ls =>
    obtain ⟨hl, hls⟩ := List.forall_mem_cons.1 hls
    rw [writeText, writeLine_eq hzero hl]
    simp only [bind, Except.bind, writeLines_eq (bounded_encodeLine hzero hl) hls]
    rfl

/-! ## The main result -/

/-- Lines of numbers of 32 bits are written, and the text is read back as all their segments, each
with the number of its line. Whatever is read are numbers of 32 bits. -/
theorem write_and_decode_encode (ls : List Line)
    (hls : ∀ l ∈ ls, ∀ s ∈ l.segments.toList, s.IsBounded) :
    (write ls = .ok (.ofList (encode ls)) ∧ decode (encode ls) = .ok (numberedFrom 0 ls)) ∧
    ∀ cs ms, decode cs = .ok ms → ∀ s ∈ ms, (⟨s.column, s.location⟩ : Segment).IsBounded := by
  refine ⟨⟨?_, decode_encode hls⟩, fun cs ms h => bounded_of_decodeFrom h⟩
  rw [write, writeText_eq hls]
  simp only [bind, Except.bind, (isAscii_encode ls).fromUTF8?]
  rfl

/-- Lines between the smallest and the largest numbers, one of them empty, with segments that are
not mapped, that have a name and that have none. -/
def extremeLines : List Line :=
  [⟨#[⟨0, some ⟨4294967295, 0, 4294967295, some 4294967295⟩⟩, ⟨4294967295, none⟩]⟩, ⟨#[]⟩,
    ⟨#[⟨4294967295, some ⟨0, 4294967295, 0, none⟩⟩, ⟨0, some ⟨1, 0, 7, some 0⟩⟩]⟩]

theorem write_and_decode_encode_extremeLines :
    (∀ l ∈ extremeLines, ∀ s ∈ l.segments.toList, s.IsBounded) ∧
    write extremeLines = .ok (.ofList (encode extremeLines)) ∧
    ∃ ms, decode (encode extremeLines) = .ok ms ∧
      ms = [⟨0, 0, some ⟨4294967295, 0, 4294967295, some 4294967295⟩⟩, ⟨0, 4294967295, none⟩,
        ⟨2, 4294967295, some ⟨0, 4294967295, 0, none⟩⟩, ⟨2, 0, some ⟨1, 0, 7, some 0⟩⟩] ∧
      ∀ s ∈ ms, (⟨s.column, s.location⟩ : Segment).IsBounded := by
  have hbounded : ∀ l ∈ extremeLines, ∀ s ∈ l.segments.toList, s.IsBounded := by decide
  obtain ⟨⟨hwrite, hdecode⟩, hread⟩ := write_and_decode_encode extremeLines hbounded
  exact ⟨hbounded, hwrite, _, hdecode, rfl, hread _ _ hdecode⟩

end ModuleWorkers.Mappings
