import ModuleWorkers.Proofs.Encoding.DataUrl
import ModuleWorkers.SourceMap.Json

/-!
# Bytes of a map

The text of mappings is put together from bytes, which need not be those of a text. They are: digits
and separators are characters of one byte each (`Mappings.isAscii_encode`). So a map that is written
by way of these bytes is written whatever it holds, and as it is written character by character
(`SourceMap.write_eq`).
-/

namespace ModuleWorkers

/-! ## Bytes of mappings -/

/-- A text of characters of one byte each. -/
def IsAscii (cs : List Char) : Prop := ∀ c ∈ cs, c.toNat < 128

theorem IsAscii.append {cs ds : List Char} (h : IsAscii cs) (h' : IsAscii ds) :
    IsAscii (cs ++ ds) :=
  fun c hc => (List.mem_append.1 hc).elim (h c) (h' c)

theorem IsAscii.cons {c : Char} {cs : List Char} (h : c.toNat < 128) (h' : IsAscii cs) :
    IsAscii (c :: cs) :=
  List.forall_mem_cons.2 ⟨h, h'⟩

theorem IsAscii.toList_toUTF8 {cs : List Char} (h : IsAscii cs) :
    (String.ofList cs).toUTF8.toList = cs.map fun c => UInt8.ofNat c.toNat := by
  have hbytes : (String.ofList cs).toUTF8 = (cs.flatMap String.utf8EncodeChar).toByteArray := rfl
  rw [toList_byteArray, hbytes, List.data_toByteArray, List.toList_toArray]
  induction cs with
  | nil => rfl
  | cons c cs ih =>
    obtain ⟨hc, hcs⟩ := List.forall_mem_cons.1 h
    have hsize : c.utf8Size = 1 := by
      rw [Char.utf8Size_eq_one_iff, UInt32.le_iff_toNat_le]
      exact Nat.le_of_lt_succ hc
    rw [List.flatMap_cons, String.utf8EncodeChar_eq_singleton hsize, ih hcs rfl, List.map_cons]
    rfl

theorem IsAscii.fromUTF8? {cs : List Char} (h : IsAscii cs) :
    String.fromUTF8? ⟨(cs.map fun c => UInt8.ofNat c.toNat).toArray⟩ = some (.ofList cs) := by
  rw [← h.toList_toUTF8]
  exact fromUTF8?_toUTF8 (.ofList cs)

theorem Base64.toNat_digit_lt {n : Nat} (h : n < 64) : (digit n).toNat < 128 := by
  have hall : ∀ k : Fin 64, (digit k).toNat < 128 := by decide
  exact hall ⟨n, h⟩

theorem Vlq.isAscii_digits (n : Nat) : IsAscii (digits n) := by
  fun_induction digits n with
  | case1 n h => exact .cons (Base64.toNat_digit_lt (by omega)) (by simp [IsAscii])
  | case2 n h ih => exact .cons (Base64.toNat_digit_lt (by omega)) ih

namespace Mappings

theorem isAscii_encodeLocation (p : Previous) (o : Location) : IsAscii (encodeLocation p o).1 := by
  have hplace : IsAscii (relative p.source o.source ++ relative p.line o.line ++
      relative p.column o.column) :=
    ((Vlq.isAscii_digits _).append (Vlq.isAscii_digits _)).append (Vlq.isAscii_digits _)
  unfold encodeLocation
  dsimp only
  split
  · exact hplace
  · exact hplace.append (Vlq.isAscii_digits _)

theorem isAscii_encodeSegment (column : Nat) (p : Previous) (s : Segment) :
    IsAscii (encodeSegment column p s).1 := by
  unfold encodeSegment
  split
  · exact Vlq.isAscii_digits _
  · exact (Vlq.isAscii_digits _).append (isAscii_encodeLocation p _)

theorem isAscii_encodeRest (column : Nat) (p : Previous) (ss : List Segment) :
    IsAscii (encodeRest column p ss).1 := by
  induction ss generalizing column p with
  | nil => simp [IsAscii, encodeRest]
  | cons s ss ih => exact .cons (by decide) ((isAscii_encodeSegment column p s).append (ih _ _))

theorem isAscii_encodeLine (p : Previous) (ss : List Segment) : IsAscii (encodeLine p ss).1 := by
  cases ss with
  | nil => simp [IsAscii, encodeLine]
  | cons s ss => exact (isAscii_encodeSegment 0 p s).append (isAscii_encodeRest _ _ ss)

theorem isAscii_encodeLines (p : Previous) (ls : List Line) : IsAscii (encodeLines p ls) := by
  induction ls generalizing p with
  | nil => simp [IsAscii, encodeLines]
  | cons l ls ih => exact .cons (by decide) ((isAscii_encodeLine p _).append (ih _))

theorem isAscii_encode (ls : List Line) : IsAscii (encode ls) := by
  cases ls with
  | nil => simp [IsAscii, encode]
  | cons l ls => exact (isAscii_encodeLine {} _).append (isAscii_encodeLines _ ls)

/-- The bytes that are written for lines. -/
def bytes (ls : List Line) : List UInt8 := (encode ls).map fun c => UInt8.ofNat c.toNat

end Mappings

/-! ## Writing a map -/

namespace SourceMap

/-- The file of a map with a text of its mappings. -/
def jsonWith (m : SourceMap) (mappings : String) : String :=
  let file := match m.file with
    | some f => "\"file\":" ++ Json.Quoted.quote f ++ ","
    | none => ""
  "\x7b\"version\":3," ++ file ++ "\"mappings\":" ++ Json.Quoted.quote mappings ++
    ",\"sources\":" ++ quotedList (m.sources.map (·.path)) ++
    ",\"sourcesContent\":" ++ quotedList (m.sources.map (·.content)) ++
    ",\"names\":" ++ quotedList m.names ++ "\x7d"

/-- Writes a map, if the bytes of its mappings are a text. -/
def write (m : SourceMap) : Except SourceMapError String :=
  match String.fromUTF8? ⟨(Mappings.bytes m.lines.toList).toArray⟩ with
  | none => .error .invalidDigit
  | some mappings => .ok (m.jsonWith mappings)

/-- Every map is written. -/
theorem write_eq (m : SourceMap) : m.write = .ok m.toJson := by
  have hmappings : String.fromUTF8? ⟨(Mappings.bytes m.lines.toList).toArray⟩ =
      some m.mappingsText :=
    (Mappings.isAscii_encode m.lines.toList).fromUTF8?
  unfold write
  rw [hmappings]
  rfl

end SourceMap

end ModuleWorkers
