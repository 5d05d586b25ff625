import Mathlib.Data.List.Basic
import ModuleWorkers.Proofs.Outcome
import ModuleWorkers.SourceMap.Mappings

/-!
# The text of mappings reads back

Each number stands in the text as what it adds to the last one of its kind, and reads back if both
fit 32 bits (`Mappings.readRelative_relative`). So do segments
(`Mappings.readSegment_encodeSegment`), lines (`Mappings.decodeFrom_encodeLine`) and all lines of a
map (`Mappings.decode_encode`). Whatever text is read, its numbers fit 32 bits
(`Mappings.bounded_of_decodeFrom`).
-/

namespace ModuleWorkers

/-! ## Numbers that fit -/

/-- Whether the numbers of a location fit 32 bits. -/
structure Location.IsBounded (o : Location) : Prop where
  source : o.source ≤ Mappings.maxNumber
  line : o.line ≤ Mappings.maxNumber
  column : o.column ≤ Mappings.maxNumber
  name : ∀ k ∈ o.name, k ≤ Mappings.maxNumber

/-- Whether the numbers of a segment fit 32 bits. -/
structure Segment.IsBounded (s : Segment) : Prop where
  column : s.column ≤ Mappings.maxNumber
  location : ∀ o ∈ s.location, o.IsBounded

instance (o : Location) : Decidable o.IsBounded :=
  decidable_of_iff (o.source ≤ Mappings.maxNumber ∧ o.line ≤ Mappings.maxNumber ∧
    o.column ≤ Mappings.maxNumber ∧ ∀ k ∈ o.name, k ≤ Mappings.maxNumber)
    ⟨fun ⟨source, line, column, name⟩ => ⟨source, line, column, name⟩,
      fun h => ⟨h.source, h.line, h.column, h.name⟩⟩

instance (s : Segment) : Decidable s.IsBounded :=
  decidable_of_iff (s.column ≤ Mappings.maxNumber ∧ ∀ o ∈ s.location, o.IsBounded)
    ⟨fun ⟨column, location⟩ => ⟨column, location⟩, fun h => ⟨h.column, h.location⟩⟩

namespace Mappings

/-- Whether numbers fit 32 bits. -/
structure Previous.IsBounded (p : Previous) : Prop where
  source : p.source ≤ maxNumber
  line : p.line ≤ maxNumber
  column : p.column ≤ maxNumber
  name : p.name ≤ maxNumber

/-! ## Numbers -/

theorem exists_digits_eq (n : Nat) :
    ∃ m cs, m < 64 ∧ Vlq.digits n = Base64.digit m :: cs := by
  unfold Vlq.digits
  split
  · exact ⟨n, [], by omega, rfl⟩
  · exact ⟨32 + n % 32, _, by omega, rfl⟩

/-- A number does not end a segment. -/
theorem atEnd_relative (previous n : Nat) (rest : List Char) :
    atEnd (relative previous n ++ rest) = false := by
  obtain ⟨m, cs, hm, hdigits⟩ := exists_digits_eq (Vlq.signed ((n : Int) - (previous : Int)))
  have hvalue := Base64.value?_digit hm
  unfold relative Vlq.encode
  rw [hdigits, List.cons_append, atEnd, Bool.or_eq_false_iff]
  constructor
  · refine beq_eq_false_iff_ne.2 fun hc => ?_
    rw [hc] at hvalue
    cases hvalue
  · refine beq_eq_false_iff_ne.2 fun hc => ?_
    rw [hc] at hvalue
    cases hvalue

theorem readRelative_relative {previous n : Nat} (hprevious : previous ≤ maxNumber)
    (hn : n ≤ maxNumber) (rest : List Char) :
    readRelative previous (relative previous n ++ rest) = .ok (n, rest) := by
  have hmax : maxNumber = 4294967295 := rfl
  have hdifference : ((n : Int) - (previous : Int)).natAbs < 1 <<< 63 := by
    have : (1 <<< 63 : Nat) = 9223372036854775808 := rfl
    omega
  unfold readRelative relative
  rw [Vlq.decode_encode hdifference]
  simp only
  rw [if_neg (by omega), if_neg (by omega)]
  congr
  omega

/-! ## Numbers that are read -/

theorem le_of_readRelative {previous n : Nat} {cs rest : List Char}
    (h : readRelative previous cs = .ok (n, rest)) : n ≤ maxNumber := by
  unfold readRelative at h
  split at h
  · cases h
  · dsimp only at h
    split at h
    · cases h
    · split at h
      · cases h
      · cases h
        omega

theorem bounded_of_readLocation {p q : Previous} {o : Location} {cs rest : List Char}
    (h : readLocation p cs = .ok (o, q, rest)) : o.IsBounded := by
  obtain ⟨⟨source, cs⟩, hsource, h⟩ := exists_of_bind_eq_ok h
  obtain ⟨⟨line, cs⟩, hline, h⟩ := exists_of_bind_eq_ok h
  obtain ⟨⟨column, cs⟩, hcolumn, h⟩ := exists_of_bind_eq_ok h
  dsimp only at h
  split at h
  · cases h
    exact ⟨le_of_readRelative hsource, le_of_readRelative hline, le_of_readRelative hcolumn, nofun⟩
  · obtain ⟨⟨name, cs⟩, hname, h⟩ := exists_of_bind_eq_ok h
    cases h
    refine ⟨le_of_readRelative hsource, le_of_readRelative hline, le_of_readRelative hcolumn,
      fun k hk => ?_⟩
    cases hk
    exact le_of_readRelative hname

theorem bounded_of_readSegment {column : Nat} {p q : Previous} {s : Segment} {cs rest : List Char}
    (h : readSegment column p cs = .ok (s, q, rest)) : s.IsBounded := by
  obtain ⟨⟨start, cs⟩, hstart, h⟩ := exists_of_bind_eq_ok h
  dsimp only at h
  split at h
  · cases h
    exact ⟨le_of_readRelative hstart, nofun⟩
  · obtain ⟨⟨o, p, cs⟩, ho, h⟩ := exists_of_bind_eq_ok h
    cases h
    refine ⟨le_of_readRelative hstart, fun o' ho' => ?_⟩
    cases ho'
    exact bounded_of_readLocation ho

theorem bounded_of_decodeFrom {line column : Nat} {p : Previous} {cs : List Char}
    {ms : List Mapping} (h : decodeFrom line column p cs = .ok ms) :
    ∀ s ∈ ms, (⟨s.column, s.location⟩ : Segment).IsBounded := by
  fun_induction decodeFrom line column p cs generalizing ms with
  | case1 =>
    cases h
    exact nofun
  | case2 line column p cs ih => exact ih h
  | case3 line column p cs _ ih => exact ih h
  | case4 => cases h
  | case5 line column p c cs _ _ s q rest hread _ ih =>
    cases hrest : decodeFrom line s.column q rest with
    | error e =>
      rw [hrest] at h
      cases h
    | ok ts =>
      rw [hrest] at h
      cases h
      exact List.forall_mem_cons.2 ⟨bounded_of_readSegment hread, ih hrest⟩

/-! ## Segments -/

theorem bounded_encodeLocation {p : Previous} (hp : p.IsBounded) {o : Location} (ho : o.IsBounded) :
    (encodeLocation p o).2.IsBounded := by
  unfold encodeLocation
  cases hname : o.name with
  | none => exact ⟨ho.source, ho.line, ho.column, hp.name⟩
  | some k => exact ⟨ho.source, ho.line, ho.column, ho.name k hname⟩

theorem readLocation_encodeLocation {p : Previous} (hp : p.IsBounded) {o : Location}
    (ho : o.IsBounded) {rest : List Char} (hrest : atEnd rest) :
    readLocation p ((encodeLocation p o).1 ++ rest) = .ok (o, (encodeLocation p o).2, rest) := by
  have hsource := readRelative_relative hp.source ho.source
  have hline := readRelative_relative hp.line ho.line
  have hcolumn := readRelative_relative hp.column ho.column
  obtain ⟨source, line, column, name⟩ := o
  simp only at hsource hline hcolumn
  cases name with
  | none =>
    simp only [encodeLocation, readLocation, bind, Except.bind, List.append_assoc, hsource, hline,
      hcolumn, hrest, if_true]
  | some k =>
    have hname := readRelative_relative hp.name (ho.name k rfl)
    simp only [encodeLocation, readLocation, bind, Except.bind, List.append_assoc, hsource, hline,
      hcolumn, atEnd_relative, hname, Bool.false_eq_true, if_false]

theorem bounded_encodeSegment {column : Nat} {p : Previous} (hp : p.IsBounded) {s : Segment}
    (hs : s.IsBounded) : (encodeSegment column p s).2.IsBounded := by
  unfold encodeSegment
  cases hlocation : s.location with
  | none => exact hp
  | some o => exact bounded_encodeLocation hp (hs.location o hlocation)

theorem readSegment_encodeSegment {column : Nat} (hcolumn : column ≤ maxNumber) {p : Previous}
    (hp : p.IsBounded) {s : Segment} (hs : s.IsBounded) {rest : List Char} (hrest : atEnd rest) :
    readSegment column p ((encodeSegment column p s).1 ++ rest) =
      .ok (s, (encodeSegment column p s).2, rest) := by
  have hcolumn' := readRelative_relative hcolumn hs.column
  obtain ⟨start, location⟩ := s
  simp only at hcolumn'
  cases location with
  | none => simp only [encodeSegment, readSegment, bind, Except.bind, hcolumn', hrest, if_true]
  | some o =>
    have hend : atEnd ((encodeLocation p o).1 ++ rest) = false := by
      unfold encodeLocation
      cases o.name <;> simp only [List.append_assoc, atEnd_relative]
    have ho := readLocation_encodeLocation hp (hs.location o rfl) hrest
    simp only [encodeSegment, readSegment, bind, Except.bind, List.append_assoc, hcolumn', hend, ho,
      Bool.false_eq_true, if_false]

/-- A segment is read, and then what follows it. -/
theorem decodeFrom_encodeSegment {line column : Nat} (hcolumn : column ≤ maxNumber) {p : Previous}
    (hp : p.IsBounded) {s : Segment} (hs : s.IsBounded) {rest : List Char} (hrest : atEnd rest)
    {ms : List Mapping}
    (h : decodeFrom line s.column (encodeSegment column p s).2 rest = .ok ms) :
    decodeFrom line column p ((encodeSegment column p s).1 ++ rest) =
      .ok (⟨line, s.column, s.location⟩ :: ms) := by
  have hread := readSegment_encodeSegment hcolumn hp hs hrest
  have hend : atEnd ((encodeSegment column p s).1 ++ rest) = false := by
    unfold encodeSegment
    cases s.location <;> simp only [List.append_assoc, atEnd_relative]
  cases htext : (encodeSegment column p s).1 ++ rest with
  | nil =>
    rw [htext] at hend
    cases hend
  | cons c cs =>
    rw [htext] at hend hread
    rw [atEnd, Bool.or_eq_false_iff, beq_eq_false_iff_ne, beq_eq_false_iff_ne] at hend
    rw [decodeFrom, if_neg hend.2, if_neg hend.1]
    split
    · rename_i e he
      cases he.symm.trans hread
    · rename_i t q rest' ht
      cases ht.symm.trans hread
      rw [h]
      rfl

/-! ## Lines -/

/-- The segments of a line, with its number. -/
def numbered (line : Nat) (ss : List Segment) : List Mapping :=
  ss.map fun s => ⟨line, s.column, s.location⟩

theorem atEnd_encodeRest_append (column : Nat) (p : Previous) (ss : List Segment) {rest : List Char}
    (hrest : atEnd rest) : atEnd ((encodeRest column p ss).1 ++ rest) := by
  cases ss with
  | nil => exact hrest
  | cons s ss => rfl

theorem bounded_encodeRest {column : Nat} {p : Previous} (hp : p.IsBounded) {ss : List Segment}
    (hss : ∀ s ∈ ss, s.IsBounded) : (encodeRest column p ss).2.IsBounded := by
  induction ss generalizing column p with
  | nil => exact hp
  | cons s ss ih =>
    exact ih (bounded_encodeSegment hp (hss s List.mem_cons_self))
      fun t ht => hss t (List.mem_cons_of_mem s ht)

theorem decodeFrom_encodeRest {line column : Nat} (hcolumn : column ≤ maxNumber) {p : Previous}
    (hp : p.IsBounded) {ss : List Segment} (hss : ∀ s ∈ ss, s.IsBounded) {rest : List Char}
    (hrest : atEnd rest) {ms : List Mapping}
    (h : ∀ last, decodeFrom line last (encodeRest column p ss).2 rest = .ok ms) :
    decodeFrom line column p ((encodeRest column p ss).1 ++ rest) =
      .ok (numbered line ss ++ ms) := by
  induction ss generalizing column p with
  | nil => exact h column
  | cons s ss ih =>
    have hs := hss s List.mem_cons_self
    have htail := ih hs.column (bounded_encodeSegment hp hs)
      (fun t ht => hss t (List.mem_cons_of_mem s ht)) h
    have hsegment := decodeFrom_encodeSegment hcolumn hp hs
      (atEnd_encodeRest_append s.column (encodeSegment column p s).2 ss hrest) htail
    change decodeFrom line column p (',' :: ((encodeSegment column p s).1 ++
      (encodeRest s.column (encodeSegment column p s).2 ss).1) ++ rest) = _
    rw [List.cons_append, List.append_assoc, decodeFrom, if_neg (by decide), if_pos rfl, hsegment]
    rfl

theorem bounded_encodeLine {p : Previous} (hp : p.IsBounded) {ss : List Segment}
    (hss : ∀ s ∈ ss, s.IsBounded) : (encodeLine p ss).2.IsBounded := by
  cases ss with
  | nil => exact hp
  | cons s ss =>
    exact bounded_encodeRest (bounded_encodeSegment hp (hss s List.mem_cons_self))
      fun t ht => hss t (List.mem_cons_of_mem s ht)

/-- A line is read, and then the lines that follow it. -/
theorem decodeFrom_encodeLine {line : Nat} {p : Previous} (hp : p.IsBounded) {ss : List Segment}
    (hss : ∀ s ∈ ss, s.IsBounded) {rest : List Char} (hrest : atEnd rest) {ms : List Mapping}
    (h : ∀ last, decodeFrom line last (encodeLine p ss).2 rest = .ok ms) :
    decodeFrom line 0 p ((encodeLine p ss).1 ++ rest) = .ok (numbered line ss ++ ms) := by
  cases ss with
  | nil => exact h 0
  | cons s ss =>
    have hs := hss s List.mem_cons_self
    have htail := decodeFrom_encodeRest hs.column (bounded_encodeSegment hp hs)
      (fun t ht => hss t (List.mem_cons_of_mem s ht)) hrest h
    have hsegment := decodeFrom_encodeSegment (Nat.zero_le _) hp hs
      (atEnd_encodeRest_append s.column (encodeSegment 0 p s).2 ss hrest) htail
    change decodeFrom line 0 p ((encodeSegment 0 p s).1 ++
      (encodeRest s.column (encodeSegment 0 p s).2 ss).1 ++ rest) = _
    rw [List.append_assoc, hsegment]
    rfl

theorem atEnd_encodeLines (p : Previous) (ls : List Line) : atEnd (encodeLines p ls) := by
  cases ls <;> rfl

/-- The segments of lines, the first of which has a number. -/
def numberedFrom (line : Nat) (ls : List Line) : List Mapping :=
  (ls.zipIdx line).flatMap fun (l, k) => numbered k l.segments.toList

theorem decodeFrom_encodeLines (line column : Nat) {p : Previous} (hp : p.IsBounded)
    {ls : List Line} (hls : ∀ l ∈ ls, ∀ s ∈ l.segments.toList, s.IsBounded) :
    decodeFrom line column p (encodeLines p ls) = .ok (numberedFrom (line + 1) ls) := by
  induction ls generalizing line column p with
  | nil => rw [encodeLines, decodeFrom]; rfl
  | cons l ls ih =>
    have hl := hls l List.mem_cons_self
    have hline := decodeFrom_encodeLine hp hl (atEnd_encodeLines _ ls) fun last =>
      ih (line + 1) last (bounded_encodeLine hp hl) fun l hl => hls l (List.mem_cons_of_mem _ hl)
    change decodeFrom line column p (';' :: ((encodeLine p l.segments.toList).1 ++
      encodeLines (encodeLine p l.segments.toList).2 ls)) = _
    rw [decodeFrom, if_pos rfl, hline]
    rfl

/-- The lines of a map read back as its segments. -/
theorem decode_encode {ls : List Line} (hls : ∀ l ∈ ls, ∀ s ∈ l.segments.toList, s.IsBounded) :
    decode (encode ls) = .ok (numberedFrom 0 ls) := by
  have hzero : ({} : Previous).IsBounded :=
    ⟨Nat.zero_le _, Nat.zero_le _, Nat.zero_le _, Nat.zero_le _⟩
  cases ls with
  | nil => rw [decode, encode, decodeFrom]; rfl
  | cons l ls =>
    have hl := hls l List.mem_cons_self
    exact decodeFrom_encodeLine hzero hl (atEnd_encodeLines _ ls) fun last =>
      decodeFrom_encodeLines 0 last (bounded_encodeLine hzero hl)
        fun l hl => hls l (List.mem_cons_of_mem _ hl)

end Mappings

end ModuleWorkers
