import ModuleWorkers.Proofs.SourceMap.Mappings

/-!
# What texts of mappings are read

Between the separators of a text of mappings stand runs (`Mappings.runs`), and in each run numbers.
The grammar gives a run one, four or five numbers, and a segment to each run (`Mappings.Follows`).
Reading takes up to five numbers for a segment and does not ask for a separator behind the fifth: it
goes on in the same run. So what is accepted are runs whose last segment has one, four or five
numbers (`Mappings.takesRuns_of_decodeFrom`), and the grammar is followed exactly if no run has more
than five (`Mappings.decode_follows_iff`).
-/

namespace ModuleWorkers

/-! ## Numbers in a text -/

namespace Vlq

/-- Whether a character is a digit that another one of its number follows. -/
def isInner (c : Char) : Bool := (Base64.value? c).any (32 ≤ ·)

/-- Whether a character is the last digit of a number. -/
def isLast (c : Char) : Bool := (Base64.value? c).any (· < 32)

/-- Whether a text is a number. -/
def IsNumber (cs : List Char) : Prop :=
  ∃ inner last, cs = inner ++ [last] ∧ (∀ c ∈ inner, isInner c) ∧ isLast last

/-- Whether a text is a number of numbers, one after the other. -/
def IsNumbers (n : Nat) (cs : List Char) : Prop :=
  ∃ parts : List (List Char), parts.length = n ∧ parts.flatten = cs ∧ ∀ p ∈ parts, IsNumber p

theorem isLast_eq_false {c : Char} (h : isInner c) : isLast c = false := by
  unfold isInner at h
  unfold isLast
  cases hvalue : Base64.value? c with
  | none => rfl
  | some d =>
    rw [hvalue, Option.any_some, decide_eq_true_eq] at h
    simpa using h

theorem IsNumber.countP_isLast {cs : List Char} (h : IsNumber cs) : cs.countP isLast = 1 := by
  obtain ⟨inner, last, rfl, hinner, hlast⟩ := h
  have hzero : inner.countP isLast = 0 := by
    rw [List.countP_eq_zero]
    intro c hc
    rw [isLast_eq_false (hinner c hc)]
    exact Bool.false_ne_true
  rw [List.countP_append, hzero, List.countP_singleton, hlast]
  rfl

/-- There are as many numbers as last digits. -/
theorem IsNumbers.countP_isLast {n : Nat} {cs : List Char} (h : IsNumbers n cs) :
    cs.countP isLast = n := by
  obtain ⟨parts, rfl, rfl, hparts⟩ := h
  induction parts with
  | nil => rfl
  | cons p parts ih =>
    obtain ⟨hp, hparts⟩ := List.forall_mem_cons.1 hparts
    rw [List.flatten_cons, List.countP_append, hp.countP_isLast, ih hparts, List.length_cons,
      Nat.add_comm]

theorem IsNumber.isNumbers {cs : List Char} (h : IsNumber cs) : IsNumbers 1 cs :=
  ⟨[cs], rfl, List.append_nil cs, by simpa using h⟩

theorem IsNumbers.append {n k : Nat} {cs ds : List Char} (h : IsNumbers n cs)
    (h' : IsNumbers k ds) : IsNumbers (n + k) (cs ++ ds) := by
  obtain ⟨parts, rfl, rfl, hparts⟩ := h
  obtain ⟨parts', rfl, rfl, hparts'⟩ := h'
  refine ⟨parts ++ parts', List.length_append, List.flatten_append, fun p hp => ?_⟩
  exact (List.mem_append.1 hp).elim (hparts p) (hparts' p)

/-- What is read of a text is a number at its start. -/
theorem exists_isNumber_of_decodeFrom {shift read : Nat} {cs rest : List Char} {n : Int}
    (h : decodeFrom shift read cs = .ok (n, rest)) : ∃ used, cs = used ++ rest ∧ IsNumber used := by
  induction cs generalizing shift read with
  | nil => cases h
  | cons c cs ih =>
    rw [decodeFrom] at h
    split at h
    · cases h
    · rename_i d hd
      dsimp only at h
      split at h
      · cases h
      · split at h
        · cases h
        · split at h
          · rename_i hinner
            obtain ⟨used, rfl, inner, last, rfl, hall, hlast⟩ := ih h
            refine ⟨c :: (inner ++ [last]), rfl, c :: inner, last, rfl, ?_, hlast⟩
            refine List.forall_mem_cons.2 ⟨?_, hall⟩
            rw [isInner, hd, Option.any_some, decide_eq_true hinner]
          · rename_i hlast
            obtain rfl : cs = rest := (Prod.mk.inj (Except.ok.inj h)).2
            refine ⟨[c], rfl, [], c, rfl, List.forall_mem_nil _, ?_⟩
            rw [isLast, hd, Option.any_some, decide_eq_true (Nat.lt_of_not_le hlast)]

/-- A number at the start of a text is read, unless it is too large. -/
theorem decodeFrom_of_isNumber {shift read : Nat} {used rest : List Char} (h : IsNumber used) :
    (∃ n, decodeFrom shift read (used ++ rest) = .ok (n, rest)) ∨
      decodeFrom shift read (used ++ rest) = .error .overflow := by
  obtain ⟨inner, last, rfl, hinner, hlast⟩ := h
  induction inner generalizing shift read with
  | nil =>
    obtain ⟨d, hd, hlt⟩ := (Option.any_eq_true _ _).1 hlast
    have hlt : ¬ 32 ≤ d := Nat.not_le_of_lt (of_decide_eq_true hlt)
    rw [List.nil_append, List.singleton_append, decodeFrom, hd]
    dsimp only
    rw [if_neg hlt]
    split
    · exact .inr rfl
    · split
      · exact .inr rfl
      · exact .inl ⟨_, rfl⟩
  | cons c inner ih =>
    obtain ⟨hc, hinner⟩ := List.forall_mem_cons.1 hinner
    obtain ⟨d, hd, hle⟩ := (Option.any_eq_true _ _).1 hc
    rw [List.cons_append, List.cons_append, decodeFrom, hd]
    dsimp only
    split
    · exact .inr rfl
    · split
      · exact .inr rfl
      · rw [if_pos (of_decide_eq_true hle)]
        exact ih hinner

end Vlq

namespace Mappings

/-! ## Runs -/

/-- A stretch of a text without separators, and how many lines end in front of it. -/
structure Run where
  line : Nat
  text : List Char
  deriving DecidableEq, Repr

/-- The stretches of a text from a line on that are not empty: lines end in `;`, and `,` parts what
is on a line. -/
def runsFrom (line : Nat) (cs : List Char) : List Run :=
  ((cs.splitOn ';').zipIdx line).flatMap fun (l, k) =>
    ((l.splitOn ',').filter (· ≠ [])).map (Run.mk k)

def runs (cs : List Char) : List Run := runsFrom 0 cs

/-- A text in which neither lines nor segments end. -/
def IsUnparted (cs : List Char) : Prop := ';' ∉ cs ∧ ',' ∉ cs

theorem splitOn_append_of_not_mem {a : Char} {cs : List Char} (h : a ∉ cs) (rest : List Char) :
    (cs ++ rest).splitOn a = (rest.splitOn a).modifyHead (cs ++ ·) := by
  induction cs with
  | nil =>
    rw [List.nil_append]
    cases rest.splitOn a <;> rfl
  | cons c cs ih =>
    obtain ⟨hc, hcs⟩ := not_or.1 (List.mem_cons.not.1 h)
    rw [List.cons_append, List.splitOn_cons_eq_if_modifyHead, if_neg (by simpa using Ne.symm hc),
      ih hcs, List.modifyHead_modifyHead]
    rfl

theorem runsFrom_lineEnd (line : Nat) (cs : List Char) :
    runsFrom line (';' :: cs) = runsFrom (line + 1) cs := by
  unfold runsFrom
  rw [List.splitOn_cons_eq_if_modifyHead, if_pos (beq_self_eq_true _), List.zipIdx_cons,
    List.flatMap_cons]
  rfl

/-- The line of a text, and how it goes on. -/
theorem exists_splitOn (a : Char) (cs : List Char) : ∃ l ls, cs.splitOn a = l :: ls :=
  List.exists_cons_of_ne_nil (List.splitOn_ne_nil a cs)

theorem runsFrom_unparted_comma (line : Nat) {used : List Char} (h : IsUnparted used)
    (cs : List Char) : runsFrom line (used ++ ',' :: cs) =
      ([used].filter (· ≠ [])).map (Run.mk line) ++ runsFrom line cs := by
  obtain ⟨l, ls, hls⟩ := exists_splitOn ';' cs
  have hlines : (used ++ ',' :: cs).splitOn ';' = (used ++ ',' :: l) :: ls := by
    rw [splitOn_append_of_not_mem h.1, List.splitOn_cons_eq_if_modifyHead, if_neg (by decide), hls]
    rfl
  unfold runsFrom
  rw [hlines, hls, List.zipIdx_cons, List.zipIdx_cons, List.flatMap_cons, List.flatMap_cons]
  dsimp only
  rw [List.splitOn_append_cons_self_of_not_mem h.2, ← List.singleton_append, List.filter_append,
    List.map_append, List.append_assoc]

theorem runsFrom_comma (line : Nat) (cs : List Char) :
    runsFrom line (',' :: cs) = runsFrom line cs :=
  runsFrom_unparted_comma line ⟨List.not_mem_nil, List.not_mem_nil⟩ cs

/-- What stands in front of a separator is a run. -/
theorem runsFrom_append (line : Nat) {used rest : List Char} (h : IsUnparted used) (hne : used ≠ [])
    (hrest : atEnd rest) : runsFrom line (used ++ rest) = ⟨line, used⟩ :: runsFrom line rest := by
  have hfilter : [used].filter (· ≠ []) = [used] := by simp [hne]
  cases rest with
  | nil =>
    unfold runsFrom
    rw [List.append_nil, List.splitOn_eq_singleton h.1, List.zipIdx_singleton,
      List.flatMap_singleton]
    dsimp only
    rw [List.splitOn_eq_singleton h.2, hfilter]
    rfl
  | cons c cs =>
    rcases Bool.or_eq_true_iff.1 hrest with hc | hc
    · obtain rfl := beq_iff_eq.1 hc
      rw [runsFrom_unparted_comma line h, runsFrom_comma, hfilter]
      rfl
    · obtain rfl := beq_iff_eq.1 hc
      unfold runsFrom
      rw [List.splitOn_append_cons_self_of_not_mem h.1, List.zipIdx_cons, List.flatMap_cons,
        List.splitOn_cons_eq_if_modifyHead, if_pos (beq_self_eq_true _), List.zipIdx_cons,
        List.flatMap_cons]
      dsimp only
      rw [List.splitOn_eq_singleton h.2, hfilter]
      rfl

/-- A text goes on without separators up to the next one. -/
theorem exists_unparted (cs : List Char) :
    ∃ run rest, cs = run ++ rest ∧ IsUnparted run ∧ atEnd rest := by
  induction cs with
  | nil => exact ⟨[], [], rfl, ⟨List.not_mem_nil, List.not_mem_nil⟩, rfl⟩
  | cons c cs ih =>
    obtain ⟨run, rest, hcs, hrun, hrest⟩ := ih
    by_cases hc : atEnd (c :: cs)
    · exact ⟨[], c :: cs, rfl, ⟨List.not_mem_nil, List.not_mem_nil⟩, hc⟩
    · rw [atEnd, Bool.or_eq_true, beq_iff_eq, beq_iff_eq, not_or] at hc
      refine ⟨c :: run, rest, by rw [hcs]; rfl, ⟨?_, ?_⟩, hrest⟩
      · exact List.not_mem_cons_of_ne_of_not_mem (Ne.symm hc.2) hrun.1
      · exact List.not_mem_cons_of_ne_of_not_mem (Ne.symm hc.1) hrun.2

/-- How many numbers end in a run. -/
def Run.count (r : Run) : Nat := r.text.countP Vlq.isLast

/-- Whether a run is made of one, four or five numbers. -/
structure Run.IsSegment (r : Run) : Prop where
  isNumbers : Vlq.IsNumbers r.count r.text
  count : r.count = 1 ∨ r.count = 4 ∨ r.count = 5

/-- Whether a run is made of numbers that leave one, four or five for the last segment, if all others
take five. -/
structure Run.IsTaken (r : Run) : Prop where
  isNumbers : Vlq.IsNumbers r.count r.text
  count : r.count % 5 = 0 ∨ r.count % 5 = 1 ∨ r.count % 5 = 4

/-- How many segments are taken from a run. -/
def Run.segmentCount (r : Run) : Nat := (r.count + 4) / 5

/-- What the grammar says of a text of mappings and the segments that it is read as: each run is one
segment, on the line of the run. -/
structure Follows (cs : List Char) (ms : List Mapping) : Prop where
  isSegment : ∀ r ∈ runs cs, r.IsSegment
  lines : ms.map (·.line) = (runs cs).map (·.line)

/-- What is read as segments: numbers, five by five and what is left of a run. -/
structure TakesRuns (rs : List Run) (ms : List Mapping) : Prop where
  isTaken : ∀ r ∈ rs, r.IsTaken
  lines : ms.map (·.line) = rs.flatMap fun r => List.replicate r.segmentCount r.line

/-! ## Numbers that are read -/

theorem not_mem_of_isNumber {part : List Char} (h : Vlq.IsNumber part) {a : Char}
    (ha : Base64.value? a = none) : a ∉ part := by
  obtain ⟨inner, last, rfl, hinner, hlast⟩ := h
  intro hmem
  rcases List.mem_append.1 hmem with hmem | hmem
  · have := hinner a hmem
    rw [Vlq.isInner, ha] at this
    cases this
  · obtain rfl := List.mem_singleton.1 hmem
    rw [Vlq.isLast, ha] at hlast
    cases hlast

theorem isUnparted_of_isNumbers {n : Nat} {cs : List Char} (h : Vlq.IsNumbers n cs) :
    IsUnparted cs := by
  obtain ⟨parts, -, rfl, hparts⟩ := h
  have hnot : ∀ {a : Char}, Base64.value? a = none → a ∉ parts.flatten := by
    intro a ha hmem
    obtain ⟨part, hpart, hmem⟩ := List.mem_flatten.1 hmem
    exact not_mem_of_isNumber (hparts part hpart) ha hmem
  exact ⟨hnot (by decide), hnot (by decide)⟩

theorem atEnd_append_of_isNumber {part : List Char} (h : Vlq.IsNumber part) (rest : List Char) :
    atEnd (part ++ rest) = false := by
  have hline := not_mem_of_isNumber h (a := ';') (by decide)
  have hcomma := not_mem_of_isNumber h (a := ',') (by decide)
  obtain ⟨inner, last, rfl, -⟩ := h
  cases hpart : inner ++ [last] with
  | nil => simp at hpart
  | cons c cs =>
    rw [hpart, List.mem_cons, not_or] at hline hcomma
    rw [List.cons_append, atEnd, Bool.or_eq_false_iff, beq_eq_false_iff_ne, beq_eq_false_iff_ne]
    exact ⟨Ne.symm hcomma.1, Ne.symm hline.1⟩

theorem exists_isNumber_of_readRelative {previous n : Nat} {cs rest : List Char}
    (h : readRelative previous cs = .ok (n, rest)) :
    ∃ used, cs = used ++ rest ∧ Vlq.IsNumber used := by
  unfold readRelative at h
  split at h
  · cases h
  · rename_i hread
    dsimp only at h
    split at h
    · cases h
    · split at h
      · cases h
      · obtain rfl := (Prod.mk.inj (Except.ok.inj h)).2
        exact Vlq.exists_isNumber_of_decodeFrom hread

/-- What is read of a location are three numbers up to the end of the segment, or four. -/
theorem exists_isNumbers_of_readLocation {p q : Previous} {o : Location} {cs rest : List Char}
    (h : readLocation p cs = .ok (o, q, rest)) : ∃ used, cs = used ++ rest ∧
      (Vlq.IsNumbers 3 used ∧ atEnd rest ∨ Vlq.IsNumbers 4 used) := by
  obtain ⟨⟨source, cs₁⟩, hsource, h₁⟩ := exists_of_bind_eq_ok h
  obtain ⟨⟨line, cs₂⟩, hline, h₂⟩ := exists_of_bind_eq_ok h₁
  obtain ⟨⟨column, cs₃⟩, hcolumn, h₃⟩ := exists_of_bind_eq_ok h₂
  obtain ⟨first, rfl, hfirst⟩ := exists_isNumber_of_readRelative hsource
  obtain ⟨second, rfl, hsecond⟩ := exists_isNumber_of_readRelative hline
  obtain ⟨third, rfl, hthird⟩ := exists_isNumber_of_readRelative hcolumn
  have hthree : Vlq.IsNumbers 3 (first ++ (second ++ third)) :=
    hfirst.isNumbers.append (hsecond.isNumbers.append hthird.isNumbers)
  dsimp only at h₃
  split at h₃
  · rename_i hend
    cases h₃
    exact ⟨_, by simp, .inl ⟨hthree, hend⟩⟩
  · obtain ⟨⟨name, cs₄⟩, hname, h₄⟩ := exists_of_bind_eq_ok h₃
    obtain ⟨fourth, rfl, hfourth⟩ := exists_isNumber_of_readRelative hname
    cases h₄
    exact ⟨_, by simp, .inr (hthree.append hfourth.isNumbers)⟩

/-- What is read of a segment are one or four numbers up to its end, or five. -/
theorem exists_isNumbers_of_readSegment {column : Nat} {p q : Previous} {s : Segment}
    {cs rest : List Char} (h : readSegment column p cs = .ok (s, q, rest)) :
    ∃ n used, cs = used ++ rest ∧ Vlq.IsNumbers n used ∧
      ((n = 1 ∨ n = 4) ∧ atEnd rest ∨ n = 5) := by
  obtain ⟨⟨start, cs₁⟩, hstart, h₁⟩ := exists_of_bind_eq_ok h
  obtain ⟨first, rfl, hfirst⟩ := exists_isNumber_of_readRelative hstart
  dsimp only at h₁
  split at h₁
  · rename_i hend
    cases h₁
    exact ⟨1, first, rfl, hfirst.isNumbers, .inl ⟨.inl rfl, hend⟩⟩
  · obtain ⟨⟨o, r, cs₂⟩, ho, h₂⟩ := exists_of_bind_eq_ok h₁
    obtain ⟨used, rfl, hcount⟩ := exists_isNumbers_of_readLocation ho
    cases h₂
    rcases hcount with ⟨hthree, hend⟩ | hfour
    · exact ⟨4, _, (List.append_assoc ..).symm, hfirst.isNumbers.append hthree,
        .inl ⟨.inr rfl, hend⟩⟩
    · exact ⟨5, _, (List.append_assoc ..).symm, hfirst.isNumbers.append hfour, .inr rfl⟩

/-! ## Runs that are read -/

theorem count_eq {line n : Nat} {used : List Char} (h : Vlq.IsNumbers n used) :
    (⟨line, used⟩ : Run).count = n := h.countP_isLast

theorem TakesRuns.cons {line n : Nat} {used : List Char} {rs : List Run} {ms : List Mapping}
    {m : Mapping} (h : TakesRuns rs ms) (hm : m.line = line) (hused : Vlq.IsNumbers n used)
    (hn : n = 1 ∨ n = 4 ∨ n = 5) : TakesRuns (⟨line, used⟩ :: rs) (m :: ms) := by
  have hcount : (⟨line, used⟩ : Run).count = n := count_eq hused
  have hone : (⟨line, used⟩ : Run).segmentCount = 1 := by
    rw [Run.segmentCount, hcount]
    omega
  refine ⟨List.forall_mem_cons.2 ⟨⟨hcount.symm ▸ hused, by omega⟩, h.isTaken⟩, ?_⟩
  rw [List.map_cons, List.flatMap_cons, hone, h.lines, hm]
  rfl

/-- Five numbers in front of a run make it longer by a segment. -/
theorem TakesRuns.extend {line : Nat} {used run : List Char} {rs : List Run} {ms : List Mapping}
    {m : Mapping} (h : TakesRuns (⟨line, run⟩ :: rs) ms) (hm : m.line = line)
    (hused : Vlq.IsNumbers 5 used) : TakesRuns (⟨line, used ++ run⟩ :: rs) (m :: ms) := by
  obtain ⟨hrun, hrs⟩ := List.forall_mem_cons.1 h.isTaken
  have hcount : (⟨line, used ++ run⟩ : Run).count = 5 + (⟨line, run⟩ : Run).count :=
    count_eq (hused.append hrun.isNumbers)
  have htaken : (⟨line, used ++ run⟩ : Run).IsTaken := by
    refine ⟨hcount.symm ▸ hused.append hrun.isNumbers, ?_⟩
    have := hrun.count
    omega
  have hsegments : (⟨line, used ++ run⟩ : Run).segmentCount =
      (⟨line, run⟩ : Run).segmentCount + 1 := by
    rw [Run.segmentCount, hcount, Run.segmentCount]
    omega
  refine ⟨List.forall_mem_cons.2 ⟨htaken, hrs⟩, ?_⟩
  rw [List.map_cons, List.flatMap_cons, hsegments, List.replicate_succ, hm, h.lines,
    List.flatMap_cons]
  rfl

theorem runsFrom_append_of_not_atEnd (line : Nat) {used rest : List Char} (h : IsUnparted used)
    (hrest : ¬ atEnd rest) : ∃ run rs, runsFrom line rest = ⟨line, run⟩ :: rs ∧
      runsFrom line (used ++ rest) = ⟨line, used ++ run⟩ :: rs := by
  obtain ⟨run, back, rfl, hrun, hback⟩ := exists_unparted rest
  have hne : run ≠ [] := by
    rintro rfl
    exact hrest hback
  have hboth : IsUnparted (used ++ run) := by
    unfold IsUnparted at h hrun ⊢
    simp [h, hrun]
  refine ⟨run, runsFrom line back, runsFrom_append line hrun hne hback, ?_⟩
  rw [← List.append_assoc]
  exact runsFrom_append line hboth (List.append_ne_nil_of_right_ne_nil used hne) hback

theorem takesRuns_of_decodeFrom {line column : Nat} {p : Previous} {cs : List Char}
    {ms : List Mapping} (h : decodeFrom line column p cs = .ok ms) :
    TakesRuns (runsFrom line cs) ms := by
  fun_induction decodeFrom line column p cs generalizing ms with
  | case1 =>
    cases h
    exact ⟨List.forall_mem_nil _, rfl⟩
  | case2 line column p cs ih =>
    rw [runsFrom_lineEnd]
    exact ih h
  | case3 line column p cs _ ih =>
    rw [runsFrom_comma]
    exact ih h
  | case4 => cases h
  | case5 line column p c cs hline hcomma s q rest hread _ ih =>
    cases hrest : decodeFrom line s.column q rest with
    | error e =>
      rw [hrest] at h
      cases h
    | ok ts =>
      rw [hrest] at h
      cases h
      have hts := ih hrest
      obtain ⟨n, used, hcs, hused, hcount⟩ := exists_isNumbers_of_readSegment hread
      have hunparted := isUnparted_of_isNumbers hused
      rw [hcs]
      by_cases hend : atEnd rest
      · have hne : used ≠ [] := by
          rintro rfl
          rw [List.nil_append] at hcs
          rw [← hcs, atEnd, Bool.or_eq_true, beq_iff_eq, beq_iff_eq] at hend
          exact hend.elim hcomma hline
        rw [runsFrom_append line hunparted hne hend]
        exact hts.cons rfl hused (by omega)
      · -- the segment ends inside its run, so it was the fifth number that ended it
        obtain rfl : n = 5 := hcount.resolve_left fun h => hend h.2
        obtain ⟨run, rs, hrun, hlonger⟩ := runsFrom_append_of_not_atEnd line hunparted hend
        rw [hlonger]
        exact (hrun ▸ hts).extend rfl hused

/-! ## Runs that are accepted -/

/-- Whether an error says of a number that it does not fit. -/
def IsMisfit : SourceMapError → Prop
  | .negativeNumber | .bigNumber | .overflow => True
  | _ => False

/-- Whether an outcome is as it should be, or there is none because a number does not fit. -/
def IfFits {α : Type} (p : α → Prop) : Except SourceMapError α → Prop
  | .ok a => p a
  | .error e => IsMisfit e

theorem IfFits.bind {α β : Type} {p : α → Prop} {q : β → Prop} {x : Except SourceMapError α}
    {f : α → Except SourceMapError β} (h : IfFits p x) (hf : ∀ a, p a → IfFits q (f a)) :
    IfFits q (x >>= f) := by
  cases x with
  | error e => exact h
  | ok a => exact hf a h

theorem ifFits_readRelative (previous : Nat) {part : List Char} (h : Vlq.IsNumber part)
    (rest : List Char) : IfFits (·.2 = rest) (readRelative previous (part ++ rest)) := by
  unfold readRelative Vlq.decode
  have hdecoded : (∃ n, Vlq.decodeFrom 0 0 (part ++ rest) = .ok (n, rest)) ∨
      Vlq.decodeFrom 0 0 (part ++ rest) = .error .overflow := Vlq.decodeFrom_of_isNumber h
  obtain ⟨n, hn⟩ | hoverflow := hdecoded
  · rw [hn]
    dsimp only
    split
    · exact trivial
    · split
      · exact trivial
      · exact rfl
  · rw [hoverflow]
    exact trivial

section

variable {parts : List (List Char)} {rest : List Char}

theorem ifFits_readLocation (p : Previous) (hparts : ∀ part ∈ parts, Vlq.IsNumber part)
    (hcount : parts.length = 3 ∨ 4 ≤ parts.length) (hrest : atEnd rest) :
    IfFits (·.2.2 = (parts.drop 4).flatten ++ rest) (readLocation p (parts.flatten ++ rest)) := by
  obtain ⟨a, b, c, more, rfl⟩ : ∃ a b c more, parts = a :: b :: c :: more := by
    match parts, hcount with
    | a :: b :: c :: more, _ => exact ⟨a, b, c, more, rfl⟩
  simp only [List.forall_mem_cons] at hparts
  obtain ⟨ha, hb, hc, hmore⟩ := hparts
  simp only [List.flatten_cons, List.append_assoc]
  refine (ifFits_readRelative p.source ha _).bind ?_
  rintro ⟨source, _⟩ rfl
  refine (ifFits_readRelative p.line hb _).bind ?_
  rintro ⟨line, _⟩ rfl
  refine (ifFits_readRelative p.column hc _).bind ?_
  rintro ⟨column, _⟩ rfl
  cases more with
  | nil =>
    have hend : atEnd (([] : List (List Char)).flatten ++ rest) = true := hrest
    dsimp only
    rw [if_pos hend]
    exact rfl
  | cons d more =>
    obtain ⟨hd, -⟩ := List.forall_mem_cons.1 hmore
    rw [List.flatten_cons, List.append_assoc]
    dsimp only
    rw [if_neg (by rw [atEnd_append_of_isNumber hd]; exact Bool.false_ne_true)]
    refine (ifFits_readRelative p.name hd _).bind ?_
    rintro ⟨name, _⟩ rfl
    exact rfl

/-- A segment takes up to five numbers of what its run is made of. -/
theorem ifFits_readSegment (column : Nat) (p : Previous)
    (hparts : ∀ part ∈ parts, Vlq.IsNumber part) (hne : parts ≠ [])
    (hcount : parts.length % 5 = 0 ∨ parts.length % 5 = 1 ∨ parts.length % 5 = 4)
    (hrest : atEnd rest) :
    IfFits (·.2.2 = (parts.drop 5).flatten ++ rest)
      (readSegment column p (parts.flatten ++ rest)) := by
  obtain ⟨a, more, rfl⟩ := List.exists_cons_of_ne_nil hne
  obtain ⟨ha, hmore⟩ := List.forall_mem_cons.1 hparts
  rw [List.flatten_cons, List.append_assoc]
  refine (ifFits_readRelative column ha _).bind ?_
  rintro ⟨start, _⟩ rfl
  cases more with
  | nil =>
    have hend : atEnd (([] : List (List Char)).flatten ++ rest) = true := hrest
    dsimp only
    rw [if_pos hend]
    exact rfl
  | cons b more =>
    obtain ⟨hb, -⟩ := List.forall_mem_cons.1 hmore
    have hend : ¬ atEnd ((b :: more).flatten ++ rest) := by
      rw [List.flatten_cons, List.append_assoc, atEnd_append_of_isNumber hb]
      exact Bool.false_ne_true
    have hlength : (b :: more).length = 3 ∨ 4 ≤ (b :: more).length := by
      simp only [List.length_cons] at hcount ⊢
      omega
    dsimp only
    rw [if_neg hend]
    refine (ifFits_readLocation p hmore hlength hrest).bind ?_
    rintro ⟨o, q, _⟩ rfl
    exact rfl

end

/-- The run that a text starts with, as the numbers that it is made of. -/
theorem exists_parts {line : Nat} {c : Char} {cs : List Char} (hline : c ≠ ';') (hcomma : c ≠ ',')
    (h : ∀ r ∈ runsFrom line (c :: cs), r.IsTaken) :
    ∃ parts back, c :: cs = List.flatten parts ++ back ∧ (∀ part ∈ parts, Vlq.IsNumber part) ∧
      parts ≠ [] ∧ (parts.length % 5 = 0 ∨ parts.length % 5 = 1 ∨ parts.length % 5 = 4) ∧
      atEnd back ∧ ∀ r ∈ runsFrom line back, r.IsTaken := by
  obtain ⟨run, back, hcs, hrun, hback⟩ := exists_unparted (c :: cs)
  have hne : run ≠ [] := by
    rintro rfl
    rw [List.nil_append] at hcs
    rw [← hcs, atEnd, Bool.or_eq_true, beq_iff_eq, beq_iff_eq] at hback
    exact hback.elim hcomma hline
  rw [hcs, runsFrom_append line hrun hne hback] at h
  obtain ⟨⟨⟨parts, hlength, hflatten, hparts⟩, hcount⟩, hruns⟩ := List.forall_mem_cons.1 h
  dsimp only at hflatten
  subst hflatten
  rw [← hlength] at hcount
  refine ⟨parts, back, hcs, hparts, ?_, hcount, hback, hruns⟩
  rintro rfl
  exact hne rfl

theorem isTaken_flatten (line : Nat) {parts : List (List Char)}
    (hparts : ∀ part ∈ parts, Vlq.IsNumber part)
    (hcount : parts.length % 5 = 0 ∨ parts.length % 5 = 1 ∨ parts.length % 5 = 4) :
    (⟨line, parts.flatten⟩ : Run).IsTaken := by
  have hnumbers : Vlq.IsNumbers parts.length parts.flatten := ⟨parts, rfl, rfl, hparts⟩
  have heq : (⟨line, parts.flatten⟩ : Run).count = parts.length := count_eq hnumbers
  exact ⟨heq.symm ▸ hnumbers, heq.symm ▸ hcount⟩

/-- Runs that leave one, four or five numbers for their last segments are accepted, unless a number
does not fit. -/
theorem ifFits_decodeFrom {line column : Nat} {p : Previous} {cs : List Char}
    (h : ∀ r ∈ runsFrom line cs, r.IsTaken) :
    IfFits (fun _ => True) (decodeFrom line column p cs) := by
  fun_induction decodeFrom line column p cs with
  | case1 => trivial
  | case2 line column p cs ih => exact ih (runsFrom_lineEnd line cs ▸ h)
  | case3 line column p cs _ ih => exact ih (runsFrom_comma line cs ▸ h)
  | case4 line column p c cs hline hcomma e hread =>
    obtain ⟨parts, back, hcs, hparts, hne, hcount, hback, -⟩ := exists_parts hline hcomma h
    have hsegment := ifFits_readSegment column p hparts hne hcount hback
    rwa [← hcs, hread] at hsegment
  | case5 line column p c cs hline hcomma s q rest hread _ ih =>
    obtain ⟨parts, back, hcs, hparts, hne, hcount, hback, hruns⟩ := exists_parts hline hcomma h
    have hsegment := ifFits_readSegment column p hparts hne hcount hback
    rw [← hcs, hread] at hsegment
    have hrest : rest = (parts.drop 5).flatten ++ back := hsegment
    have htail : ∀ r ∈ runsFrom line rest, r.IsTaken := by
      rw [hrest]
      by_cases hdrop : parts.drop 5 = []
      · rw [hdrop]
        exact hruns
      · have hparts' : ∀ part ∈ parts.drop 5, Vlq.IsNumber part :=
          fun part hpart => hparts part (List.mem_of_mem_drop hpart)
        have hnumbers : Vlq.IsNumbers (parts.drop 5).length (parts.drop 5).flatten :=
          ⟨_, rfl, rfl, hparts'⟩
        have hflatten : (parts.drop 5).flatten ≠ [] := by
          intro hnil
          have := hnumbers.countP_isLast
          rw [hnil, List.countP_nil] at this
          exact hdrop (List.length_eq_zero_iff.1 this.symm)
        rw [runsFrom_append line (isUnparted_of_isNumbers hnumbers) hflatten hback]
        refine List.forall_mem_cons.2 ⟨isTaken_flatten line hparts' ?_, hruns⟩
        have hlong := List.length_pos_iff.2 hdrop
        rw [List.length_drop] at hlong ⊢
        omega
    have htail := ih htail
    cases hdecode : decodeFrom line s.column q rest with
    | error e =>
      rw [hdecode] at htail
      exact htail
    | ok ms => trivial

/-! ## The main result -/

theorem text_ne_nil_of_mem_runs {cs : List Char} {r : Run} (h : r ∈ runs cs) : r.text ≠ [] := by
  obtain ⟨l, -, hr⟩ := List.mem_flatMap.1 h
  obtain ⟨text, htext, rfl⟩ := List.mem_map.1 hr
  exact of_decide_eq_true (List.mem_filter.1 htext).2

/-- Runs of up to five numbers that are taken are segments. -/
theorem TakesRuns.follows {cs : List Char} {ms : List Mapping} (h : TakesRuns (runs cs) ms)
    (hcount : ∀ r ∈ runs cs, r.count ≤ 5) : Follows cs ms := by
  have hsegment : ∀ r ∈ runs cs, r.IsSegment := by
    intro r hr
    obtain ⟨hnumbers, htaken⟩ := h.isTaken r hr
    have hle := hcount r hr
    have hzero : r.count ≠ 0 := by
      intro hzero
      obtain ⟨parts, hlength, hflatten, -⟩ := hnumbers
      rw [hzero, List.length_eq_zero_iff] at hlength
      rw [hlength] at hflatten
      exact text_ne_nil_of_mem_runs hr hflatten.symm
    exact ⟨hnumbers, by omega⟩
  refine ⟨hsegment, ?_⟩
  have hone : ∀ r ∈ runs cs, List.replicate r.segmentCount r.line = [r.line] := by
    intro r hr
    have hcount := (hsegment r hr).count
    have : r.segmentCount = 1 := by
      unfold Run.segmentCount
      omega
    rw [this]
    rfl
  rw [h.lines, List.flatMap_congr hone, List.map_eq_flatMap]

/-- What is accepted follows the grammar exactly if no run has more than five numbers: of a run with
more, each five numbers become a segment. Runs of other lengths are refused, and all that could be
taken is accepted, as long as its numbers fit. -/
theorem decode_follows_iff (cs : List Char) :
    (∀ ms, decode cs = .ok ms →
      TakesRuns (runs cs) ms ∧ (Follows cs ms ↔ ∀ r ∈ runs cs, r.count ≤ 5)) ∧
    ((∃ r ∈ runs cs, ¬ r.IsTaken) → ∃ e, decode cs = .error e) ∧
    ((∀ r ∈ runs cs, r.IsTaken) → IfFits (fun _ => True) (decode cs)) := by
  have htakes : ∀ ms, decode cs = .ok ms → TakesRuns (runs cs) ms :=
    fun ms h => takesRuns_of_decodeFrom h
  refine ⟨fun ms h => ⟨htakes ms h, fun hfollows r hr => ?_, (htakes ms h).follows⟩, ?_,
    fun h => ifFits_decodeFrom h⟩
  · have := (hfollows.isSegment r hr).count
    omega
  · rintro ⟨r, hr, hnot⟩
    cases hdecode : decode cs with
    | error e => exact ⟨e, rfl⟩
    | ok ms => exact absurd ((htakes ms hdecode).isTaken r hr) hnot

/-- Three lines, the second one empty, with segments of all lengths. -/
def threeLines : List Char := "AAAA,IAAIA;;ACCA,E".toList

theorem decode_follows_iff_threeLines :
    (∃ ms, decode threeLines = .ok ms ∧ ms.map (·.line) = [0, 0, 2, 2] ∧ Follows threeLines ms) ∧
    (∃ e, decode "AAAA,AA".toList = .error e) ∧
    (∀ r ∈ runs threeLines, r.IsTaken) ∧ IfFits (fun _ => True) (decode threeLines) := by
  have hdecode : decode threeLines = .ok [⟨0, 0, some ⟨0, 0, 0, none⟩⟩,
      ⟨0, 4, some ⟨0, 0, 4, some 0⟩⟩, ⟨2, 0, some ⟨1, 1, 4, none⟩⟩, ⟨2, 2, none⟩] := by cbv
  have hcount : ∀ r ∈ runs threeLines, r.count ≤ 5 := by decide +kernel
  obtain ⟨hread, -, hfits⟩ := decode_follows_iff threeLines
  obtain ⟨htakes, hfollows⟩ := hread _ hdecode
  have hshort : ∃ r ∈ runs "AAAA,AA".toList, ¬ r.IsTaken := by
    refine ⟨⟨0, ['A', 'A']⟩, by decide +kernel, fun htaken => ?_⟩
    have htwo : (⟨0, ['A', 'A']⟩ : Run).count = 2 := by decide +kernel
    have := htaken.count
    omega
  exact ⟨⟨_, hdecode, rfl, hfollows.2 hcount⟩, (decode_follows_iff _).2.1 hshort, htakes.isTaken,
    hfits htakes.isTaken⟩

/-- Six numbers without a separator are accepted as two segments. -/
theorem not_follows_sixNumbers :
    (runs "AAAAAA".toList).map (·.count) = [6] ∧
    ∃ ms, decode "AAAAAA".toList = .ok ms ∧ ms.length = 2 ∧ ¬ Follows "AAAAAA".toList ms := by
  have hdecode : decode "AAAAAA".toList =
      .ok [⟨0, 0, some ⟨0, 0, 0, some 0⟩⟩, ⟨0, 0, none⟩] := by cbv
  refine ⟨by decide +kernel, _, hdecode, rfl, fun hfollows => ?_⟩
  have hruns : (runs "AAAAAA".toList).map (·.line) = [0] := by decide +kernel
  have hlines := hfollows.lines
  rw [hruns] at hlines
  cases hlines

end Mappings

end ModuleWorkers
