import ModuleWorkers.Proofs.Edits.Order
import ModuleWorkers.Proofs.Worker.Arguments
import ModuleWorkers.Proofs.Worker.Neutral

/-!
# Where constructions are found

A construction with options is found exactly where a call of the constructor stands with an argument
list that reads (`Construction.Call`, `Construction.here?_eq_some_iff`), at every place of a script
(`Construction.mem_findFrom`).

Constructions are found in the order in which their argument lists start
(`Construction.pairwise_findFrom`): a call of the constructor that is found behind another one
starts behind the parenthesis of that one, since no such call starts inside `new Worker(`
(`Construction.exists_word`). The argument list of a construction with options is a stretch of the
text, and not empty (`Construction.fits`).
-/

namespace ModuleWorkers

open Text Masked MaskedCursor

/-! ## Calls of the constructor -/

namespace Construction

variable {offset : Nat} {l : List Masked} {c : Construction}

/-- Whether the call of a constructor that a construction is read from stands at the start of masked
characters. -/
inductive Call (offset : Nat) (l : List Masked) (c : Construction) : Prop
  | mk (word front inner closing rest : List Masked) :
      l = word ++ ⟨'(', false⟩ :: (argumentList front inner closing ++ rest) →
      Matches (callFront "Worker") word (some '(') → Front front c.target →
      level? 1 inner = some 1 → Closing closing →
      c.start = offset + (MaskedCursor.byteLength word + 1) →
      c.stop + 1 = c.start + MaskedCursor.byteLength (argumentList front inner closing) →
      c.options = some (objectText inner) → Call offset l c

theorem Call.visible_eq {m : Masked} (h : Call offset (m :: l) c) : m.visible = 'n' := by
  obtain ⟨word, front, inner, closing, rest, hl, hword, -⟩ := h
  obtain ⟨n, word', rfl, hn⟩ := hword.exists_cons (c := 'n') rfl
  rw [(List.cons.inj hl).1, hn]

theorem Call.offset_le (h : Call offset l c) : offset ≤ c.start := by
  obtain ⟨word, front, inner, closing, rest, -, -, -, -, -, hstart, -⟩ := h
  omega

theorem byteLength_argumentList_pos (front inner closing : List Masked) :
    1 ≤ MaskedCursor.byteLength (argumentList front inner closing) := by
  have : '{'.utf8Size = 1 := rfl
  simp only [argumentList, MaskedCursor.byteLength_append, MaskedCursor.byteLength_cons, this]
  omega

/-- A construction is read from its argument list. -/
theorem arguments?_eq_some {front inner closing : List Masked} (hfront : Front front c.target)
    (hinner : level? 1 inner = some 1) (hclosing : Closing closing)
    (hstop : c.stop + 1 = c.start + MaskedCursor.byteLength (argumentList front inner closing))
    (hoptions : c.options = some (objectText inner)) (rest : List Masked) :
    arguments? ⟨argumentList front inner closing ++ rest, c.start⟩ = some c := by
  rw [arguments?_eq hfront hinner hclosing, ← hstop, Nat.add_sub_cancel, ← hoptions]

/-- A construction with options is one of a call that no word goes into. -/
theorem here?_eq_some_iff {previous : Option Char} :
    (here? previous ⟨l, offset⟩ = some c ∧ c.options.isSome) ↔
      ¬ previous.any isWordChar ∧ Call offset l c := by
  constructor
  · rintro ⟨hhere, hoptions⟩
    obtain ⟨options, hoptions⟩ := Option.isSome_iff_exists.1 hoptions
    unfold here? at hhere
    split at hhere
    · cases hhere
    · rename_i hprevious
      obtain ⟨⟨rest₁, offset₁⟩, hpattern, harguments⟩ := Option.bind_eq_some_iff.1 hhere
      obtain ⟨ms, hms, hl, hoffset⟩ := exists_of_eatPattern? hpattern
      rw [newWorker_eq] at hms
      obtain ⟨word, rfl, hword⟩ := hms.exists_paren
      obtain ⟨front, inner, closing, rest, hfront, hinner, hclosing, hrest⟩ :=
        exists_of_arguments? harguments hoptions
      simp only at hl hoffset hrest
      rw [hrest, arguments?_eq hfront hinner hclosing, Option.some.injEq] at harguments
      have hstart := congrArg Construction.start harguments
      have hstop := congrArg Construction.stop harguments
      have hobject := congrArg Construction.options harguments
      simp only at hstart hstop hobject
      have := byteLength_argumentList_pos front inner closing
      refine ⟨hprevious, word, front, inner, closing, rest, ?_, hword, hfront, hinner, hclosing, ?_,
        by omega, hobject.symm⟩
      · rw [hl, hrest, List.append_assoc]
        rfl
      · rw [← hstart, hoffset]
        simp
        rfl
  · rintro ⟨hprevious, word, front, inner, closing, rest, rfl, hword, hfront, hinner, hclosing,
      hstart, hstop, hoptions⟩
    have hpattern := eatPattern?_eq (hword.append_paren (first? (argumentList front inner
      closing ++ rest))) offset
    have hlength : MaskedCursor.byteLength (word ++ [⟨'(', false⟩]) =
        MaskedCursor.byteLength word + 1 := MaskedCursor.byteLength_append _ _
    rw [List.append_assoc, List.singleton_append, hlength, ← hstart] at hpattern
    rw [here?, if_neg hprevious, newWorker_eq, hpattern, Option.bind_some, hoptions]
    exact ⟨arguments?_eq_some hfront hinner hclosing hstop hoptions rest, rfl⟩

/-- A construction is found if it is read somewhere, given the character in front of that place. -/
theorem mem_findFrom {found : List Construction} {previous : Option Char} :
    c ∈ findFrom found previous offset l ↔ c ∈ found ∨
      ∃ p m q, l = p ++ m :: q ∧
        here? ((p.getLast?.map Masked.visible).or previous)
          ⟨m :: q, offset + MaskedCursor.byteLength p⟩ = some c := by
  induction l generalizing found previous offset with
  | nil => simp [findFrom]
  | cons m l ih =>
    rw [findFrom, ih, List.mem_append, Option.mem_toList]
    have hlast (p : List Masked) : (p.getLast?.map Masked.visible).or (some m.visible) =
        (((m :: p).getLast?.map Masked.visible).or previous) := by
      cases p with
      | nil => rfl
      | cons n p => rw [List.getLast?_cons_cons, List.getLast?_cons]; rfl
    constructor
    · rintro ((hhere | hfound) | ⟨p, n, q, rfl, hhere⟩)
      · exact .inr ⟨[], m, l, rfl, hhere⟩
      · exact .inl hfound
      · refine .inr ⟨m :: p, n, q, rfl, ?_⟩
        rwa [← hlast, MaskedCursor.byteLength_cons, ← Nat.add_assoc]
    · rintro (hfound | ⟨p, n, q, hl, hhere⟩)
      · exact .inl (.inr hfound)
      · cases p with
        | nil =>
          obtain ⟨rfl, rfl⟩ := List.cons.inj hl
          exact .inl (.inl hhere)
        | cons m' p =>
          obtain ⟨rfl, rfl⟩ := List.cons.inj hl
          refine .inr ⟨p, n, q, rfl, ?_⟩
          rwa [← hlast, MaskedCursor.byteLength_cons, ← Nat.add_assoc] at hhere

end Construction

/-! ## The order of calls -/

namespace MaskedCursor.Matches

/-- A pattern that starts with a text takes it first. -/
theorem exists_append {text : List Char} {ps : List PatternPiece} {ms : List Masked}
    {ahead : Option Char} (h : Matches (.text text :: ps) ms ahead) :
    ∃ front rest, ms = front ++ rest ∧ front.map Masked.visible = text ∧ Matches ps rest ahead := by
  generalize hp : PatternPiece.text text :: ps = all at h
  cases h with
  | text front h =>
    rw [List.cons.injEq, PatternPiece.text.injEq] at hp
    obtain ⟨rfl, rfl⟩ := hp
    exact ⟨front, _, rfl, rfl, h⟩
  | nil | blanks | gap | wordEnd => cases hp

end MaskedCursor.Matches

namespace Construction

variable {offset : Nat} {l : List Masked} {c : Construction} {previous : Option Char}

/-- A construction starts with a word and a parenthesis, and none starts inside of these. -/
theorem exists_word (h : here? previous ⟨l, offset⟩ = some c) :
    ∃ n word rest, l = n :: (word ++ ⟨'(', false⟩ :: rest) ∧ n.visible = 'n' ∧
      (∀ m ∈ word, m.visible ≠ 'n') ∧
        c.start = offset + (MaskedCursor.byteLength (n :: word) + 1) := by
  unfold here? at h
  split at h
  · cases h
  obtain ⟨⟨rest, offset'⟩, hpattern, harguments⟩ := Option.bind_eq_some_iff.1 h
  have hstart : c.start = offset' := by
    unfold arguments? at harguments
    simp only [Option.bind_eq_bind, Option.bind_eq_some_iff, Option.pure_def,
      Option.some.injEq] at harguments
    obtain ⟨-, -, -, -, -, -, rfl⟩ := harguments
    rfl
  obtain ⟨ms, hms, hl, hoffset⟩ := exists_of_eatPattern? hpattern
  rw [newWorker_eq] at hms
  obtain ⟨word, rfl, hword⟩ := hms.exists_paren
  obtain ⟨front, behind, rfl, hfront, hbehind⟩ := hword.exists_append
  change front.map Masked.visible = ['n', 'e', 'w'] at hfront
  obtain ⟨n, front, rfl, hn, hew⟩ := List.map_eq_cons_iff.1 hfront
  refine ⟨n, front ++ behind, rest, by simpa using hl, hn, ?_, ?_⟩
  · -- The word `new Worker` has its only `n` at its start.
    intro m hm
    rcases List.mem_append.1 hm with hm | hm
    · have hmem : m.visible ∈ ['e', 'w'] := hew ▸ List.mem_map_of_mem hm
      exact fun hvisible => absurd (hvisible ▸ hmem) (by decide)
    · rcases hbehind.visible_mem hm with hblank | hmem
      · exact fun hvisible => absurd (hvisible ▸ hblank) (by decide)
      · exact fun hvisible => absurd (hvisible ▸ hmem) (by decide)
  · have hparen : '('.utf8Size = 1 := rfl
    simp only [MaskedCursor.byteLength_append, MaskedCursor.byteLength_cons,
      MaskedCursor.byteLength_nil] at hoffset ⊢
    omega

/-- A construction that is found behind the start of another one starts behind it. -/
theorem start_lt {p q : List Masked} {m n : Masked} {previous' : Option Char} {d : Construction}
    (hc : here? previous ⟨m :: (p ++ n :: q), offset⟩ = some c)
    (hd : here? previous' ⟨n :: q, offset + MaskedCursor.byteLength (m :: p)⟩ = some d) :
    c.start < d.start := by
  obtain ⟨m, word, rest, hl, -, hword, hstart⟩ := exists_word hc
  obtain ⟨_, _, _, hq, hn, -, hstart'⟩ := exists_word hd
  obtain ⟨rfl, htail⟩ := List.cons.inj hl
  obtain ⟨rfl, -⟩ := List.cons.inj hq
  have hlength : MaskedCursor.byteLength word + 1 ≤ MaskedCursor.byteLength p := by
    have hparen : '('.utf8Size = 1 := rfl
    rcases cases_of_append_eq htail with ⟨es, rfl, -⟩ | ⟨es, rfl, hes⟩
    · simp [hparen]
    · cases es with
      | nil => exact absurd ((List.cons.inj hes).1 ▸ hn) (by decide)
      | cons e es => exact absurd hn (hword n (by simp [(List.cons.inj hes).1]))
  simp only [MaskedCursor.byteLength_cons] at hstart hstart'
  omega

theorem findFrom_eq (found : List Construction) (previous : Option Char) (offset : Nat)
    (l : List Masked) :
    findFrom found previous offset l = found.reverse ++ findFrom [] previous offset l := by
  induction l generalizing found previous offset with
  | nil => simp [findFrom]
  | cons m l ih =>
    rw [findFrom, findFrom, ih, ih (_ ++ [])]
    simp

/-- Constructions are found in the order of their argument lists. -/
theorem pairwise_findFrom (previous : Option Char) (offset : Nat) (l : List Masked) :
    (findFrom [] previous offset l).Pairwise (·.start < ·.start) := by
  induction l generalizing previous offset with
  | nil => exact List.Pairwise.nil
  | cons m l ih =>
    rw [findFrom, List.append_nil, findFrom_eq, List.pairwise_append]
    refine ⟨?_, ih _ _, fun c hc d hd => ?_⟩
    · cases here? previous ⟨m :: l, offset⟩ <;> simp
    · rw [List.mem_reverse, Option.mem_toList] at hc
      rcases mem_findFrom.1 hd with hd | ⟨p, n, q, rfl, hhere⟩
      · cases hd
      · rw [Nat.add_assoc, ← MaskedCursor.byteLength_cons] at hhere
        exact start_lt hc hhere

/-! ## Argument lists -/

/-- What stands between two parentheses is a stretch of the text. -/
theorem fits_between {e : Edit} {p a z : List Masked}
    (hl : l = p ++ ⟨'(', false⟩ :: (a ++ ⟨')', false⟩ :: z))
    (hstart : e.start = MaskedCursor.byteLength p + 1)
    (hstop : e.stop = e.start + MaskedCursor.byteLength a) : e.Fits (source l) := by
  have hparen : '('.utf8Size = 1 := rfl
  have hboundary (as bs : List Masked) (hsplit : l = as ++ bs) :
      isBoundary (MaskedCursor.byteLength as) (source l) := by
    rw [hsplit, source, List.map_append, MaskedCursor.byteLength_eq]
    exact isBoundary_byteLength _ _
  refine ⟨by omega, ?_, ?_⟩
  · rw [show e.start = MaskedCursor.byteLength (p ++ [⟨'(', false⟩]) by
      rw [hstart, MaskedCursor.byteLength_append]; rfl]
    exact hboundary _ (a ++ ⟨')', false⟩ :: z) (by simpa using hl)
  · rw [show e.stop = MaskedCursor.byteLength (p ++ ⟨'(', false⟩ :: a) by
      rw [hstop, hstart, MaskedCursor.byteLength_append, MaskedCursor.byteLength_cons, hparen]
      omega]
    exact hboundary _ (⟨')', false⟩ :: z) (by simpa using hl)

/-- The argument list of a construction with options is a stretch of the text, and not empty. -/
theorem fits (hc : c ∈ findFrom [] none 0 l) (hoptions : c.options.isSome) (content : String) :
    c.start < c.stop ∧ (⟨c.start, c.stop, content⟩ : Edit).Fits (source l) := by
  rcases mem_findFrom.1 hc with hc | ⟨p, m, q, rfl, hhere⟩
  · cases hc
  obtain ⟨-, word, front, inner, closing, rest, hq, -, -, -, hclosing, hstart, hstop, -⟩ :=
    here?_eq_some_iff.1 ⟨hhere, hoptions⟩
  obtain ⟨z, -, rfl⟩ := hclosing.exists_eq
  have hsize : '{'.utf8Size = 1 ∧ ')'.utf8Size = 1 := ⟨rfl, rfl⟩
  have hlength : MaskedCursor.byteLength (argumentList front inner (z ++ [⟨')', false⟩])) =
      MaskedCursor.byteLength (front ++ ⟨'{', false⟩ :: (inner ++ ⟨'}', false⟩ :: z)) + 1 := by
    simp only [argumentList, MaskedCursor.byteLength_append, MaskedCursor.byteLength_cons,
      MaskedCursor.byteLength_nil, hsize]
    omega
  rw [hlength] at hstop
  refine ⟨?_, fits_between (p := p ++ word)
    (a := front ++ ⟨'{', false⟩ :: (inner ++ ⟨'}', false⟩ :: z)) (z := rest) ?_ ?_ ?_⟩
  · simp only [MaskedCursor.byteLength_append, MaskedCursor.byteLength_cons, hsize] at hstop
    omega
  · rw [hq]
    simp [argumentList]
  · change c.start = _
    rw [hstart, MaskedCursor.byteLength_append]
    omega
  · change c.stop = c.start + _
    omega

end Construction

end ModuleWorkers
