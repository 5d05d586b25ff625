import ModuleWorkers.Proofs.Worker.Construction
import ModuleWorkers.Proofs.Worker.Tokens

/-!
# What argument lists are made of

The readers of argument lists take stretches of masked text, whatever follows these, as long as it
starts with the same character. An argument list with options is what says what to run, a comma, and
an object (`Construction.ArgumentList`); the object may have other things in it, as long as its
braces stay balanced (`Construction.arguments?_eq`).
-/

namespace ModuleWorkers

open Text Masked

namespace MaskedCursor

@[simp] theorem byteLength_nil : byteLength [] = 0 := rfl

@[simp] theorem byteLength_append (ms ns : List Masked) :
    byteLength (ms ++ ns) = byteLength ms + byteLength ns := by
  simp [byteLength_eq, source]

@[simp] theorem byteLength_cons (m : Masked) (ms : List Masked) :
    byteLength (m :: ms) = m.char.utf8Size + byteLength ms := by
  simp [byteLength_eq, source]

/-! ## Blanks and signs -/

/-- Whether masked characters look like blanks. -/
def AreBlank (ms : List Masked) : Prop := ∀ m ∈ ms, isAsciiBlank m.visible

theorem AreBlank.hasNoBrackets {ms : List Masked} (h : AreBlank ms) : HasNoBrackets ms := by
  intro m hm hbracket
  have hblank := h m hm
  simp only [List.mem_cons, List.not_mem_nil, or_false] at hbracket
  rcases hbracket with hc | hc | hc | hc <;> rw [hc] at hblank <;> exact absurd hblank (by decide)

theorem skipBlanks_eq {bs : List Masked} (hbs : AreBlank bs) {m : Masked}
    (hm : ¬ isAsciiBlank m.visible) (rest : List Masked) (offset : Nat) :
    skipBlanks ⟨bs ++ m :: rest, offset⟩ = ⟨m :: rest, offset + byteLength bs⟩ := by
  obtain ⟨htake, hdrop⟩ :=
    takeWhile_append_of_head (p := fun n : Masked => isAsciiBlank n.visible) (r := m :: rest) hbs
      (by simpa using hm)
  rw [skipBlanks, skipWhile, past, htake, hdrop]

/-- The blanks in front of something else. -/
theorem exists_of_skipBlanks {c : MaskedCursor} {m : Masked} {rest : List Masked} {offset : Nat}
    (h : c.skipBlanks = ⟨m :: rest, offset⟩) :
    ∃ bs, AreBlank bs ∧ c.rest = bs ++ m :: rest ∧ ¬ isAsciiBlank m.visible := by
  have hdrop : c.rest.dropWhile (isAsciiBlank ·.visible) = m :: rest := congrArg MaskedCursor.rest h
  refine ⟨c.rest.takeWhile (isAsciiBlank ·.visible), fun b hb => ?_, ?_, ?_⟩
  · simpa using List.mem_takeWhile_imp hb
  · rw [← hdrop, List.takeWhile_append_dropWhile]
  · exact not_of_mem_head?_dropWhile (p := fun n : Masked => isAsciiBlank n.visible)
      (l := c.rest) (by rw [hdrop]; rfl)

theorem eat?_eq {bs : List Masked} (hbs : AreBlank bs) {m : Masked} {char : Char}
    (hm : m.visible = char) (hchar : ¬ isAsciiBlank char) (rest : List Masked) (offset : Nat) :
    eat? ⟨bs ++ m :: rest, offset⟩ char = some ⟨rest, offset + byteLength (bs ++ [m])⟩ := by
  unfold eat?
  rw [skipBlanks_eq hbs (hm ▸ hchar)]
  simp only [hm, if_true, byteLength_append, byteLength_cons, byteLength_nil]
  congr 2
  omega

theorem eat?_shown {bs : List Masked} (hbs : AreBlank bs) {char : Char}
    (hchar : ¬ isAsciiBlank char) (rest : List Masked) (offset : Nat) :
    eat? ⟨bs ++ ⟨char, false⟩ :: rest, offset⟩ char =
      some ⟨rest, offset + byteLength (bs ++ [⟨char, false⟩])⟩ :=
  eat?_eq (m := ⟨char, false⟩) hbs rfl hchar rest offset

theorem eat?_eq_none {bs : List Masked} (hbs : AreBlank bs) {m : Masked} {char : Char}
    (hm : m.visible ≠ char) (hblank : ¬ isAsciiBlank m.visible) (rest : List Masked)
    (offset : Nat) : eat? ⟨bs ++ m :: rest, offset⟩ char = none := by
  unfold eat?
  rw [skipBlanks_eq hbs hblank]
  simp only [if_neg hm]

theorem exists_of_eat? {c c' : MaskedCursor} {char : Char} (h : c.eat? char = some c') :
    ∃ bs m, AreBlank bs ∧ m.visible = char ∧ ¬ isAsciiBlank char ∧ c.rest = bs ++ m :: c'.rest ∧
      c'.offset = c.offset + byteLength (bs ++ [m]) := by
  unfold eat? at h
  split at h
  · rename_i m rest offset hskip
    obtain ⟨bs, hbs, hrest, hblank⟩ := exists_of_skipBlanks hskip
    split at h
    · rename_i hm
      cases h
      refine ⟨bs, m, hbs, hm, hm ▸ hblank, hrest, ?_⟩
      have hoffset := skipBlanks_eq hbs hblank rest c.offset
      rw [← hrest, hskip] at hoffset
      have := congrArg MaskedCursor.offset hoffset
      simp only at this
      rw [this]
      simp [Nat.add_assoc]
    · cases h
  · cases h

/-! ## Patterns -/

/-- The character that a search sees first. -/
def first? (ms : List Masked) : Option Char := ms.head?.map Masked.visible

theorem first?_append (ms ns : List Masked) : first? (ms ++ ns) = (first? ms).or (first? ns) := by
  cases ms <;> rfl

/-- The characters that a piece of a pattern asks for. -/
def PatternPiece.chars : PatternPiece → List Char
  | .text chars => chars
  | _ => []

/-- Whether a pattern describes masked characters, given the character behind them. -/
inductive Matches : List PatternPiece → List Masked → Option Char → Prop
  | nil {ahead : Option Char} : Matches [] [] ahead
  | text {ps : List PatternPiece} {rest : List Masked} {ahead : Option Char} (ms : List Masked) :
      Matches ps rest ahead → Matches (.text (ms.map Masked.visible) :: ps) (ms ++ rest) ahead
  | blanks {ps : List PatternPiece} {bs rest : List Masked} {ahead : Option Char} :
      (∀ b ∈ bs, isBlank b.visible) → (∀ c ∈ (first? rest).or ahead, ¬ isBlank c) →
      Matches ps rest ahead → Matches (.blanks :: ps) (bs ++ rest) ahead
  | gap {ps : List PatternPiece} {bs rest : List Masked} {ahead : Option Char} : bs ≠ [] →
      (∀ b ∈ bs, isBlank b.visible) → (∀ c ∈ (first? rest).or ahead, ¬ isBlank c) →
      Matches ps rest ahead → Matches (.gap :: ps) (bs ++ rest) ahead
  | wordEnd {ps : List PatternPiece} {rest : List Masked} {ahead : Option Char} :
      (∀ c ∈ (first? rest).or ahead, ¬ isWordChar c) → Matches ps rest ahead →
      Matches (.wordEnd :: ps) rest ahead

theorem eatText?_eq (ms rest : List Masked) (offset : Nat) :
    eatText? ⟨ms ++ rest, offset⟩ (ms.map Masked.visible) =
      some ⟨rest, offset + byteLength ms⟩ := by
  induction ms generalizing offset with
  | nil => rfl
  | cons m ms ih =>
    rw [List.cons_append, List.map_cons, eatText?, if_pos rfl, ih, byteLength_cons, Nat.add_assoc]

theorem exists_of_eatText? {c c' : MaskedCursor} {text : List Char}
    (h : c.eatText? text = some c') :
    ∃ ms, text = ms.map Masked.visible ∧ c.rest = ms ++ c'.rest ∧
      c'.offset = c.offset + byteLength ms := by
  fun_induction eatText? c text with
  | case1 =>
    cases h
    exact ⟨[], rfl, rfl, rfl⟩
  | case2 as m rest offset ih =>
    obtain ⟨ms, rfl, hrest, hoffset⟩ := ih h
    refine ⟨m :: ms, rfl, congrArg (m :: ·) hrest, ?_⟩
    rw [hoffset, byteLength_cons, Nat.add_assoc]
  | case3 => cases h
  | case4 => cases h

theorem skipWhile_eq {p : Char → Bool} {ms : List Masked} (hms : ∀ m ∈ ms, p m.visible)
    (rest : List Masked) (hrest : ∀ c ∈ first? rest, ¬ p c) (offset : Nat) :
    skipWhile p ⟨ms ++ rest, offset⟩ = ⟨rest, offset + byteLength ms⟩ := by
  obtain ⟨htake, hdrop⟩ :=
    takeWhile_append_of_head (p := fun n : Masked => p n.visible) (r := rest) hms
      (fun m hm => hrest m.visible (by rw [first?, Option.mem_def.1 hm]; rfl))
  rw [skipWhile, past, htake, hdrop]

theorem exists_of_skipWhile (p : Char → Bool) (c : MaskedCursor) :
    ∃ ms, (∀ m ∈ ms, p m.visible) ∧ c.rest = ms ++ (c.skipWhile p).rest ∧
      (c.skipWhile p).offset = c.offset + byteLength ms ∧
      ∀ a ∈ first? (c.skipWhile p).rest, ¬ p a := by
  refine ⟨c.rest.takeWhile (p ·.visible), fun m hm => by simpa using List.mem_takeWhile_imp hm,
    List.takeWhile_append_dropWhile.symm, rfl, fun a ha => ?_⟩
  obtain ⟨m, hm, rfl⟩ := Option.map_eq_some_iff.1 ha
  exact not_of_mem_head?_dropWhile (p := fun n : Masked => p n.visible) hm

/-- A pattern takes what it describes. -/
theorem eatPattern?_eq {ps : List PatternPiece} {ms rest : List Masked}
    (h : Matches ps ms (first? rest)) (offset : Nat) :
    eatPattern? ⟨ms ++ rest, offset⟩ ps = some ⟨rest, offset + byteLength ms⟩ := by
  generalize hahead : first? rest = ahead at h
  unfold eatPattern?
  induction h generalizing offset with
  | nil => rfl
  | @text ps rest' ahead ms h ih =>
    rw [List.foldlM_cons, eatPiece?, List.append_assoc, eatText?_eq, byteLength_append,
      ← Nat.add_assoc]
    exact ih _ hahead
  | @blanks ps bs rest' ahead hbs hahead' h ih =>
    have hskip := skipWhile_eq hbs (rest' ++ rest)
      (by rw [first?_append, hahead]; exact hahead') offset
    rw [List.foldlM_cons, eatPiece?, List.append_assoc, hskip, byteLength_append, ← Nat.add_assoc]
    exact ih _ hahead
  | @gap ps bs rest' ahead hne hbs hahead' h ih =>
    have hskip := skipWhile_eq hbs (rest' ++ rest)
      (by rw [first?_append, hahead]; exact hahead') offset
    have hpeek : (MaskedCursor.peek? ⟨bs ++ (rest' ++ rest), offset⟩).any isBlank := by
      obtain ⟨b, bs, rfl⟩ := List.exists_cons_of_ne_nil hne
      exact hbs b List.mem_cons_self
    rw [List.foldlM_cons, eatPiece?, List.append_assoc, if_pos hpeek, hskip, byteLength_append,
      ← Nat.add_assoc]
    exact ih _ hahead
  | @wordEnd ps rest' ahead hahead' h ih =>
    have hpeek : ¬ (MaskedCursor.peek? ⟨rest' ++ rest, offset⟩).any isWordChar := by
      change ¬ (first? (rest' ++ rest)).any isWordChar
      rw [first?_append, hahead]
      simpa [Option.any_eq_true] using hahead'
    rw [List.foldlM_cons, eatPiece?, if_neg hpeek]
    exact ih _ hahead

/-- What a pattern takes is what it describes. -/
theorem exists_of_eatPattern? {c c' : MaskedCursor} {ps : List PatternPiece}
    (h : c.eatPattern? ps = some c') :
    ∃ ms, Matches ps ms (first? c'.rest) ∧ c.rest = ms ++ c'.rest ∧
      c'.offset = c.offset + byteLength ms := by
  unfold eatPattern? at h
  induction ps generalizing c with
  | nil =>
    cases h
    exact ⟨[], .nil, rfl, rfl⟩
  | cons p ps ih =>
    obtain ⟨c₁, hpiece, hrest⟩ := Option.bind_eq_some_iff.1 h
    obtain ⟨ms, hms, hrest₁, hoffset₁⟩ := ih hrest
    cases p with
    | text chars =>
      obtain ⟨front, rfl, hfront, hoffset⟩ := exists_of_eatText? hpiece
      refine ⟨front ++ ms, .text front hms, ?_, ?_⟩
      · rw [hfront, hrest₁, List.append_assoc]
      · rw [hoffset₁, hoffset, byteLength_append, Nat.add_assoc]
    | blanks =>
      obtain ⟨bs, hbs, hbsrest, hoffset, hahead⟩ := exists_of_skipWhile isBlank c
      obtain rfl := Option.some.inj hpiece
      rw [hrest₁, first?_append] at hahead
      refine ⟨bs ++ ms, .blanks hbs hahead hms, ?_, ?_⟩
      · rw [hbsrest, hrest₁, List.append_assoc]
      · rw [hoffset₁, hoffset, byteLength_append, Nat.add_assoc]
    | gap =>
      simp only [eatPiece?] at hpiece
      split at hpiece
      · rename_i hpeek
        obtain ⟨bs, hbs, hbsrest, hoffset, hahead⟩ := exists_of_skipWhile isBlank c
        obtain rfl := Option.some.inj hpiece
        have hne : bs ≠ [] := by
          rintro rfl
          change (first? c.rest).any isBlank at hpeek
          rw [hbsrest, List.nil_append, Option.any_eq_true] at hpeek
          obtain ⟨a, ha, hblank⟩ := hpeek
          exact hahead a ha hblank
        rw [hrest₁, first?_append] at hahead
        refine ⟨bs ++ ms, .gap hne hbs hahead hms, ?_, ?_⟩
        · rw [hbsrest, hrest₁, List.append_assoc]
        · rw [hoffset₁, hoffset, byteLength_append, Nat.add_assoc]
      · cases hpiece
    | wordEnd =>
      simp only [eatPiece?] at hpiece
      split at hpiece
      · cases hpiece
      · rename_i hpeek
        obtain rfl := Option.some.inj hpiece
        refine ⟨ms, .wordEnd ?_ hms, hrest₁, hoffset₁⟩
        change ¬ (first? c.rest).any isWordChar at hpeek
        rw [hrest₁, first?_append] at hpeek
        simpa [Option.any_eq_true] using hpeek

theorem eatPattern?_eq_none {m : Masked} {c : Char} {text : List Char} (htext : text.head? = some c)
    (h : m.visible ≠ c) (ps : List PatternPiece) (rest : List Masked) (offset : Nat) :
    eatPattern? ⟨m :: rest, offset⟩ (.text text :: ps) = none := by
  obtain ⟨cs, rfl⟩ := List.head?_eq_some_iff.1 htext
  rw [eatPattern?, List.foldlM_cons, eatPiece?, eatText?, if_neg h]
  rfl

theorem Matches.exists_cons {c : Char} {text : List Char} (htext : text.head? = some c)
    {ps : List PatternPiece} {ms : List Masked} {ahead : Option Char}
    (h : Matches (.text text :: ps) ms ahead) : ∃ m ms', ms = m :: ms' ∧ m.visible = c := by
  obtain ⟨cs, rfl⟩ := List.head?_eq_some_iff.1 htext
  generalize hp : PatternPiece.text (c :: cs) :: ps = all at h
  cases h with
  | text front _ =>
    rw [List.cons.injEq, PatternPiece.text.injEq] at hp
    obtain ⟨m, front', rfl, hm, -⟩ := List.map_eq_cons_iff.1 hp.1.symm
    exact ⟨m, _, rfl, hm⟩
  | nil | blanks | gap | wordEnd => cases hp

/-- A pattern that starts with a text is looked for behind blanks. -/
theorem skipBlanks_eatPattern?_eq {c : Char} {text : List Char} (htext : text.head? = some c)
    (hc : ¬ isAsciiBlank c) {bs ms rest : List Masked} (hbs : AreBlank bs) {ps : List PatternPiece}
    (h : Matches (.text text :: ps) ms (first? rest)) (offset : Nat) :
    (skipBlanks ⟨bs ++ (ms ++ rest), offset⟩).eatPattern? (.text text :: ps) =
      some ⟨rest, offset + byteLength (bs ++ ms)⟩ := by
  obtain ⟨m, ms', rfl, hm⟩ := h.exists_cons htext
  rw [List.cons_append, skipBlanks_eq hbs (hm ▸ hc), ← List.cons_append, eatPattern?_eq h,
    byteLength_append, Nat.add_assoc]

theorem exists_of_skipBlanks_eatPattern? {c c' : MaskedCursor} {ps : List PatternPiece}
    (h : c.skipBlanks.eatPattern? ps = some c') :
    ∃ bs ms, AreBlank bs ∧ Matches ps ms (first? c'.rest) ∧ c.rest = bs ++ (ms ++ c'.rest) := by
  obtain ⟨ms, hms, hrest, -⟩ := exists_of_eatPattern? h
  obtain ⟨bs, hbs, hrest', -, -⟩ := exists_of_skipWhile isAsciiBlank c
  exact ⟨bs, ms, hbs, hms, hrest'.trans (congrArg (bs ++ ·) hrest)⟩

namespace Matches

variable {ps : List PatternPiece} {ms : List Masked} {ahead : Option Char}

/-- What a pattern describes looks like blanks and the texts of the pattern. -/
theorem visible_mem (h : Matches ps ms ahead) {m : Masked} (hm : m ∈ ms) :
    isBlank m.visible ∨ m.visible ∈ ps.flatMap PatternPiece.chars := by
  induction h with
  | nil => cases hm
  | text front _ ih =>
    rcases List.mem_append.1 hm with hm | hm
    · exact .inr (List.mem_append_left _ (List.mem_map_of_mem hm))
    · exact (ih hm).imp id (List.mem_append_right _)
  | blanks hbs _ _ ih | gap _ hbs _ _ ih =>
    rcases List.mem_append.1 hm with hm | hm
    · exact .inl (hbs _ hm)
    · exact ih hm
  | wordEnd _ _ ih => exact ih hm

theorem hasNoBrackets (h : Matches ps ms ahead)
    (hps : (ps.flatMap PatternPiece.chars).all (· ∉ ['(', ')', '{', '}'])) : HasNoBrackets ms := by
  intro m hm hbracket
  rcases h.visible_mem hm with hblank | hmem
  · simp only [List.mem_cons, List.not_mem_nil, or_false] at hbracket
    rcases hbracket with hc | hc | hc | hc <;> rw [hc] at hblank <;> exact absurd hblank (by decide)
  · exact List.all_iff_forall_prop.1 hps _ hmem hbracket

theorem eq_nil (h : Matches [] ms ahead) : ms = [] := by
  cases h
  rfl

/-- A pattern that ends with a parenthesis takes one, whatever is behind it. -/
theorem exists_paren (h : Matches (ps ++ [.text ['(']]) ms ahead) :
    ∃ front, ms = front ++ [⟨'(', false⟩] ∧ Matches ps front (some '(') := by
  have hor : ∀ {front rest : List Masked}, rest = front ++ [⟨'(', false⟩] →
      (first? rest).or ahead = (first? front).or (some '(') := by
    rintro front _ rfl
    cases front <;> rfl
  generalize hall : ps ++ [.text ['(']] = all at h
  induction h generalizing ps with
  | nil => simp at hall
  | @text ps' rest ahead ms h ih =>
    cases ps with
    | nil =>
      rw [List.nil_append, List.cons.injEq, PatternPiece.text.injEq] at hall
      obtain ⟨m, rest', rfl, hm, hrest'⟩ := List.map_eq_cons_iff.1 hall.1.symm
      obtain rfl := List.map_eq_nil_iff.1 hrest'
      obtain rfl := hall.2
      rw [h.eq_nil, eq_shown_of_visible hm (by decide)]
      exact ⟨[], rfl, .nil⟩
    | cons p ps =>
      obtain ⟨rfl, htail⟩ := List.cons.inj hall
      obtain ⟨front, rfl, hfront⟩ := ih hor htail
      exact ⟨ms ++ front, (List.append_assoc _ _ _).symm, .text ms hfront⟩
  | @blanks ps' bs rest ahead hbs hahead h ih =>
    cases ps with
    | nil => cases (List.cons.inj hall).1
    | cons p ps =>
      obtain ⟨rfl, htail⟩ := List.cons.inj hall
      obtain ⟨front, rfl, hfront⟩ := ih hor htail
      exact ⟨bs ++ front, (List.append_assoc _ _ _).symm, .blanks hbs (hor rfl ▸ hahead) hfront⟩
  | @gap ps' bs rest ahead hne hbs hahead h ih =>
    cases ps with
    | nil => cases (List.cons.inj hall).1
    | cons p ps =>
      obtain ⟨rfl, htail⟩ := List.cons.inj hall
      obtain ⟨front, rfl, hfront⟩ := ih hor htail
      exact ⟨bs ++ front, (List.append_assoc _ _ _).symm, .gap hne hbs (hor rfl ▸ hahead) hfront⟩
  | @wordEnd ps' rest ahead hahead h ih =>
    cases ps with
    | nil => cases (List.cons.inj hall).1
    | cons p ps =>
      obtain ⟨rfl, htail⟩ := List.cons.inj hall
      obtain ⟨front, rfl, hfront⟩ := ih hor htail
      exact ⟨front, rfl, .wordEnd (hor rfl ▸ hahead) hfront⟩

theorem append_paren (h : Matches ps ms (some '(')) (ahead : Option Char) :
    Matches (ps ++ [.text ['(']]) (ms ++ [⟨'(', false⟩]) ahead := by
  have hor : ∀ rest : List Masked, (first? (rest ++ [⟨'(', false⟩])).or ahead =
      (first? rest).or (some '(') := by
    intro rest
    cases rest <;> rfl
  generalize hparen : some '(' = paren at h
  induction h with
  | nil => exact .text [⟨'(', false⟩] .nil
  | text front _ ih =>
    rw [List.append_assoc]
    exact .text front (ih hparen)
  | blanks hbs hahead _ ih =>
    subst hparen
    rw [List.append_assoc]
    exact .blanks hbs (by rwa [hor]) (ih rfl)
  | gap hne hbs hahead _ ih =>
    subst hparen
    rw [List.append_assoc]
    exact .gap hne hbs (by rwa [hor]) (ih rfl)
  | wordEnd hahead _ ih =>
    subst hparen
    exact .wordEnd (by rwa [hor]) (ih rfl)

end Matches

end MaskedCursor

namespace Construction

open MaskedCursor

/-! ## Literals -/

/-- A literal behind blanks, and its value. -/
inductive Literal : List Masked → String → Prop
  | mk {bs body : List Masked} {m m' : Masked} : AreBlank bs →
      (m.visible = '\'' ∨ m.visible = '"' ∨ m.visible = '`') → m'.visible = m.visible →
      (∀ b ∈ body, b.visible ≠ m.visible) → ¬ (m.visible = '`' ∧ hasSubstitution body) →
      Literal (bs ++ m :: (body ++ [m'])) (.ofList (unescape (source body)))

theorem not_isAsciiBlank_of_quote {c : Char} (h : c = '\'' ∨ c = '"' ∨ c = '`') :
    ¬ isAsciiBlank c := by
  rcases h with rfl | rfl | rfl <;> decide

theorem string?_eq {ms : List Masked} {text : String} (h : Literal ms text) (rest : List Masked)
    (offset : Nat) :
    string? ⟨ms ++ rest, offset⟩ = some (text, ⟨rest, offset + byteLength ms⟩) := by
  obtain ⟨hbs, hquote, hclose, hbody, hsubstitution⟩ := h
  rename_i bs body m m'
  obtain ⟨htake, hdrop⟩ :=
    takeWhile_append_of_head (p := fun n : Masked => n.visible != m.visible) (r := m' :: rest)
      (fun b hb => by simpa using hbody b hb) (by simpa using hclose)
  unfold string?
  rw [List.append_assoc, List.cons_append, List.append_assoc, List.singleton_append,
    skipBlanks_eq hbs (not_isAsciiBlank_of_quote hquote)]
  simp only [htake, hdrop, if_pos hquote, if_neg hsubstitution]
  simp [Nat.add_assoc]

theorem exists_of_string? {c c' : MaskedCursor} {text : String}
    (h : string? c = some (text, c')) :
    ∃ ms, Literal ms text ∧ c.rest = ms ++ c'.rest ∧ c'.offset = c.offset + byteLength ms := by
  suffices hlist : ∃ ms, Literal ms text ∧ c.rest = ms ++ c'.rest by
    obtain ⟨ms, hms, hrest⟩ := hlist
    refine ⟨ms, hms, hrest, ?_⟩
    have hread := string?_eq hms c'.rest c.offset
    rw [← hrest, h] at hread
    exact congrArg (fun r => r.2.offset) (Option.some.inj hread)
  unfold string? at h
  split at h
  · cases h
  · rename_i m rest offset hskip
    obtain ⟨bs, hbs, hrest, -⟩ := exists_of_skipBlanks hskip
    simp only at h
    split at h
    · rename_i hquote
      split at h
      · cases h
      · rename_i m' after hdrop
        split at h
        · cases h
        · rename_i hsubstitution
          cases h
          have hsplit := List.takeWhile_append_dropWhile
            (p := fun n : Masked => n.visible != m.visible)
            (l := rest)
          refine ⟨_, .mk hbs hquote (?_ : m'.visible = m.visible) (fun b hb => ?_)
            hsubstitution, ?_⟩
          · have := not_of_mem_head?_dropWhile (p := fun n : Masked => n.visible != m.visible)
              (l := rest) (x := m') (by rw [hdrop]; rfl)
            simpa using this
          · simpa using List.mem_takeWhile_imp hb
          · rw [hrest, List.append_assoc, List.cons_append, List.append_assoc,
              List.singleton_append, ← hdrop, hsplit]
    · cases h

/-! ## The end of an argument list -/

/-- What stands in front of a closing parenthesis, up to it: blanks, or blanks around a comma. -/
inductive Closing : List Masked → Prop
  | plain {bs : List Masked} : AreBlank bs → Closing (bs ++ [⟨')', false⟩])
  | comma {bs bs' : List Masked} : AreBlank bs → AreBlank bs' →
      Closing (bs ++ ⟨',', false⟩ :: (bs' ++ [⟨')', false⟩]))

theorem closing_eq {ms : List Masked} (h : Closing ms) (rest : List Masked) (offset : Nat) :
    (eatComma ⟨ms ++ rest, offset⟩).eat? ')' = some ⟨rest, offset + byteLength ms⟩ := by
  cases h with
  | plain hbs =>
    rw [List.append_assoc, List.singleton_append, eatComma,
      eat?_eq_none hbs (by decide) (by decide)]
    exact eat?_shown hbs (by decide) rest offset
  | comma hbs hbs' =>
    rw [List.append_assoc, List.cons_append, List.append_assoc, List.singleton_append, eatComma,
      eat?_shown hbs (by decide), Option.getD_some, eat?_shown hbs' (by decide)]
    simp [Nat.add_assoc]

theorem exists_of_closing {c c' : MaskedCursor} (h : (eatComma c).eat? ')' = some c') :
    ∃ ms, Closing ms ∧ c.rest = ms ++ c'.rest ∧ c'.offset = c.offset + byteLength ms := by
  obtain ⟨bs, m, hbs, hm, -, hrest, hoffset⟩ := exists_of_eat? h
  obtain rfl := eq_shown_of_visible hm (by decide)
  unfold eatComma at hrest hoffset
  cases hcomma : c.eat? ',' with
  | none =>
    rw [hcomma, Option.getD_none] at hrest hoffset
    exact ⟨_, .plain hbs, by simpa using hrest, hoffset⟩
  | some c₁ =>
    rw [hcomma, Option.getD_some] at hrest hoffset
    obtain ⟨bs', m', hbs', hm', -, hrest', hoffset'⟩ := exists_of_eat? hcomma
    obtain rfl := eq_shown_of_visible hm' (by decide)
    refine ⟨_, .comma hbs' hbs, by simp [hrest', hrest], ?_⟩
    rw [hoffset, hoffset']
    simp [Nat.add_assoc]

/-! ## Objects -/

/-- How many braces are open behind masked characters, unless the last open one is closed there. -/
def level? (depth : Nat) : List Masked → Option Nat
  | [] => some depth
  | m :: ms =>
    if m.visible = '{' then level? (depth + 1) ms
    else if m.visible = '}' then if depth ≤ 1 then none else level? (depth - 1) ms
    else level? depth ms

theorem level?_append (depth : Nat) (ms ns : List Masked) :
    level? depth (ms ++ ns) = (level? depth ms).bind (level? · ns) := by
  fun_induction level? depth ms with
  | case1 => rfl
  | case2 depth m ms hopen ih => rw [List.cons_append, level?, if_pos hopen, ih]
  | case3 depth m ms hopen hclose hle =>
    rw [List.cons_append, level?, if_neg hopen, if_pos hclose, if_pos hle]
    rfl
  | case4 depth m ms hopen hclose hle ih =>
    rw [List.cons_append, level?, if_neg hopen, if_pos hclose, if_neg hle, ih]
  | case5 depth m ms hopen hclose ih =>
    rw [List.cons_append, level?, if_neg hopen, if_neg hclose, ih]

theorem level?_of_hasNoBrackets {ms : List Masked} (h : HasNoBrackets ms) (depth : Nat) :
    level? depth ms = some depth := by
  induction ms with
  | nil => rfl
  | cons m ms ih =>
    have hm := h m List.mem_cons_self
    simp only [List.mem_cons, List.not_mem_nil, or_false, not_or] at hm
    rw [level?, if_neg hm.2.2.1, if_neg hm.2.2.2]
    exact ih fun n hn => h n (List.mem_cons_of_mem m hn)

/-- More open braces around make no difference. -/
theorem level?_add {depth depth' : Nat} {ms : List Masked} (h : level? depth ms = some depth')
    (more : Nat) : level? (depth + more) ms = some (depth' + more) := by
  fun_induction level? depth ms with
  | case1 =>
    cases h
    rfl
  | case2 depth m ms hopen ih =>
    rw [level?, if_pos hopen, Nat.add_right_comm]
    exact ih h
  | case3 => cases h
  | case4 depth m ms hopen hclose hle ih =>
    rw [level?, if_neg hopen, if_pos hclose, if_neg (by omega), Nat.sub_add_comm (by omega)]
    exact ih h
  | case5 depth m ms hopen hclose ih =>
    rw [level?, if_neg hopen, if_neg hclose]
    exact ih h

theorem level?_pos {depth depth' : Nat} {ms : List Masked} (h : level? depth ms = some depth')
    (hdepth : 1 ≤ depth) : 1 ≤ depth' := by
  fun_induction level? depth ms with
  | case1 =>
    cases h
    exact hdepth
  | case2 _ _ _ _ ih => exact ih h (by omega)
  | case3 => cases h
  | case4 _ _ _ _ _ _ ih => exact ih h (by omega)
  | case5 _ _ _ _ _ ih => exact ih h hdepth

theorem objectEnd?_eq {depth depth' : Nat} {inner : List Masked}
    (h : level? depth inner = some depth')
    (hdepth' : depth' ≤ 1) (read rest : List Masked) :
    objectEnd? depth read (inner ++ ⟨'}', false⟩ :: rest) =
      some (read.reverse ++ (inner ++ [⟨'}', false⟩]), rest) := by
  fun_induction level? depth inner generalizing read with
  | case1 =>
    cases h
    simp [objectEnd?, hdepth']
  | case2 depth m ms hopen ih =>
    rw [List.cons_append, objectEnd?, if_pos hopen, ih h]
    simp
  | case3 => cases h
  | case4 depth m ms hopen hclose hle ih =>
    rw [List.cons_append, objectEnd?, if_neg hopen, if_pos hclose, if_neg hle, ih h]
    simp
  | case5 depth m ms hopen hclose ih =>
    rw [List.cons_append, objectEnd?, if_neg hopen, if_neg hclose, ih h]
    simp

theorem exists_of_objectEnd? {depth : Nat} {read ms seg rest : List Masked}
    (h : objectEnd? depth read ms = some (seg, rest)) :
    ∃ inner depth', level? depth inner = some depth' ∧ depth' ≤ 1 ∧
      ms = inner ++ ⟨'}', false⟩ :: rest := by
  fun_induction objectEnd? depth read ms with
  | case1 => cases h
  | case2 depth read m ms hopen ih =>
    obtain ⟨inner, depth', hlevel, hle, rfl⟩ := ih h
    exact ⟨m :: inner, depth', by rw [level?, if_pos hopen, hlevel], hle, rfl⟩
  | case3 depth read m ms hopen hclose hle =>
    cases h
    exact ⟨[], depth, rfl, hle, by rw [eq_shown_of_visible hclose (by decide)]; rfl⟩
  | case4 depth read m ms hopen hclose hle ih =>
    obtain ⟨inner, depth', hlevel, hle', rfl⟩ := ih h
    exact ⟨m :: inner, depth', by rw [level?, if_neg hopen, if_pos hclose, if_neg hle, hlevel],
      hle', rfl⟩
  | case5 depth read m ms hopen hclose ih =>
    obtain ⟨inner, depth', hlevel, hle', rfl⟩ := ih h
    exact ⟨m :: inner, depth', by rw [level?, if_neg hopen, if_neg hclose, hlevel], hle', rfl⟩

/-- The text of an object. -/
def objectText (inner : List Masked) : String := .ofList ('{' :: source inner ++ ['}'])

theorem object?_eq {bs inner : List Masked} (hbs : AreBlank bs) (h : level? 1 inner = some 1)
    (rest : List Masked) (offset : Nat) :
    object? ⟨bs ++ ⟨'{', false⟩ :: (inner ++ ⟨'}', false⟩ :: rest), offset⟩ =
      some (objectText inner, ⟨rest,
        offset + MaskedCursor.byteLength (bs ++ ⟨'{', false⟩ :: (inner ++ [⟨'}', false⟩]))⟩) := by
  unfold object?
  rw [skipBlanks_eq hbs (by decide)]
  simp only [peek?, List.head?_cons, Option.map_some, visible_shown, if_true]
  rw [objectEnd?, if_pos (visible_shown '{'), objectEnd?_eq h (Nat.le_refl 1)]
  simp [objectText, past, source, Nat.add_assoc]

theorem exists_of_object? {c c' : MaskedCursor} {text : String} (h : object? c = some (text, c')) :
    ∃ bs inner, AreBlank bs ∧ level? 1 inner = some 1 ∧
      c.rest = bs ++ ⟨'{', false⟩ :: (inner ++ ⟨'}', false⟩ :: c'.rest) := by
  unfold object? at h
  simp only at h
  split at h
  · rename_i hpeek
    obtain ⟨⟨seg, rest⟩, hend, hpair⟩ := Option.map_eq_some_iff.1 h
    cases hpair
    cases hskip : c.skipBlanks with
    | mk ms offset =>
      rw [hskip] at hend hpeek
      cases ms with
      | nil => cases hpeek
      | cons m ms =>
        obtain ⟨bs, hbs, hrest, -⟩ := exists_of_skipBlanks hskip
        obtain rfl := eq_shown_of_visible (Option.some.inj hpeek) (by decide)
        simp only at hend
        rw [objectEnd?, if_pos (visible_shown '{')] at hend
        obtain ⟨inner, depth', hlevel, hle, rfl⟩ := exists_of_objectEnd? hend
        have hpos := level?_pos hlevel (Nat.le_refl 1)
        obtain rfl : depth' = 1 := by omega
        exact ⟨bs, inner, hbs, hlevel, hrest⟩
  · cases h

/-! ## Argument lists -/

/-- A call of a constructor, up to its parenthesis. -/
def callFront (name : String) : List PatternPiece :=
  [.text "new".toList, .gap, .text name.toList, .blanks]

theorem newUrl_eq : newUrl = callFront "URL" ++ [.text ['(']] := rfl

theorem newWorker_eq : newWorker = callFront "Worker" ++ [.text ['(']] := rfl

/-- What says what to run, given the character behind it. -/
inductive Target : List Masked → WorkerTarget → Option Char → Prop
  | self {bs ms : List Masked} {ahead : Option Char} : AreBlank bs →
      Matches importMetaUrl ms ahead → Target (bs ++ ms) .self ahead
  | text {ms : List Masked} {text : String} {ahead : Option Char} : Literal ms text →
      Target ms (.specifier text) ahead
  | url {bs front ms bs₁ bs₂ base closing : List Masked} {text : String} {ahead : Option Char} :
      AreBlank bs → Matches (callFront "URL") front (some '(') → Literal ms text →
      AreBlank bs₁ → AreBlank bs₂ → Matches importMetaUrl base (first? closing) →
      Closing closing →
      Target (bs ++ (front ++ ⟨'(', false⟩ :: (ms ++ (bs₁ ++ ⟨',', false⟩ ::
        (bs₂ ++ (base ++ closing)))))) (.specifier text) ahead

theorem eatPattern?_newUrl_eq_none {m : Masked} (h : m.visible ≠ 'n') (rest : List Masked)
    (offset : Nat) : eatPattern? ⟨m :: rest, offset⟩ newUrl = none :=
  eatPattern?_eq_none (c := 'n') rfl h _ rest offset

theorem eatPattern?_importMetaUrl_eq_none {m : Masked} (h : m.visible ≠ 'i') (rest : List Masked)
    (offset : Nat) : eatPattern? ⟨m :: rest, offset⟩ importMetaUrl = none :=
  eatPattern?_eq_none (c := 'i') rfl h _ rest offset

theorem skipBlanks_newUrl_eq {bs front : List Masked} (hbs : AreBlank bs)
    (h : Matches (callFront "URL") front (some '(')) (rest : List Masked) (offset : Nat) :
    (skipBlanks ⟨bs ++ (front ++ ⟨'(', false⟩ :: rest), offset⟩).eatPattern? newUrl =
      some ⟨rest, offset + MaskedCursor.byteLength (bs ++ (front ++ [⟨'(', false⟩]))⟩ := by
  have := skipBlanks_eatPattern?_eq (c := 'n') rfl (by decide) hbs
    (h.append_paren (first? rest)) offset
  rwa [List.append_assoc, List.singleton_append] at this

theorem skipBlanks_importMetaUrl_eq {bs ms : List Masked} (hbs : AreBlank bs) (rest : List Masked)
    (h : Matches importMetaUrl ms (first? rest)) (offset : Nat) :
    (skipBlanks ⟨bs ++ (ms ++ rest), offset⟩).eatPattern? importMetaUrl =
      some ⟨rest, offset + MaskedCursor.byteLength (bs ++ ms)⟩ :=
  skipBlanks_eatPattern?_eq (c := 'i') rfl (by decide) hbs h offset

theorem first?_closing {closing : List Masked} (h : Closing closing) (rest : List Masked) :
    first? (closing ++ rest) = first? closing := by
  have hne : closing ≠ [] := by cases h <;> simp
  obtain ⟨m, ms, rfl⟩ := List.exists_cons_of_ne_nil hne
  rfl

theorem target?_eq {ms : List Masked} {target : WorkerTarget} (rest : List Masked)
    (h : Target ms target (first? rest)) (offset : Nat) :
    target? ⟨ms ++ rest, offset⟩ = some (target, ⟨rest, offset + MaskedCursor.byteLength ms⟩) := by
  generalize hahead : first? rest = ahead at h
  cases h with
  | @self bs ms _ hbs hms =>
    subst hahead
    have hmeta := skipBlanks_importMetaUrl_eq hbs rest hms offset
    obtain ⟨m, ms', rfl, hm⟩ := hms.exists_cons (c := 'i') rfl
    have hskip := skipBlanks_eq hbs (m := m) (by rw [hm]; decide) (ms' ++ rest) offset
    rw [List.append_assoc, List.cons_append, target?]
    rw [List.cons_append] at hmeta
    rw [hmeta, hskip, eatPattern?_newUrl_eq_none (by rw [hm]; decide)]
  | text htext =>
    have hread := string?_eq htext rest offset
    cases htext with
    | @mk bs body m m' hbs hquote =>
      have hn : m.visible ≠ 'n' := by rcases hquote with hq | hq | hq <;> rw [hq] <;> decide
      have hi : m.visible ≠ 'i' := by rcases hquote with hq | hq | hq <;> rw [hq] <;> decide
      rw [List.append_assoc, List.cons_append] at hread ⊢
      rw [target?, skipBlanks_eq hbs (not_isAsciiBlank_of_quote hquote),
        eatPattern?_newUrl_eq_none hn]
      simp only
      rw [eatPattern?_importMetaUrl_eq_none hi]
      simp only
      rw [hread]
      rfl
  | @url bs front ms bs₁ bs₂ base closing text _ hbs hfront hms hbs₁ hbs₂ hbase hclosing =>
    have hmeta := skipBlanks_importMetaUrl_eq hbs₂ (closing ++ rest)
      ((first?_closing hclosing rest).symm ▸ hbase)
    simp only [List.append_assoc, List.cons_append]
    rw [target?, skipBlanks_newUrl_eq hbs hfront]
    simp only [Option.bind_eq_bind]
    rw [string?_eq hms, Option.bind_some]
    simp only
    rw [eat?_shown hbs₁ (by decide), Option.bind_some, hmeta, Option.bind_some, closing_eq hclosing]
    simp [Nat.add_assoc]

theorem exists_of_target? {c c' : MaskedCursor} {target : WorkerTarget}
    (h : target? c = some (target, c')) :
    ∃ ms, Target ms target (first? c'.rest) ∧ c.rest = ms ++ c'.rest := by
  unfold target? at h
  split at h
  · rename_i c₁ hurl
    simp only [Option.bind_eq_bind, Option.bind_eq_some_iff, Option.pure_def, Option.some.injEq,
      Prod.mk.injEq] at h
    obtain ⟨⟨text, c₂⟩, hstring, c₃, hcomma, c₄, hmeta, c₅, hclose, rfl, rfl⟩ := h
    obtain ⟨bs, ms, hbs, hms, hrest⟩ := exists_of_skipBlanks_eatPattern? hurl
    rw [newUrl_eq] at hms
    obtain ⟨front, rfl, hfront⟩ := hms.exists_paren
    obtain ⟨lit, hlit, hrest₁, -⟩ := exists_of_string? hstring
    obtain ⟨bs₁, m, hbs₁, hm, -, hrest₂, -⟩ := exists_of_eat? hcomma
    obtain rfl := eq_shown_of_visible hm (by decide)
    obtain ⟨bs₂, base, hbs₂, hbase, hrest₃⟩ := exists_of_skipBlanks_eatPattern? hmeta
    obtain ⟨closing, hclosing, hrest₄, -⟩ := exists_of_closing hclose
    rw [hrest₄, first?_closing hclosing] at hbase
    refine ⟨_, .url hbs hfront hlit hbs₁ hbs₂ hbase hclosing, ?_⟩
    · rw [hrest, hrest₁, hrest₂, hrest₃, hrest₄]
      simp
  · split at h
    · rename_i c₁ hmeta
      cases h
      obtain ⟨bs, ms, hbs, hms, hrest⟩ := exists_of_skipBlanks_eatPattern? hmeta
      exact ⟨_, .self hbs hms, hrest.trans (List.append_assoc _ _ _).symm⟩
    · obtain ⟨⟨text, c₁⟩, hstring, hpair⟩ := Option.map_eq_some_iff.1 h
      cases hpair
      obtain ⟨ms, hms, hrest, -⟩ := exists_of_string? hstring
      exact ⟨ms, .text hms, hrest⟩

/-- What stands in front of the braces of the options. -/
inductive Front : List Masked → WorkerTarget → Prop
  | mk {ms bs bs' : List Masked} {target : WorkerTarget} : AreBlank bs → AreBlank bs' →
      Target ms target (first? (bs ++ [⟨',', false⟩])) →
      Front (ms ++ (bs ++ ⟨',', false⟩ :: bs')) target

/-- The masked characters of an argument list with options, up to the parenthesis. -/
def argumentList (front inner closing : List Masked) : List Masked :=
  front ++ ⟨'{', false⟩ :: (inner ++ ⟨'}', false⟩ :: closing)

/-- An argument list is read whatever the object has in it, as long as its braces are balanced. -/
theorem arguments?_eq {front inner closing : List Masked} {target : WorkerTarget}
    (hfront : Front front target) (hinner : level? 1 inner = some 1) (hclosing : Closing closing)
    (rest : List Masked) (offset : Nat) :
    arguments? ⟨argumentList front inner closing ++ rest, offset⟩ =
      some ⟨offset, offset + MaskedCursor.byteLength (argumentList front inner closing) - 1, target,
        some (objectText inner)⟩ := by
  obtain ⟨hbs, hbs', htarget⟩ := hfront
  rename_i ms bs bs'
  have hread := target?_eq (bs ++ ⟨',', false⟩ :: (bs' ++ ⟨'{', false⟩ ::
    (inner ++ ⟨'}', false⟩ :: (closing ++ rest))))
    (by convert htarget using 1; cases bs <;> rfl) offset
  simp only [argumentList, List.append_assoc, List.cons_append]
  unfold arguments?
  rw [hread]
  simp only [Option.bind_eq_bind, Option.bind_some]
  unfold options?
  rw [eat?_shown hbs (by decide)]
  simp only
  rw [skipBlanks_eq hbs' (by decide), if_neg (by simp [peek?]), object?_eq hbs' hinner]
  simp only [Option.map_some, Option.bind_some]
  rw [closing_eq hclosing]
  simp [Nat.add_assoc]

/-- An argument list with options is a front, an object with balanced braces, and an end. -/
theorem exists_of_arguments? {c : MaskedCursor} {w : Construction} {options : String}
    (h : arguments? c = some w) (hoptions : w.options = some options) :
    ∃ front inner closing rest, Front front w.target ∧ level? 1 inner = some 1 ∧ Closing closing ∧
      c.rest = argumentList front inner closing ++ rest := by
  unfold arguments? at h
  simp only [Option.bind_eq_bind, Option.bind_eq_some_iff, Option.pure_def, Option.some.injEq] at h
  obtain ⟨⟨target, c₁⟩, htarget, ⟨options', c₂⟩, hread, close, hclose, rfl⟩ := h
  obtain ⟨ms, hms, hrest₁⟩ := exists_of_target? htarget
  simp only at hoptions
  subst hoptions
  unfold options? at hread
  split at hread
  · cases hread
  · rename_i c₃ hcomma
    split at hread
    · cases hread
    · obtain ⟨⟨text, c₄⟩, hobject, hpair⟩ := Option.map_eq_some_iff.1 hread
      cases hpair
      obtain ⟨bs, m, hbs, hm, -, hrest₂, -⟩ := exists_of_eat? hcomma
      obtain rfl := eq_shown_of_visible hm (by decide)
      obtain ⟨bs', inner, hbs', hinner, hrest₃⟩ := exists_of_object? hobject
      obtain ⟨closing, hclosing, hrest₄, -⟩ := exists_of_closing hclose
      have hfirst : first? c₁.rest = first? (bs ++ [⟨',', false⟩]) := by
        rw [hrest₂]
        cases bs <;> rfl
      refine ⟨_, inner, closing, close.rest, .mk hbs hbs' (hfirst ▸ hms), hinner, hclosing, ?_⟩
      rw [hrest₁, hrest₂, hrest₃, hrest₄]
      simp [argumentList]

end Construction

end ModuleWorkers
