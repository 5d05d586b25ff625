import ModuleWorkers.Proofs.Worker.Rewritten

/-!
# Masks of nested literals

Code is nested in braces and in the substitutions of templates, to any depth (`Masking.Code`). The
reader tells a brace that ends a substitution from one that ends a group by how deep in braces it
is: it comes out of both as deep as it went in (`Masking.Code.crosses`), so no brace in a
substitution is as deep as the substitution itself. Hence exactly the bodies of strings, the texts
of templates and the comments are hidden (`Masking.Code.mask_text`).
-/

namespace ModuleWorkers

open Text Masked

namespace Masking

/-! ## Texts of literals -/

/-- What a string has between its quotes. -/
inductive StringText (quote : Char) : List Char → Prop
  | nil : StringText quote []
  | escape (c : Char) {cs : List Char} : StringText quote cs → StringText quote ('\\' :: c :: cs)
  | plain {c : Char} {cs : List Char} : c ∉ [quote, '\\', '\n'] → StringText quote cs →
      StringText quote (c :: cs)

/-- What a template has in front of its end or its next substitution. -/
inductive TemplateText : List Char → Prop
  | nil : TemplateText []
  | escape (c : Char) {cs : List Char} : TemplateText cs → TemplateText ('\\' :: c :: cs)
  | plain {c : Char} {cs : List Char} : c ∉ ['`', '\\'] → (c = '$' → cs.head? ≠ some '{') →
      TemplateText cs → TemplateText (c :: cs)

theorem StringText.stringBody_eq {quote : Char} {body : List Char} (h : StringText quote body)
    (hquote : quote = '\'' ∨ quote = '"') (read rest : List Char) :
    stringBody quote read (body ++ quote :: rest) = some (read.reverse ++ body, rest) := by
  induction h generalizing read with
  | nil =>
    have hne : quote ≠ '\\' ∧ quote ≠ '\n' := by rcases hquote with rfl | rfl <;> decide
    rw [List.nil_append, stringBody_cons hne.1, if_neg hne.2, if_pos rfl, List.append_nil]
  | escape c _ ih =>
    rw [List.cons_append, List.cons_append, stringBody_escape, ih]
    simp
  | plain hc _ ih =>
    simp only [List.mem_cons, List.not_mem_nil, or_false, not_or] at hc
    rw [List.cons_append, stringBody_cons hc.2.1, if_neg hc.2.2, if_neg hc.1, ih]
    simp

theorem TemplateText.templateText_eq {text : List Char} (h : TemplateText text) (ends : Bool)
    (read rest : List Char) :
    templateText read (text ++ (templateEnd ends ++ rest)) =
      some (read.reverse ++ text, ends, rest) := by
  induction h generalizing read with
  | nil => cases ends <;> simp [templateEnd, templateText]
  | escape c _ ih =>
    rw [List.cons_append, List.cons_append, templateText, ih]
    simp
  | @plain c cs hc hdollar _ ih =>
    simp only [List.mem_cons, List.not_mem_nil, or_false, not_or] at hc
    -- A dollar sign at the end of the text is followed by a backtick or another dollar sign.
    have hbrace : ∀ ds, c = '$' → cs ++ (templateEnd ends ++ rest) = '{' :: ds → False := by
      intro ds hc hds
      cases cs with
      | nil => cases ends <;> exact absurd (List.cons.inj hds).1 (by decide)
      | cons d cs => exact hdollar hc (congrArg some (List.cons.inj hds).1)
    rw [List.cons_append, templateText, ih]
    · simp
    · exact fun h => absurd h hc.2
    · exact fun d ds h => absurd h hc.2
    · exact fun h => absurd h hc.1
    · exact hbrace

/-- A block comment ends where its end first stands. -/
theorem cut?_close {body : List Char} (h : ¬ ['*', '/'] <:+: body) (rest : List Char) :
    cut? ['*', '/'] (body ++ '*' :: '/' :: rest) = some (body, rest) := by
  induction body with
  | nil => rfl
  | cons c body ih =>
    have hnot : ¬ ['*', '/'].isPrefixOf (c :: (body ++ '*' :: '/' :: rest)) := by
      intro hprefix
      obtain ⟨tail, htail⟩ := List.isPrefixOf_iff_prefix.1 hprefix
      obtain ⟨hc, hrest⟩ := List.cons.inj htail
      cases body with
      | nil => exact absurd (List.cons.inj hrest).1 (by decide)
      | cons d body =>
        obtain ⟨hd, -⟩ := List.cons.inj hrest
        exact h ⟨[], body, by rw [← hc, ← hd]; rfl⟩
    rw [List.cons_append, cut?, if_neg hnot, ih fun hinfix => h (List.infix_cons hinfix)]
    rfl

/-! ## Code -/

/-- A character that is neither part of a literal or comment nor a brace. -/
def IsPlain (c : Char) : Prop := c ∉ ['\'', '"', '`', '/', '{', '}']

instance (c : Char) : Decidable (IsPlain c) := inferInstanceAs (Decidable (c ∉ _))

mutual

/-- Code with literals, comments and groups in braces. -/
inductive Code
  | nil
  | plain (c : Char) (h : IsPlain c) (rest : Code)
  | group (inner rest : Code)
  | string (quote : Char) (hquote : quote = '\'' ∨ quote = '"') (body : List Char)
    (h : StringText quote body) (rest : Code)
  /-- A comment up to the end of its line, which is not the end of the code. -/
  | lineComment (line : List Char) (h : '\n' ∉ line) (rest : Code)
  | blockComment (body : List Char) (h : ¬ ['*', '/'] <:+: body) (rest : Code)
  | template (t : Template) (rest : Code)

/-- The rest of a template, behind its opening backtick or behind a substitution. -/
inductive Template
  | last (text : List Char) (h : TemplateText text)
  | substitution (text : List Char) (h : TemplateText text) (inner : Code) (rest : Template)

end

section Spell

variable {α β : Type} (code hidden : List Char → List α)

mutual

/-- Writes code in one way, and bodies of strings, texts of templates and comments in another. -/
def Code.spell : Code → List α
  | .nil => []
  | .plain c _ rest => code [c] ++ rest.spell
  | .group inner rest => code ['{'] ++ (inner.spell ++ (code ['}'] ++ rest.spell))
  | .string quote _ body _ rest => code [quote] ++ (hidden body ++ (code [quote] ++ rest.spell))
  | .lineComment line _ rest => hidden ('/' :: '/' :: line) ++ (code ['\n'] ++ rest.spell)
  | .blockComment body _ rest => hidden ('/' :: '*' :: (body ++ ['*', '/'])) ++ rest.spell
  | .template t rest => code ['`'] ++ (t.spell ++ rest.spell)

def Template.spell : Template → List α
  | .last text _ => hidden text ++ code ['`']
  | .substitution text _ inner rest =>
    hidden text ++ (code ['$', '{'] ++ (inner.spell ++ (code ['}'] ++ rest.spell)))

end

variable {code hidden} {f : List α → List β} (happend : ∀ as bs, f (as ++ bs) = f as ++ f bs)

include happend

mutual

/-- A function that goes along with `++` goes along with the spelling of code. -/
theorem Code.map_spell : ∀ c : Code,
    f (c.spell code hidden) = c.spell (fun cs => f (code cs)) (fun cs => f (hidden cs))
  | .nil => List.self_eq_append_right.1 (happend [] [])
  | .plain _ _ rest => by simp only [Code.spell, happend, rest.map_spell]
  | .group inner rest => by simp only [Code.spell, happend, inner.map_spell, rest.map_spell]
  | .string _ _ _ _ rest => by simp only [Code.spell, happend, rest.map_spell]
  | .lineComment _ _ rest => by simp only [Code.spell, happend, rest.map_spell]
  | .blockComment _ _ rest => by simp only [Code.spell, happend, rest.map_spell]
  | .template t rest => by simp only [Code.spell, happend, t.map_spell, rest.map_spell]

theorem Template.map_spell : ∀ t : Template,
    f (t.spell code hidden) = t.spell (fun cs => f (code cs)) (fun cs => f (hidden cs))
  | .last _ _ => by simp only [Template.spell, happend]
  | .substitution _ _ inner rest => by
    simp only [Template.spell, happend, inner.map_spell, rest.map_spell]

end

end Spell

/-- The text of code. -/
def Code.text (c : Code) : List Char := c.spell id id

/-- Code with blanks in the place of the bodies of strings, texts of templates and comments. -/
def Code.blanked (c : Code) : List Char := c.spell id blanks

def Code.masked (c : Code) : List Masked := c.spell shown veiled

def Template.text (t : Template) : List Char := t.spell id id

def Template.masked (t : Template) : List Masked := t.spell shown veiled

theorem Code.flatMap_written_masked (c : Code) : c.masked.flatMap Masked.written = c.blanked := by
  rw [masked, c.map_spell (f := List.flatMap Masked.written) fun _ _ => List.flatMap_append]
  simp only [flatMap_written_shown, flatMap_written_veiled]
  rfl

/-! ## Going through code -/

namespace State

/-- How deep in templates and braces a place is. -/
def level (s : State) : List (Nat × Nat) × Nat := (s.templates, s.depth)

/-- Whether a place is at least as deep in braces as the substitution around it. -/
def IsWithin (s : State) : Prop := ∀ t ∈ s.templates.head?, t.1 ≤ s.depth

/-- Whether reading gets over a stretch, and comes out as deep as it went in. -/
def Crosses (s : State) (cs : List Char) (ms : List Masked) (rest : List Char) : Prop :=
  ∃ s', Passes s cs ms s' rest ∧ s'.level = s.level

/-- Whether reading gets over the rest of a template, and comes out as deep as it went in. -/
def CrossesTemplate (s : State) (start : Nat) (cs : List Char) (ms : List Masked)
    (rest : List Char) : Prop :=
  ∃ s₁ cs₁ u v s', s.template start cs = .ok (s₁, cs₁) ∧ s₁.done = u.reverse ++ s.done ∧
    ms = u ++ v ∧ Passes s₁ cs₁ v s' rest ∧ s'.level = s.level

variable {s s₁ : State} {cs tail rest : List Char} {ms : List Masked}

theorem templates_eq_of_level (h : s₁.level = s.level) : s₁.templates = s.templates :=
  congrArg Prod.fst h

theorem depth_eq_of_level (h : s₁.level = s.level) : s₁.depth = s.depth := congrArg Prod.snd h

theorem IsWithin.of_level (h : s.IsWithin) (hlevel : s₁.level = s.level) : s₁.IsWithin := by
  rwa [IsWithin, templates_eq_of_level hlevel, depth_eq_of_level hlevel]

/-- A token that changes nothing around, and what stands behind it. -/
theorem Crosses.step {c : Char} {t : List Masked} (hnext : s.next c cs = .ok (s₁, tail))
    (hdone : s₁.done = t.reverse ++ s.done) (hlevel : s₁.level = s.level)
    (h : ∀ s₁ : State, s₁.level = s.level → s₁.Crosses tail ms rest) :
    s.Crosses (c :: cs) (t ++ ms) rest := by
  obtain ⟨s', hp, hlevel'⟩ := h s₁ hlevel
  exact ⟨s', .step hnext hdone hp, hlevel'.trans hlevel⟩

/-- Plain characters start a word or a sign of plain characters. -/
theorem exists_next_of_isPlain {c : Char} {p : List Char} (hc : IsPlain c)
    (htail : ∀ d ∈ tail.head?, ¬ IsPlain d) :
    ∃ s₁ q p', p = q ++ p' ∧ s.next c (p ++ tail) = .ok (s₁, p' ++ tail) ∧
      s₁.done = (shown (c :: q)).reverse ++ s.done ∧ s₁.level = s.level := by
  have hplain := hc
  simp only [IsPlain, List.mem_cons, List.not_mem_nil, or_false, not_or] at hc
  obtain ⟨hquote, hdouble, htick, hslash, hopen, hclose⟩ := hc
  have hnext : s.next c (p ++ tail) =
      .ok (if isWordPart c then s.word c (p ++ tail) else s.sign c (p ++ tail)) := by
    simp only [State.next, hquote, hdouble, htick, hslash, hclose, or_self, if_false]
    split <;> rfl
  rw [hnext]
  split
  · -- The word does not go on behind the plain characters.
    have hword : ∀ d ∈ p.takeWhile isWordPart, isWordPart d := fun d hd =>
      List.mem_takeWhile_imp hd
    have hend : ∀ d ∈ (p.dropWhile isWordPart ++ tail).head?, ¬ isWordPart d := by
      intro d hd
      rw [List.head?_append, Option.mem_def, Option.or_eq_some_iff] at hd
      rcases hd with hd | ⟨-, hd⟩
      · exact not_of_mem_head?_dropWhile hd
      · have hnot := htail d hd
        simp only [IsPlain, Decidable.not_not, List.mem_cons, List.not_mem_nil, or_false] at hnot
        rcases hnot with rfl | rfl | rfl | rfl | rfl | rfl <;> decide
    obtain ⟨htake, hdrop⟩ := takeWhile_append_of_head hword hend
    rw [← List.append_assoc, List.takeWhile_append_dropWhile] at htake hdrop
    refine ⟨(s.word c (p ++ tail)).1, _, _,
      (List.takeWhile_append_dropWhile (p := isWordPart)).symm, ?_, ?_, rfl⟩
    · simp only [State.word, hdrop]
    · simp only [State.word, htake]
      exact done_keep _ _
  · unfold State.sign
    rw [if_neg hopen]
    split
    · rename_i htwice
      obtain ⟨p', rfl⟩ : ∃ p', p = c :: p' := by
        cases p with
        | nil => exact absurd hplain (htail c htwice.2)
        | cons d p' => exact ⟨p', congrArg (· :: p') (Option.some.inj htwice.2)⟩
      exact ⟨_, [c], p', rfl, rfl, done_keep _ _, rfl⟩
    · split_ifs <;> exact ⟨_, [], p, rfl, rfl, done_keep _ _, rfl⟩

/-- Plain characters in front of something else. -/
theorem Crosses.plain {p : List Char} (hp : ∀ c ∈ p, IsPlain c) (tail : List Char)
    (htail : ∀ d ∈ tail.head?, ¬ IsPlain d)
    (h : ∀ s₁ : State, s₁.level = s.level → s₁.Crosses tail ms rest) :
    s.Crosses (p ++ tail) (shown p ++ ms) rest := by
  induction hn : p.length using Nat.strongRecOn generalizing s p with
  | ind n ih =>
    cases p with
    | nil => exact h s rfl
    | cons c p =>
      obtain ⟨s₁, q, p', rfl, hnext, hdone, hlevel⟩ :=
        exists_next_of_isPlain (s := s) (p := p) (hp c List.mem_cons_self) htail
      have hlt : p'.length < n := by
        rw [← hn, List.length_cons, List.length_append]
        omega
      have hp' : ∀ d ∈ p', IsPlain d := fun d hd => hp d (by simp [hd])
      have := Crosses.step hnext hdone hlevel fun s₂ hs₂ =>
        ih p'.length hlt hp' (fun s₃ hs₃ => h s₃ (hs₃.trans hs₂)) rfl
      simpa [shown] using this

theorem Crosses.string {quote : Char} (hquote : quote = '\'' ∨ quote = '"') {body : List Char}
    (hbody : StringText quote body)
    (h : ∀ s₁ : State, s₁.level = s.level → s₁.Crosses tail ms rest) :
    s.Crosses (quote :: (body ++ quote :: tail))
      (⟨quote, false⟩ :: (veiled body ++ ⟨quote, false⟩ :: ms)) rest := by
  have hslash : quote ≠ '/' := by rcases hquote with rfl | rfl <;> decide
  have hnext : s.next quote (body ++ quote :: tail) =
      .ok ((((s.keep [quote]).hide body).keep [quote]).before false, tail) := by
    rw [State.next, if_neg hslash, if_pos hquote, State.string, hbody.stringBody_eq hquote]
    rfl
  have := Crosses.step (t := ⟨quote, false⟩ :: (veiled body ++ [⟨quote, false⟩])) hnext
    (by simp [shown]) rfl h
  simpa using this

theorem Crosses.lineComment {line : List Char} (hline : '\n' ∉ line)
    (h : ∀ s₁ : State, s₁.level = s.level → s₁.Crosses ('\n' :: tail) ms rest) :
    s.Crosses ('/' :: '/' :: (line ++ '\n' :: tail)) (veiled ('/' :: '/' :: line) ++ ms) rest :=
  Crosses.step (s.next_lineComment hline (by simp)) (done_hide _ _) rfl h

theorem Crosses.blockComment {body : List Char} (hbody : ¬ ['*', '/'] <:+: body)
    (h : ∀ s₁ : State, s₁.level = s.level → s₁.Crosses tail ms rest) :
    s.Crosses ('/' :: '*' :: (body ++ '*' :: '/' :: tail))
      (veiled ('/' :: '*' :: (body ++ ['*', '/'])) ++ ms) rest := by
  have hnext : s.next '/' ('*' :: (body ++ '*' :: '/' :: tail)) =
      .ok (s.hide ('/' :: '*' :: (body ++ ['*', '/'])), tail) := by
    rw [State.next, if_pos rfl, State.slash, cut?_close hbody]
    rfl
  exact Crosses.step hnext (done_hide _ _) rfl h

theorem Crosses.group {inner : List Char} {ms' : List Masked} (hs : s.IsWithin)
    (hinner : ∀ s₁ : State, s₁.IsWithin → s₁.Crosses (inner ++ '}' :: tail) ms' ('}' :: tail))
    (h : ∀ s₁ : State, s₁.level = s.level → s₁.Crosses tail ms rest) :
    s.Crosses ('{' :: (inner ++ '}' :: tail)) (⟨'{', false⟩ :: (ms' ++ ⟨'}', false⟩ :: ms))
      rest := by
  obtain ⟨s₁, hp₁, hs₁⟩ := exists_passes_openBrace s (inner ++ '}' :: tail)
  have hlevel₁ : s₁.level = (s.templates, s.depth + 1) :=
    congrArg (fun n : Nesting => (n.templates, n.depth)) hs₁
  have hwithin : s₁.IsWithin := by
    intro t ht
    obtain ⟨htemplates, hdepth⟩ := Prod.mk.inj hlevel₁
    rw [hdepth]
    exact Nat.le_succ_of_le (hs t (htemplates ▸ ht))
  obtain ⟨s₂, hp₂, hlevel₂⟩ := hinner s₁ hwithin
  obtain ⟨htemplates₂, hdepth₂⟩ := Prod.mk.inj (hlevel₂.trans hlevel₁)
  -- The brace is deeper than the substitution around, so it does not end it.
  obtain ⟨s₃, hp₃, hs₃⟩ := exists_passes_closeBrace (s := s₂) tail fun t ht => by
    have hle : t.1 ≤ s.depth := hs t (htemplates₂ ▸ ht)
    change t.1 ≠ s₂.depth
    omega
  have hlevel₃ : s₃.level = s.level := by
    have : s₃.level = (s₂.templates, s₂.depth - 1) :=
      congrArg (fun n : Nesting => (n.templates, n.depth)) hs₃
    rw [this, htemplates₂, hdepth₂, Nat.add_sub_cancel, level]
  obtain ⟨s₄, hp₄, hlevel₄⟩ := h s₃ hlevel₃
  refine ⟨s₄, ?_, hlevel₄.trans hlevel₃⟩
  have := ((hp₁.trans hp₂).trans hp₃).trans hp₄
  simpa using this

theorem exists_template {text : List Char} (htext : TemplateText text) (start : Nat) (ends : Bool)
    (tail : List Char) :
    ∃ s₁, s.template start (text ++ (templateEnd ends ++ tail)) = .ok (s₁, tail) ∧
      s₁.done = (veiled text ++ shown (templateEnd ends)).reverse ++ s.done ∧
      s₁.level = (if ends then s.templates else (s.depth, start) :: s.templates, s.depth) := by
  rw [State.template, htext.templateText_eq]
  cases ends
  · exact ⟨_, rfl, by simp [templateEnd], rfl⟩
  · exact ⟨_, rfl, by simp [templateEnd], rfl⟩

theorem CrossesTemplate.last {text : List Char} (htext : TemplateText text) (start : Nat)
    (rest : List Char) :
    s.CrossesTemplate start (text ++ '`' :: rest) (veiled text ++ [⟨'`', false⟩]) rest := by
  obtain ⟨s₁, hnext, hdone, hlevel⟩ := exists_template (s := s) htext start true rest
  exact ⟨s₁, rest, _, [], s₁, hnext, hdone, (List.append_nil _).symm, .refl _ _, hlevel⟩

theorem CrossesTemplate.substitution {text inner : List Char} {ms' : List Masked}
    (htext : TemplateText text) (start : Nat) (tail : List Char)
    (hinner : ∀ s₁ : State, s₁.IsWithin → s₁.Crosses (inner ++ '}' :: tail) ms' ('}' :: tail))
    (h : ∀ s₁ : State, s₁.CrossesTemplate start tail ms rest) :
    s.CrossesTemplate start (text ++ '$' :: '{' :: (inner ++ '}' :: tail))
      (veiled text ++ ⟨'$', false⟩ :: ⟨'{', false⟩ :: (ms' ++ ⟨'}', false⟩ :: ms)) rest := by
  obtain ⟨s₁, hnext, hdone, hlevel₁⟩ :=
    exists_template (s := s) htext start false (inner ++ '}' :: tail)
  have hwithin : s₁.IsWithin := by
    intro t ht
    obtain ⟨htemplates, hdepth⟩ := Prod.mk.inj hlevel₁
    rw [htemplates] at ht
    cases ht
    exact Nat.le_of_eq hdepth.symm
  obtain ⟨s₂, hp₂, hlevel₂⟩ := hinner s₁ hwithin
  obtain ⟨htemplates₂, hdepth₂⟩ := Prod.mk.inj (hlevel₂.trans hlevel₁)
  -- The brace is as deep as the substitution, so it ends it.
  obtain ⟨s₃, cs₃, u, v, s₄, htext₃, hdone₃, rfl, hp₄, hlevel₄⟩ :=
    h { s₂.keep ['}'] with templates := s.templates }
  have hclose : s₂.next '}' tail = .ok (s₃, cs₃) := by
    rw [← htext₃]
    change s₂.closeBrace tail = _
    rw [State.closeBrace, htemplates₂]
    exact if_pos hdepth₂.symm
  have hlast : Passes s₂ ('}' :: tail) (⟨'}', false⟩ :: u ++ v) s₄ rest := by
    refine .step hclose ?_ hp₄
    rw [hdone₃, List.reverse_cons, List.append_assoc]
    rfl
  have hlevel : s₄.level = s.level := by
    rw [hlevel₄, level, level]
    exact congrArg (Prod.mk s.templates) hdepth₂
  refine ⟨s₁, _, _, _, s₄, hnext, hdone, ?_, hp₂.trans hlast, hlevel⟩
  simp [templateEnd, shown]

theorem Crosses.template {ms' : List Masked} {cs₁ : List Char}
    (ht : ∀ (s₁ : State) (start : Nat), s₁.CrossesTemplate start cs ms' cs₁)
    (h : ∀ s₁ : State, s₁.level = s.level → s₁.Crosses cs₁ ms rest) :
    s.Crosses ('`' :: cs) (⟨'`', false⟩ :: (ms' ++ ms)) rest := by
  obtain ⟨s₁, cs₂, u, v, s₂, hnext, hdone, rfl, hp, hlevel⟩ := ht (s.keep ['`']) s.offset
  obtain ⟨s₃, hp₃, hlevel₃⟩ := h s₂ hlevel
  have hfirst : Passes s ('`' :: cs) (⟨'`', false⟩ :: u ++ v) s₂ cs₁ := by
    refine .step hnext ?_ hp
    rw [hdone, List.reverse_cons, List.append_assoc]
    rfl
  exact ⟨s₃, hfirst.trans hp₃, hlevel₃.trans hlevel⟩

end State

mutual

/-- Reading gets over code, and over plain characters in front of it: a word may start in these and
go on in the code. -/
theorem Code.crosses : ∀ (c : Code) {s : State} {p rest : List Char}, s.IsWithin →
    (∀ d ∈ p, IsPlain d) → (∀ d ∈ rest.head?, ¬ IsPlain d) →
    s.Crosses (p ++ (c.text ++ rest)) (shown p ++ c.masked) rest
  | .nil, _, _, _, _, hp, hrest => .plain hp _ hrest fun s₁ _ => ⟨s₁, .refl _ _, rfl⟩
  | .plain d hd c, s, p, rest, hs, hp, hrest => by
    have hfront : ∀ e ∈ p ++ [d], IsPlain e :=
      List.forall_mem_append.2 ⟨hp, List.forall_mem_singleton.2 hd⟩
    have := c.crosses hs hfront hrest
    simpa [Code.text, Code.masked, Code.spell, shown] using this
  | .group inner c, s, p, rest, hs, hp, hrest => by
    have := State.Crosses.plain (s := s) hp ('{' :: (inner.text ++ '}' :: (c.text ++ rest)))
      (by simp [IsPlain]) fun s₁ h₁ => .group (hs.of_level h₁)
        (fun s₂ hs₂ => inner.crosses (p := []) hs₂ nofun (by simp [IsPlain]))
        fun s₂ h₂ => c.crosses (p := []) (hs.of_level (h₂.trans h₁)) nofun hrest
    simpa [Code.text, Code.masked, Code.spell, shown] using this
  | .string quote hquote body hbody c, s, p, rest, hs, hp, hrest => by
    have hnot : ¬ IsPlain quote := by rcases hquote with rfl | rfl <;> decide
    have := State.Crosses.plain (s := s) hp (quote :: (body ++ quote :: (c.text ++ rest)))
      (by simpa using hnot) fun s₁ h₁ => .string hquote hbody
        fun s₂ h₂ => c.crosses (p := []) (hs.of_level (h₂.trans h₁)) nofun hrest
    simpa [Code.text, Code.masked, Code.spell, shown] using this
  | .lineComment line hline c, s, p, rest, hs, hp, hrest => by
    have := State.Crosses.plain (s := s) hp
      ('/' :: '/' :: (line ++ '\n' :: (c.text ++ rest))) (by simp [IsPlain])
      fun s₁ h₁ => .lineComment hline
        fun s₂ h₂ => c.crosses (p := ['\n']) (hs.of_level (h₂.trans h₁)) (by simp [IsPlain]) hrest
    simpa [Code.text, Code.masked, Code.spell, shown, veiled] using this
  | .blockComment body hbody c, s, p, rest, hs, hp, hrest => by
    have := State.Crosses.plain (s := s) hp
      ('/' :: '*' :: (body ++ '*' :: '/' :: (c.text ++ rest))) (by simp [IsPlain])
      fun s₁ h₁ => .blockComment hbody
        fun s₂ h₂ => c.crosses (p := []) (hs.of_level (h₂.trans h₁)) nofun hrest
    simpa [Code.text, Code.masked, Code.spell, shown, veiled] using this
  | .template t c, s, p, rest, hs, hp, hrest => by
    have := State.Crosses.plain (s := s) hp ('`' :: (t.text ++ (c.text ++ rest)))
      (by simp [IsPlain]) fun s₁ h₁ => .template (fun _ _ => t.crosses)
        fun s₂ h₂ => c.crosses (p := []) (hs.of_level (h₂.trans h₁)) nofun hrest
    simpa [Code.text, Code.masked, Template.text, Template.masked, Code.spell, shown] using this

/-- Reading gets over the rest of a template, in front of whatever follows it. -/
theorem Template.crosses : ∀ (t : Template) {s : State} {start : Nat} {rest : List Char},
    s.CrossesTemplate start (t.text ++ rest) t.masked rest
  | .last text htext, s, start, rest => by
    have := State.CrossesTemplate.last (s := s) htext start rest
    simpa [Template.text, Template.masked, Template.spell, shown] using this
  | .substitution text htext inner t, s, start, rest => by
    have := State.CrossesTemplate.substitution (s := s) htext start (t.text ++ rest)
      (fun s₁ hs₁ => inner.crosses (p := []) hs₁ nofun (by simp [IsPlain])) fun _ => t.crosses
    simpa [Code.text, Code.masked, Template.text, Template.masked, Template.spell, shown] using this

end

/-- Masking hides exactly the bodies of strings, the texts of templates and the comments of code. -/
theorem Code.mask_text (c : Code) (h : ¬ ['#', '!'] <+: c.text) :
    mask (.ofList c.text) = .ok (.ofList c.blanked) := by
  have hcrosses : State.Crosses {} ([] ++ (c.text ++ [])) (shown [] ++ c.masked) [] :=
    c.crosses nofun nofun nofun
  rw [List.append_nil, List.nil_append] at hcrosses
  obtain ⟨s, hp, hlevel⟩ := hcrosses
  have hpasses : Passes (State.hide {} []) c.text c.masked s [] := hp
  have hmasked : maskCharacters c.text = .ok c.masked :=
    hpasses.maskCharacters_eq (start_eq_self h) (State.templates_eq_of_level hlevel)
  rw [mask, String.toList_ofList, hmasked]
  exact congrArg (fun cs => Except.ok (String.ofList cs)) c.flatMap_written_masked

/-- A template in a group in a template, with a string and a comment behind it. -/
def nestedCode : Code :=
  .plain '+' (by decide) <| .plain '+' (by decide) <| .template
    (.substitution ['é', '$'] (.plain (by decide) (by decide) (.plain (by decide) (by decide) .nil))
      (.group (.plain 'x' (by decide) <| .template
        (.substitution ['\\', '`'] (.escape '`' .nil) (.plain 'y' (by decide) .nil) (.last [] .nil))
        .nil) .nil)
      (.last ['z'] (.plain (by decide) (by decide) .nil)))
    (.string '"' (.inr rfl) ['\\', '"'] (.escape '"' .nil)
      (.lineComment ['}'] (by decide) (.blockComment ['*'] (by decide) .nil)))

theorem mask_text_nestedCode :
    (¬ ['#', '!'] <+: nestedCode.text) ∧
      nestedCode.text =
        "++`é$$\x7b\x7bx`\\`$\x7by\x7d`\x7d\x7dz`\"\\\"\"//\x7d\n/***/".toList ∧
      mask (.ofList nestedCode.text) =
        .ok "++`   $\x7b\x7bx`  $\x7by\x7d`\x7d\x7d `\"  \"   \n     " := by
  have hstart : ¬ ['#', '!'] <+: nestedCode.text := by decide
  refine ⟨hstart, by decide, ?_⟩
  rw [nestedCode.mask_text hstart]
  exact congrArg (fun cs => Except.ok (String.ofList cs)) (by decide)

end Masking

end ModuleWorkers
