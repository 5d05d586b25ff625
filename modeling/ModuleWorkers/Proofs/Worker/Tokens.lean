import Mathlib.Data.Bool.AllAny
import ModuleWorkers.Proofs.Text.Search
import ModuleWorkers.Proofs.Worker.Masking

/-!
# Tokens of scripts

The reader of a script takes one token after the other (`Masking.Token`): literals, comments, words
and signs. `Masking.Passes` says how it gets over a stretch of a script, and which masked characters
come of that. Parentheses, commas and closing braces that a search sees always start a token
(`Passes.split_at`), and blanks and literals that a search sees from a token on are whole tokens
(`Passes.blanks`, `Passes.literal`).
-/

namespace ModuleWorkers

open Text

namespace Masked

/-- Characters that are kept. -/
def shown (cs : List Char) : List Masked := cs.map (⟨·, false⟩)

/-- Characters that are hidden. -/
def veiled (cs : List Char) : List Masked := cs.map (⟨·, true⟩)

@[simp] theorem map_char_shown (cs : List Char) : (shown cs).map Masked.char = cs := by
  simp [shown, Function.comp_def]

@[simp] theorem map_char_veiled (cs : List Char) : (veiled cs).map Masked.char = cs := by
  simp [veiled, Function.comp_def]

@[simp] theorem visible_shown (c : Char) : (⟨c, false⟩ : Masked).visible = c := rfl

/-- Blanks in the place of characters, one for each byte; line ends stay. -/
def blanks (cs : List Char) : List Char :=
  cs.flatMap fun c => if c = '\n' ∨ c = '\r' then [c] else List.replicate c.utf8Size ' '

theorem flatMap_written_shown (cs : List Char) : (shown cs).flatMap written = cs := by
  induction cs with
  | nil => rfl
  | cons c cs ih => exact congrArg (c :: ·) ih

theorem flatMap_written_veiled (cs : List Char) :
    (veiled cs).flatMap written = blanks cs := by
  rw [veiled, List.flatMap_map, blanks]
  congr 1
  funext c
  by_cases hline : c = '\n' <;> by_cases hreturn : c = '\r' <;> simp [written, *]

/-- Whether a search sees no parentheses and braces in masked characters. -/
def HasNoBrackets (ms : List Masked) : Prop := ∀ m ∈ ms, m.visible ∉ ['(', ')', '{', '}']

theorem hasNoBrackets_append {ms ns : List Masked} :
    HasNoBrackets (ms ++ ns) ↔ HasNoBrackets ms ∧ HasNoBrackets ns :=
  List.forall_mem_append

theorem hasNoBrackets_nil : HasNoBrackets [] := List.forall_mem_nil _

theorem hasNoBrackets_cons {m : Masked} {ms : List Masked} (hm : m.visible ∉ ['(', ')', '{', '}'])
    (h : HasNoBrackets ms) : HasNoBrackets (m :: ms) :=
  List.forall_mem_cons.2 ⟨hm, h⟩

theorem HasNoBrackets.visible_ne {ms : List Masked} (h : HasNoBrackets ms) {c : Char}
    (hc : c ∈ ['(', ')', '{', '}']) : ∀ m ∈ ms, m.visible ≠ c :=
  fun m hm hvisible => h m hm (hvisible ▸ hc)

/-- Hidden characters look like blanks. -/
theorem isAsciiBlank_visible {m : Masked} (h : m.isHidden) : isAsciiBlank m.visible := by
  unfold visible
  split
  · rfl
  · simp_all [isAsciiBlank]
    tauto

/-- A character that does not look like a blank is kept. -/
theorem eq_shown_of_visible {m : Masked} {c : Char} (h : m.visible = c) (hc : ¬ isAsciiBlank c) :
    m = ⟨c, false⟩ := by
  obtain ⟨d, b⟩ := m
  cases b with
  | false => exact congrArg (fun d : Char => (⟨d, false⟩ : Masked)) h
  | true => exact absurd (h ▸ isAsciiBlank_visible rfl) hc

end Masked

open Masked

namespace Masking

/-! ## Tokens -/

/-- What is around a place of a script: parentheses, templates and braces. -/
structure Nesting where
  parens : List Bool
  templates : List (Nat × Nat)
  depth : Nat

/-- Whether the templates around, innermost first, are no deeper than the place. -/
def Nesting.WF (n : Nesting) : Prop := (n.depth :: n.templates.map Prod.fst).Pairwise (· ≥ ·)

theorem Nesting.WF.le_depth {n : Nesting} (h : n.WF) : ∀ t ∈ n.templates.head?, t.1 ≤ n.depth :=
  fun t ht => (List.pairwise_cons.1 h).1 t.1 (List.mem_map_of_mem (List.mem_of_mem_head? ht))

def State.nesting (s : State) : Nesting := ⟨s.parens, s.templates, s.depth⟩

/-- A token with the characters behind it, and what is around before and after it. -/
inductive Token (n : Nesting) (rest : List Char) : List Masked → Nesting → Prop
  | lineComment {line : List Char} : '\n' ∉ line → (∀ c ∈ rest.head?, c = '\n') →
      Token n rest (veiled ('/' :: '/' :: line)) n
  | blockComment {body : List Char} :
      cut? ['*', '/'] (body ++ '*' :: '/' :: rest) = some (body, rest) →
      Token n rest (veiled ('/' :: '*' :: (body ++ ['*', '/']))) n
  | string {quote : Char} {body : List Char} : quote = '\'' ∨ quote = '"' →
      stringBody quote [] (body ++ quote :: rest) = some (body, rest) →
      Token n rest (⟨quote, false⟩ :: (veiled body ++ [⟨quote, false⟩])) n
  | regex {c : Char} {body : List Char} : c ≠ '/' → c ≠ '*' →
      Token n rest (⟨'/', false⟩ :: (veiled (c :: body) ++ [⟨'/', false⟩])) n
  | division : rest.head? ≠ some '/' → rest.head? ≠ some '*' → Token n rest [⟨'/', false⟩] n
  | template (body : List Char) (ends : Bool) (start : Nat) :
      Token n rest (⟨'`', false⟩ :: (veiled body ++ shown (templateEnd ends)))
        { n with templates := if ends then n.templates else (n.depth, start) :: n.templates }
  | templateTail {start : Nat} {outer : List (Nat × Nat)} (body : List Char) (ends : Bool) :
      n.templates = (n.depth, start) :: outer →
      Token n rest (⟨'}', false⟩ :: (veiled body ++ shown (templateEnd ends)))
        { n with templates := if ends then outer else n.templates }
  | closeBrace : (∀ t ∈ n.templates.head?, t.1 ≠ n.depth) →
      Token n rest [⟨'}', false⟩] { n with depth := n.depth - 1 }
  | openBrace : Token n rest [⟨'{', false⟩] { n with depth := n.depth + 1 }
  | openParen (head : Bool) : Token n rest [⟨'(', false⟩] { n with parens := head :: n.parens }
  | closeParen : Token n rest [⟨')', false⟩] { n with parens := n.parens.tail }
  | word {c : Char} {cs : List Char} : (∀ d ∈ c :: cs, isWordPart d) →
      Token n rest (shown (c :: cs)) n
  | sign {c : Char} : c ∉ ['/', '\'', '"', '`', '(', ')', '{', '}'] → ¬ isWordPart c →
      Token n rest [⟨c, false⟩] n
  | twice {c : Char} : c = '+' ∨ c = '-' → Token n rest [⟨c, false⟩, ⟨c, false⟩] n

namespace State

theorem done_pass (s : State) (isHidden : Bool) (cs : List Char) :
    (s.pass isHidden cs).done = (cs.map (⟨·, isHidden⟩)).reverse ++ s.done := by
  simp [pass]

@[simp] theorem done_keep (s : State) (cs : List Char) :
    (s.keep cs).done = (shown cs).reverse ++ s.done :=
  s.done_pass false cs

@[simp] theorem done_hide (s : State) (cs : List Char) :
    (s.hide cs).done = (veiled cs).reverse ++ s.done :=
  s.done_pass true cs

@[simp] theorem done_before (s : State) (b : Bool) : (s.before b).done = s.done := rfl

@[simp] theorem nesting_keep (s : State) (cs : List Char) : (s.keep cs).nesting = s.nesting := rfl

@[simp] theorem nesting_hide (s : State) (cs : List Char) : (s.hide cs).nesting = s.nesting := rfl

@[simp] theorem nesting_before (s : State) (b : Bool) : (s.before b).nesting = s.nesting := rfl

/-- Whether one token is taken on the way from a state to another one. -/
def Takes (s : State) (rest : List Char) (s' : State) : Prop :=
  ∃ t, s'.done = t.reverse ++ s.done ∧ Token s.nesting rest t s'.nesting

theorem takes_slash {s : State} {cs : List Char} {r : State × List Char}
    (h : s.slash cs = .ok r) : s.Takes r.2 r.1 := by
  unfold slash at h
  split at h
  · rename_i rest
    cases h
    refine ⟨_, done_hide _ _, ?_⟩
    have hline : ('/' :: rest).takeWhile (· != '\n') = '/' :: rest.takeWhile (· != '\n') := rfl
    have hrest : ('/' :: rest).dropWhile (· != '\n') = rest.dropWhile (· != '\n') := rfl
    simp only [hline, hrest]
    refine .lineComment (fun hmem => ?_) fun c hc => ?_
    · simpa using List.mem_takeWhile_imp hmem
    · simpa using not_of_mem_head?_dropWhile hc
  · rename_i rest
    split at h
    · cases h
    · rename_i body rest' hcut
      cases h
      refine ⟨_, done_hide _ _, .blockComment ?_⟩
      have hrest : rest = body ++ '*' :: '/' :: rest' := eq_of_cut? hcut
      rwa [← hrest]
  · rename_i hslash hstar
    split at h
    · split at h
      · cases h
      · rename_i body rest hbody
        have hcs : cs = body ++ '/' :: rest := eq_of_regexBody hbody
        cases h
        refine ⟨_, by simp only [done_before, done_keep, done_hide, ← List.append_assoc,
          ← List.reverse_append]; rfl, ?_⟩
        cases body with
        | nil => exact absurd hcs (hslash rest)
        | cons c body =>
          refine @Token.regex _ _ c body ?_ ?_
          · rintro rfl
            exact hslash _ hcs
          · rintro rfl
            exact hstar _ hcs
    · cases h
      refine ⟨_, done_keep _ _, .division ?_ ?_⟩
      · intro hhead
        obtain ⟨cs', rfl⟩ := List.head?_eq_some_iff.1 hhead
        exact hslash cs' rfl
      · intro hhead
        obtain ⟨cs', rfl⟩ := List.head?_eq_some_iff.1 hhead
        exact hstar cs' rfl

/-- The text of a template, after what stands in front of it. -/
theorem exists_of_template {s : State} {start : Nat} {cs : List Char} {r : State × List Char}
    (h : s.template start cs = .ok r) :
    ∃ body ends, r.1.done = (veiled body ++ shown (templateEnd ends)).reverse ++ s.done ∧
      r.1.nesting = { s.nesting with
        templates := if ends then s.templates else (s.depth, start) :: s.templates } := by
  unfold template at h
  split at h
  · cases h
  · rename_i body ends rest _
    cases h
    refine ⟨body, ends, ?_, ?_⟩ <;> cases ends
    · simp [templateEnd]
    · simp [templateEnd]
    · rfl
    · rfl

theorem takes_closeBrace {s : State} {cs : List Char} {r : State × List Char}
    (h : s.closeBrace cs = .ok r) : s.Takes r.2 r.1 := by
  have hplain (hne : ∀ t ∈ s.templates.head?, t.1 ≠ s.depth) :
      s.Takes cs { (s.keep ['}']).before true with depth := s.depth - 1 } :=
    ⟨_, done_keep s ['}'], .closeBrace hne⟩
  unfold closeBrace at h
  split at h
  · rename_i depth start outer htemplates
    split at h
    · rename_i hdepth
      obtain ⟨body, ends, hdone, hnesting⟩ := exists_of_template h
      refine ⟨⟨'}', false⟩ :: (veiled body ++ shown (templateEnd ends)), ?_, ?_⟩
      · rw [hdone]
        change _ ++ (s.keep ['}']).done = _
        rw [done_keep, List.reverse_cons, List.append_assoc]
        rfl
      · have hhead : s.nesting.templates = (s.nesting.depth, start) :: outer :=
          htemplates.trans (hdepth ▸ rfl)
        have hafter : r.1.nesting =
            { s.nesting with templates := if ends then outer else s.nesting.templates } := by
          rw [hnesting, hhead]
          rfl
        exact hafter ▸ .templateTail body ends hhead
    · rename_i hdepth
      cases h
      refine hplain fun t ht => ?_
      rw [htemplates] at ht
      cases ht
      exact hdepth
  · rename_i htemplates
    cases h
    refine hplain fun t ht => ?_
    rw [htemplates] at ht
    cases ht

theorem takes_string {s : State} {quote : Char} (hquote : quote = '\'' ∨ quote = '"')
    {cs : List Char} {r : State × List Char} (h : s.string quote cs = .ok r) :
    s.Takes r.2 r.1 := by
  unfold string at h
  split at h
  · cases h
  · rename_i body rest hbody
    have hcs : cs = body ++ quote :: rest := eq_of_stringBody hbody
    cases h
    refine ⟨_, by simp only [done_before, done_keep, done_hide, ← List.append_assoc,
      ← List.reverse_append]; rfl, .string hquote ?_⟩
    rwa [← hcs]

theorem takes_word (s : State) {c : Char} (hc : isWordPart c) (cs : List Char) :
    s.Takes (s.word c cs).2 (s.word c cs).1 := by
  refine ⟨_, done_keep _ _, .word fun d hd => ?_⟩
  rcases List.mem_cons.1 hd with rfl | hd
  · exact hc
  · exact List.mem_takeWhile_imp hd

theorem takes_sign (s : State) {c : Char} (hc : c ∉ ['/', '\'', '"', '`', '}'])
    (hword : ¬ isWordPart c) (cs : List Char) : s.Takes (s.sign c cs).2 (s.sign c cs).1 := by
  have hsign (h₁ : c ≠ '{') (h₂ : c ≠ '(') (h₃ : c ≠ ')') :
      Token s.nesting cs [⟨c, false⟩] s.nesting := by
    refine .sign ?_ hword
    simp only [List.mem_cons, List.not_mem_nil, or_false, not_or] at hc ⊢
    tauto
  unfold sign
  split_ifs with h₁ h₂ h₃ h₄ h₅ h₆
  · exact ⟨_, done_keep s [c], h₁ ▸ .openBrace⟩
  · exact ⟨_, done_keep s [c, c], .twice h₂.1⟩
  · exact ⟨_, done_keep s [c], h₃ ▸ .openParen s.afterControlWord⟩
  · exact ⟨_, done_keep s [c], h₄ ▸ .closeParen⟩
  all_goals exact ⟨_, done_keep s [c], hsign h₁ h₃ h₄⟩

/-- Whatever comes next is a token. -/
theorem takes_next {s : State} {c : Char} {cs : List Char} {r : State × List Char}
    (h : s.next c cs = .ok r) : s.Takes r.2 r.1 := by
  unfold next at h
  split at h
  · exact takes_slash h
  split at h
  · rename_i hquote
    exact takes_string hquote h
  split at h
  · obtain ⟨body, ends, hdone, hnesting⟩ := exists_of_template h
    refine ⟨⟨'`', false⟩ :: (veiled body ++ shown (templateEnd ends)), ?_, ?_⟩
    · rw [hdone, done_keep, List.reverse_cons, List.append_assoc]
      rfl
    · rw [hnesting]
      exact .template body ends s.offset
  split at h
  · exact takes_closeBrace h
  split at h
  · rename_i hword
    cases h
    exact s.takes_word hword cs
  · rename_i hslash hquote htick hbrace hword
    cases h
    refine s.takes_sign ?_ hword cs
    simp only [List.mem_cons, List.not_mem_nil, or_false, not_or] at hquote ⊢
    exact ⟨hslash, hquote.1, hquote.2, htick, hbrace⟩

/-- The token that comes next, given what it leaves behind. -/
theorem token_of_next {s s' : State} {c : Char} {cs rest : List Char} {t : List Masked}
    (h : s.next c cs = .ok (s', rest)) (ht : s'.done = t.reverse ++ s.done) :
    Token s.nesting rest t s'.nesting ∧ c :: cs = t.map Masked.char ++ rest := by
  obtain ⟨t', ht', htoken⟩ := takes_next h
  have heq : t = t' := List.reverse_injective (List.append_cancel_right (ht.symm.trans ht'))
  refine ⟨heq ▸ htoken, ?_⟩
  have htext := text_next h
  simp only [text, ht, List.reverse_append, List.reverse_reverse, List.map_append,
    List.append_assoc] at htext
  exact (List.append_cancel_left htext).symm

end State

/-! ## What is around -/

/-- The characters that a search relies on to stand alone. -/
def marks : List Char := ['(', ')', ',', '}']

namespace Token

variable {n n' : Nesting} {rest : List Char} {t : List Masked}

/-- A mark that is kept starts its token. -/
theorem not_mem_marks_of_mem_tail (h : Token n rest t n') {m : Masked} (hm : m ∈ t.tail)
    (hkept : m.isHidden = false) : m.char ∉ marks := by
  have not_mem_veiled : ∀ {cs : List Char}, m ∉ veiled cs := by
    intro cs hcs
    obtain ⟨c, -, rfl⟩ := List.mem_map.1 hcs
    cases hkept
  cases h with
  | lineComment => exact absurd (List.mem_of_mem_tail hm) not_mem_veiled
  | blockComment => exact absurd (List.mem_of_mem_tail hm) not_mem_veiled
  | string hquote =>
    rcases List.mem_append.1 hm with hm | hm
    · exact absurd hm not_mem_veiled
    · obtain rfl := List.mem_singleton.1 hm
      rcases hquote with rfl | rfl <;> decide
  | regex =>
    rcases List.mem_append.1 hm with hm | hm
    · exact absurd hm not_mem_veiled
    · obtain rfl := List.mem_singleton.1 hm
      decide
  | template _ ends | templateTail _ ends =>
    rcases List.mem_append.1 hm with hm | hm
    · exact absurd hm not_mem_veiled
    · obtain ⟨c, hc, rfl⟩ := List.mem_map.1 hm
      have hends : ∀ c ∈ templateEnd ends, c ∉ marks :=
        List.all_iff_forall_prop.1 (by cases ends <;> decide)
      exact hends c hc
  | word hword =>
    obtain ⟨c, hc, rfl⟩ := List.mem_map.1 hm
    have : isWordPart c := hword c (List.mem_cons_of_mem _ hc)
    intro hmarks
    simp only [marks, List.mem_cons, List.not_mem_nil, or_false] at hmarks
    rcases hmarks with rfl | rfl | rfl | rfl <;> revert this <;> decide
  | twice hc =>
    obtain rfl := List.mem_singleton.1 hm
    rcases hc with rfl | rfl <;> decide
  | division | closeBrace | openBrace | openParen | closeParen | sign => cases hm

theorem wf (h : Token n rest t n') (hn : n.WF) : n'.WF := by
  obtain ⟨parens, templates, depth⟩ := n
  obtain ⟨hle, hpairwise⟩ := List.pairwise_cons.1 hn
  cases h with
  | template _ ends start =>
    cases ends
    · exact List.pairwise_cons.2 ⟨fun d hd => by
        rcases List.mem_cons.1 hd with rfl | hd
        · exact Nat.le_refl _
        · exact hle d hd, hn⟩
    · exact hn
  | @templateTail start outer _ ends htemplates =>
    cases ends
    · exact hn
    · change templates = (depth, start) :: outer at htemplates
      subst htemplates
      exact hpairwise
  | closeBrace hne =>
    refine List.pairwise_cons.2 ⟨fun d hd => ?_, hpairwise⟩
    cases templates with
    | nil => cases hd
    | cons t outer =>
      have hlt : t.1 < depth := Nat.lt_of_le_of_ne (hle t.1 List.mem_cons_self) (hne t rfl)
      have hle' : d ≤ t.1 := by
        rcases List.mem_cons.1 hd with rfl | hd
        · exact Nat.le_refl _
        · exact (List.pairwise_cons.1 hpairwise).1 d hd
      exact Nat.le_sub_one_of_lt (Nat.lt_of_le_of_lt hle' hlt)
  | openBrace => exact List.pairwise_cons.2 ⟨fun d hd => Nat.le_succ_of_le (hle d hd), hpairwise⟩
  | _ => exact hn

/-- A token without parentheses and braces changes nothing around. -/
theorem nesting_eq (h : Token n rest t n') (ht : HasNoBrackets t) : n' = n := by
  have hhead : ∀ {c : Char} {t' : List Masked}, t = ⟨c, false⟩ :: t' →
      c ∉ ['(', ')', '{', '}'] := by
    rintro c t' rfl
    exact ht ⟨c, false⟩ List.mem_cons_self
  cases h with
  | template _ ends =>
    cases ends with
    | true => rfl
    | false => exact absurd (ht ⟨'{', false⟩ (by simp [templateEnd, shown])) (by decide)
  | templateTail | closeBrace | openBrace | openParen | closeParen =>
    exact absurd (hhead rfl) (by decide)
  | _ => rfl

theorem ne_nil (h : Token n rest t n') : t ≠ [] := by
  cases h <;> simp [veiled, shown]

/-- What a token is that starts with a quote. -/
theorem cases_of_quote {q : Char} (hq : q = '\'' ∨ q = '"' ∨ q = '`')
    (h : Token n rest (⟨q, false⟩ :: t) n') :
    (∃ body, t = veiled body ++ [⟨q, false⟩] ∧ n' = n) ∨
      (q = '`' ∧ ∃ body, t = veiled body ++ [⟨'$', false⟩, ⟨'{', false⟩]) := by
  generalize hu : ⟨q, false⟩ :: t = u at h
  cases h with
  | string =>
    obtain ⟨hqq, rfl⟩ := List.cons.inj hu
    cases hqq
    exact .inl ⟨_, rfl, rfl⟩
  | template body ends =>
    obtain ⟨hqq, rfl⟩ := List.cons.inj hu
    cases hqq
    cases ends
    · exact .inr ⟨rfl, body, rfl⟩
    · exact .inl ⟨body, rfl, rfl⟩
  | word hword =>
    cases (List.cons.inj hu).1
    have := hword q List.mem_cons_self
    rcases hq with rfl | rfl | rfl <;> exact absurd this (by decide)
  | sign hsign =>
    cases (List.cons.inj hu).1
    rcases hq with rfl | rfl | rfl <;> exact absurd hsign (by decide)
  | twice htwice =>
    cases (List.cons.inj hu).1
    rcases htwice with rfl | rfl <;> exact absurd hq (by decide)
  | _ =>
    cases (List.cons.inj hu).1
    all_goals exact absurd hq (by decide)

/-- A token is made of blanks, or starts with something else. -/
theorem isBlank_or (h : Token n rest t n') :
    (n' = n ∧ ∀ m ∈ t, isAsciiBlank m.visible) ∨
      ∃ m t', t = m :: t' ∧ ¬ isAsciiBlank m.visible := by
  have hhidden : ∀ cs : List Char, ∀ m ∈ veiled cs, isAsciiBlank m.visible := by
    intro cs m hm
    obtain ⟨c, -, rfl⟩ := List.mem_map.1 hm
    exact isAsciiBlank_visible rfl
  cases h with
  | lineComment | blockComment => exact .inl ⟨rfl, hhidden _⟩
  | string hquote => exact .inr ⟨_, _, rfl, by rcases hquote with rfl | rfl <;> decide⟩
  | @word c _ hword =>
    refine .inr ⟨_, _, rfl, fun hblank => ?_⟩
    have hc : isWordPart c := hword c List.mem_cons_self
    simp only [visible_shown, isAsciiBlank, Bool.or_eq_true, beq_iff_eq] at hblank
    rcases hblank with (((rfl | rfl) | rfl) | rfl) | rfl <;> revert hc <;> decide
  | @sign c _ _ =>
    by_cases hblank : isAsciiBlank c
    · exact .inl ⟨rfl, by simpa using hblank⟩
    · exact .inr ⟨_, _, rfl, hblank⟩
  | twice hc => exact .inr ⟨_, _, rfl, by rcases hc with rfl | rfl <;> decide⟩
  | _ => exact .inr ⟨_, _, rfl, by decide⟩

/-- What a token is that starts with a bracket or a comma. -/
theorem cases_of_head {c : Char} (h : Token n rest (⟨c, false⟩ :: t) n')
    (hc : c ∈ ['(', ')', ',', '{', '}']) :
    (c = '(' ∧ t = [] ∧ ∃ head, n' = { n with parens := head :: n.parens }) ∨
    (c = ')' ∧ t = [] ∧ n' = { n with parens := n.parens.tail }) ∨
    (c = ',' ∧ t = [] ∧ n' = n) ∨
    (c = '{' ∧ t = [] ∧ n' = { n with depth := n.depth + 1 }) ∨
    (c = '}' ∧ t = [] ∧ n' = { n with depth := n.depth - 1 }) ∨
    (c = '}' ∧ ∃ start outer, n.templates = (n.depth, start) :: outer) := by
  generalize hu : ⟨c, false⟩ :: t = u at h
  cases h with
  | lineComment | blockComment => cases (List.cons.inj hu).1
  | openParen head => simp_all
  | closeParen => simp_all
  | openBrace => simp_all
  | closeBrace => simp_all
  | templateTail _ _ htemplates => simp_all
  | string hquote =>
    cases (List.cons.inj hu).1
    rcases hquote with rfl | rfl <;> exact absurd hc (by decide)
  | word hword =>
    cases (List.cons.inj hu).1
    have := hword c List.mem_cons_self
    simp only [List.mem_cons, List.not_mem_nil, or_false] at hc
    rcases hc with rfl | rfl | rfl | rfl | rfl <;> exact absurd this (by decide)
  | sign hsign =>
    obtain ⟨hcc, rfl⟩ := List.cons.inj hu
    cases hcc
    simp_all
  | twice htwice =>
    cases (List.cons.inj hu).1
    rcases htwice with rfl | rfl <;> exact absurd hc (by decide)
  | regex | division | template =>
    cases (List.cons.inj hu).1
    exact absurd hc (by decide)

end Token

/-! ## Stretches of a script -/

namespace State

variable {s s' : State} {c : Char} {cs rest : List Char}

theorem run_cons (h : s.next c cs = .ok (s', rest)) : s.run (c :: cs) = s'.run rest := by
  rw [run]
  split <;> simp_all

theorem run_of_error {err : LexError} (h : s.next c cs = .error err) :
    s.run (c :: cs) = .error err := by
  rw [run]
  split <;> simp_all

end State

/-- How the reader gets over a stretch of a script, and the masked characters that come of it. -/
inductive Passes : State → List Char → List Masked → State → List Char → Prop
  | refl (s : State) (cs : List Char) : Passes s cs [] s cs
  | step {s s₁ s₂ : State} {c : Char} {cs cs₁ cs₂ : List Char} {t ms : List Masked} :
      s.next c cs = .ok (s₁, cs₁) → s₁.done = t.reverse ++ s.done → Passes s₁ cs₁ ms s₂ cs₂ →
      Passes s (c :: cs) (t ++ ms) s₂ cs₂

namespace Passes

variable {s s' : State} {cs cs' : List Char} {ms : List Masked}

theorem single {c : Char} (hnext : s.next c cs = .ok (s', cs'))
    (hms : s'.done = ms.reverse ++ s.done) : Passes s (c :: cs) ms s' cs' := by
  have := Passes.step hnext hms (.refl _ _)
  rwa [List.append_nil] at this

theorem done_eq (h : Passes s cs ms s' cs') : s'.done = ms.reverse ++ s.done := by
  induction h with
  | refl => rfl
  | step _ ht _ ih => rw [ih, ht, List.reverse_append, List.append_assoc]

theorem text_eq (h : Passes s cs ms s' cs') : cs = ms.map Masked.char ++ cs' := by
  induction h with
  | refl => rfl
  | step hnext ht _ ih =>
    rw [(State.token_of_next hnext ht).2, List.map_append, List.append_assoc, ih]

theorem trans (h : Passes s cs ms s' cs') {s'' : State} {cs'' : List Char} {ms' : List Masked}
    (h' : Passes s' cs' ms' s'' cs'') : Passes s cs (ms ++ ms') s'' cs'' := by
  induction h with
  | refl => exact h'
  | step hnext ht _ ih =>
    rw [List.append_assoc]
    exact .step hnext ht (ih h')

theorem wf (h : Passes s cs ms s' cs') (hs : s.nesting.WF) : s'.nesting.WF := by
  induction h with
  | refl => exact hs
  | step hnext ht _ ih => exact ih ((State.token_of_next hnext ht).1.wf hs)

/-- The first token of a stretch. -/
theorem exists_token {m : Masked} (h : Passes s cs (m :: ms) s' cs') :
    ∃ t ms' s₁ cs₁, m :: ms = t ++ ms' ∧ Token s.nesting cs₁ t s₁.nesting ∧
      Passes s cs t s₁ cs₁ ∧ Passes s₁ cs₁ ms' s' cs' := by
  generalize hms : m :: ms = ms₀ at h
  cases h with
  | refl => cases hms
  | step hnext ht h =>
    exact ⟨_, _, _, _, rfl, (State.token_of_next hnext ht).1, .single hnext ht, h⟩

/-- A mark that is kept stands between two stretches. -/
theorem split_at {c : Char} (hc : c ∈ marks) {x y : List Masked}
    (h : Passes s cs (x ++ ⟨c, false⟩ :: y) s' cs') :
    ∃ s₁ cs₁, Passes s cs x s₁ (c :: cs₁) ∧ Passes s₁ (c :: cs₁) (⟨c, false⟩ :: y) s' cs' := by
  generalize hms : x ++ ⟨c, false⟩ :: y = ms at h
  induction h generalizing x with
  | refl => simp at hms
  | @step s s₁ s₂ d cs cs₁ cs₂ t ms hnext ht h ih =>
    -- The mark is behind the first token, or it starts the first token.
    have hbehind : ∀ {e : List Masked}, x = t ++ e → ms = e ++ ⟨c, false⟩ :: y →
        ∃ s' cs', Passes s (d :: cs) x s' (c :: cs') ∧
          Passes s' (c :: cs') (⟨c, false⟩ :: y) s₂ cs₂ := by
      rintro e rfl he
      obtain ⟨s', cs', hx, hy⟩ := ih he.symm
      exact ⟨s', cs', .step hnext ht hx, hy⟩
    rcases List.append_eq_append_iff.1 hms with ⟨e, rfl, he⟩ | ⟨e, hx, he⟩
    · cases e with
      | nil => exact hbehind (e := []) (by simp) he.symm
      | cons m e =>
        obtain ⟨rfl, he⟩ := List.cons.inj he
        cases x with
        | nil =>
          obtain ⟨htoken, htext⟩ := State.token_of_next hnext ht
          obtain ⟨rfl, -⟩ := List.cons.inj htext
          refine ⟨s, cs, .refl s _, ?_⟩
          rw [he]
          exact .step hnext ht h
        | cons a x =>
          have hmem : ⟨c, false⟩ ∈ (a :: x ++ ⟨c, false⟩ :: e).tail := by simp
          have htoken := (State.token_of_next hnext ht).1
          exact absurd hc (htoken.not_mem_marks_of_mem_tail hmem rfl)
    · exact hbehind hx he

/-- A bracket or comma that starts a token is a token, unless it is the brace after the substitution
of a template. -/
theorem cases_of_head {c : Char} (h : Passes s cs (⟨c, false⟩ :: ms) s' cs')
    (hc : c ∈ ['(', ')', ',', '{', '}'])
    (hbrace : c = '}' → ∀ t ∈ s.nesting.templates.head?, t.1 ≠ s.nesting.depth) :
    ∃ s₁ cs₁, Passes s cs [⟨c, false⟩] s₁ cs₁ ∧ Passes s₁ cs₁ ms s' cs' ∧
      ((c = '(' ∧ ∃ head, s₁.nesting = { s.nesting with parens := head :: s.nesting.parens }) ∨
        (c = ')' ∧ s₁.nesting = { s.nesting with parens := s.nesting.parens.tail }) ∨
        (c = ',' ∧ s₁.nesting = s.nesting) ∨
        (c = '{' ∧ s₁.nesting = { s.nesting with depth := s.nesting.depth + 1 }) ∨
        (c = '}' ∧ s₁.nesting = { s.nesting with depth := s.nesting.depth - 1 })) := by
  obtain ⟨t, ms', s₁, cs₁, hms, htoken, hfirst, hrest⟩ := h.exists_token
  rcases List.cons_eq_append_iff.1 hms with ⟨rfl, -⟩ | ⟨t', rfl, rfl⟩
  · exact absurd rfl htoken.ne_nil
  · rcases htoken.cases_of_head hc with ⟨hc, rfl, hn⟩ | ⟨hc, rfl, hn⟩ | ⟨hc, rfl, hn⟩ |
      ⟨hc, rfl, hn⟩ | ⟨hc, rfl, hn⟩ | ⟨hc, start, outer, htemplates⟩
    · exact ⟨s₁, cs₁, hfirst, hrest, .inl ⟨hc, hn⟩⟩
    · exact ⟨s₁, cs₁, hfirst, hrest, .inr (.inl ⟨hc, hn⟩)⟩
    · exact ⟨s₁, cs₁, hfirst, hrest, .inr (.inr (.inl ⟨hc, hn⟩))⟩
    · exact ⟨s₁, cs₁, hfirst, hrest, .inr (.inr (.inr (.inl ⟨hc, hn⟩)))⟩
    · exact ⟨s₁, cs₁, hfirst, hrest, .inr (.inr (.inr (.inr ⟨hc, hn⟩)))⟩
    · exact absurd rfl (hbrace hc (s.nesting.depth, start) (by rw [htemplates]; rfl))

theorem openParen (h : Passes s cs (⟨'(', false⟩ :: ms) s' cs') :
    ∃ s₁ cs₁ head, Passes s cs [⟨'(', false⟩] s₁ cs₁ ∧ Passes s₁ cs₁ ms s' cs' ∧
      s₁.nesting = { s.nesting with parens := head :: s.nesting.parens } := by
  obtain ⟨s₁, cs₁, hfirst, hrest, hs₁⟩ := h.cases_of_head (by decide) (by simp)
  simp only [Char.reduceEq, false_and, true_and, or_false] at hs₁
  obtain ⟨head, hs₁⟩ := hs₁
  exact ⟨s₁, cs₁, head, hfirst, hrest, hs₁⟩

theorem closeParen (h : Passes s cs (⟨')', false⟩ :: ms) s' cs') :
    ∃ s₁ cs₁, Passes s cs [⟨')', false⟩] s₁ cs₁ ∧ Passes s₁ cs₁ ms s' cs' ∧
      s₁.nesting = { s.nesting with parens := s.nesting.parens.tail } := by
  obtain ⟨s₁, cs₁, hfirst, hrest, hs₁⟩ := h.cases_of_head (by decide) (by simp)
  simp only [Char.reduceEq, false_and, true_and, or_false, false_or] at hs₁
  exact ⟨s₁, cs₁, hfirst, hrest, hs₁⟩

theorem comma (h : Passes s cs (⟨',', false⟩ :: ms) s' cs') :
    ∃ s₁ cs₁, Passes s cs [⟨',', false⟩] s₁ cs₁ ∧ Passes s₁ cs₁ ms s' cs' ∧
      s₁.nesting = s.nesting := by
  obtain ⟨s₁, cs₁, hfirst, hrest, hs₁⟩ := h.cases_of_head (by decide) (by simp)
  simp only [Char.reduceEq, false_and, true_and, or_false, false_or] at hs₁
  exact ⟨s₁, cs₁, hfirst, hrest, hs₁⟩

theorem openBrace (h : Passes s cs (⟨'{', false⟩ :: ms) s' cs') :
    ∃ s₁ cs₁, Passes s cs [⟨'{', false⟩] s₁ cs₁ ∧ Passes s₁ cs₁ ms s' cs' ∧
      s₁.nesting = { s.nesting with depth := s.nesting.depth + 1 } := by
  obtain ⟨s₁, cs₁, hfirst, hrest, hs₁⟩ := h.cases_of_head (by decide) (by simp)
  simp only [Char.reduceEq, false_and, true_and, or_false, false_or] at hs₁
  exact ⟨s₁, cs₁, hfirst, hrest, hs₁⟩

/-- A closing brace closes an open one if no substitution is open that started as deep. -/
theorem closeBrace (h : Passes s cs (⟨'}', false⟩ :: ms) s' cs')
    (hbrace : ∀ t ∈ s.nesting.templates.head?, t.1 ≠ s.nesting.depth) :
    ∃ s₁ cs₁, Passes s cs [⟨'}', false⟩] s₁ cs₁ ∧ Passes s₁ cs₁ ms s' cs' ∧
      s₁.nesting = { s.nesting with depth := s.nesting.depth - 1 } := by
  obtain ⟨s₁, cs₁, hfirst, hrest, hs₁⟩ := h.cases_of_head (by decide) fun _ => hbrace
  simp only [Char.reduceEq, false_and, true_and, false_or] at hs₁
  exact ⟨s₁, cs₁, hfirst, hrest, hs₁⟩

/-- Blanks that are seen from a token on are tokens that change nothing around. -/
theorem blanks {bs : List Masked} {m : Masked} (h : Passes s cs (bs ++ m :: ms) s' cs')
    (hbs : ∀ b ∈ bs, isAsciiBlank b.visible) (hm : ¬ isAsciiBlank m.visible) :
    ∃ s₁ cs₁, Passes s cs bs s₁ cs₁ ∧ s₁.nesting = s.nesting ∧ Passes s₁ cs₁ (m :: ms) s' cs' := by
  generalize hall : bs ++ m :: ms = all at h
  induction h generalizing bs with
  | refl => simp at hall
  | @step s s₁ s₂ d cs cs₁ cs₂ t ms' hnext ht h ih =>
    rcases (State.token_of_next hnext ht).1.isBlank_or with ⟨hnesting, hblank⟩ | ⟨a, t', rfl, ha⟩
    · have hbehind : ∀ {e : List Masked}, bs = t ++ e → ms' = e ++ m :: ms →
          ∃ s' cs', Passes s (d :: cs) bs s' cs' ∧ s'.nesting = s.nesting ∧
            Passes s' cs' (m :: ms) s₂ cs₂ := by
        rintro e rfl he
        obtain ⟨s', cs', hx, hn, hy⟩ := ih (fun b hb => hbs b (List.mem_append_right t hb)) he.symm
        exact ⟨s', cs', .step hnext ht hx, hn.trans hnesting, hy⟩
      rcases List.append_eq_append_iff.1 hall with ⟨e, rfl, he⟩ | ⟨e, hx, he⟩
      · cases e with
        | nil => exact hbehind (e := []) (by simp) he.symm
        | cons b e =>
          obtain ⟨rfl, -⟩ := List.cons.inj he
          exact absurd (hblank m (by simp)) hm
      · exact hbehind hx he
    · cases bs with
      | nil =>
        rw [List.nil_append] at hall
        exact ⟨s, d :: cs, .refl s _, rfl, hall ▸ .step hnext ht h⟩
      | cons b bs =>
        obtain ⟨rfl, -⟩ := List.cons.inj hall
        exact absurd (hbs b List.mem_cons_self) ha

/-- A stretch without parentheses and braces changes nothing around. -/
theorem nesting_eq (h : Passes s cs ms s' cs') (hms : HasNoBrackets ms) :
    s'.nesting = s.nesting := by
  induction h with
  | refl => rfl
  | step hnext ht _ ih =>
    obtain ⟨hfirst, hrest⟩ := hasNoBrackets_append.1 hms
    exact (ih hrest).trans ((State.token_of_next hnext ht).1.nesting_eq hfirst)

/-- A quote that starts a token starts a literal, or the front of a template in front of its first
substitution. -/
theorem literal {q : Char} (hq : q = '\'' ∨ q = '"' ∨ q = '`')
    (h : Passes s cs (⟨q, false⟩ :: ms) s' cs') :
    (∃ body ms' s₁ cs₁, ms = veiled body ++ ⟨q, false⟩ :: ms' ∧
      Passes s cs (⟨q, false⟩ :: (veiled body ++ [⟨q, false⟩])) s₁ cs₁ ∧ s₁.nesting = s.nesting ∧
      Passes s₁ cs₁ ms' s' cs') ∨
    (q = '`' ∧ ∃ body ms', ms = veiled body ++ ⟨'$', false⟩ :: ⟨'{', false⟩ :: ms') := by
  obtain ⟨t, ms', s₁, cs₁, hms, htoken, hfirst, hrest⟩ := h.exists_token
  rcases List.cons_eq_append_iff.1 hms with ⟨rfl, -⟩ | ⟨t', rfl, rfl⟩
  · exact absurd rfl htoken.ne_nil
  · rcases htoken.cases_of_quote hq with ⟨body, rfl, hn⟩ | ⟨hq, body, rfl⟩
    · exact .inl ⟨body, ms', s₁, cs₁, by simp, hfirst, hn, hrest⟩
    · exact .inr ⟨hq, body, ms', by simp⟩

/-- What is behind a stretch is read as the rest. -/
theorem run_trans (h : Passes s cs ms s' cs') : s.run cs = s'.run cs' := by
  induction h with
  | refl => rfl
  | step hnext _ _ ih => rw [State.run_cons hnext, ih]

/-- The whole rest of a script. -/
theorem run_eq (h : Passes s cs ms s' []) : s.run cs = .ok s' := by rw [h.run_trans, State.run]

/-- A script that the reader gets over is masked. -/
theorem maskCharacters_eq {line : List Char} (h : Passes (State.hide {} line) cs ms s' [])
    {text : List Char} (hstart : start text = (State.hide {} line, cs))
    (htemplates : s'.templates = []) : maskCharacters text = .ok (veiled line ++ ms) := by
  unfold maskCharacters
  rw [hstart]
  simp only [h.run_eq, bind, Except.bind]
  rw [htemplates]
  simp [h.done_eq, State.done_hide, pure, Except.pure]

end Passes

theorem exists_passes_of_run {s s' : State} {cs : List Char} (h : s.run cs = .ok s') :
    ∃ ms, Passes s cs ms s' [] := by
  fun_induction State.run s cs with
  | case1 =>
    cases h
    exact ⟨[], .refl _ []⟩
  | case2 => cases h
  | case3 s c cs s₁ rest hnext _ ih =>
    obtain ⟨t, ht, -⟩ := State.takes_next hnext
    obtain ⟨ms, hms⟩ := ih h
    exact ⟨t ++ ms, .step hnext ht hms⟩

end Masking

end ModuleWorkers
