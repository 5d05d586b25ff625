import Mathlib.Data.List.Basic
import ModuleWorkers.Proofs.Text.Search
import ModuleWorkers.Worker.Masking

/-!
# Masked characters are those of the text

The reader passes each character of its text once and in order, whatever it takes it for: what was
read and what is left make up the text at every step (`Masking.State.text_next`), so the characters
of a masked text are those of the text (`map_char_maskCharacters`).
-/

namespace ModuleWorkers

open Text

namespace Masking

/-! ## Bodies of literals -/

theorem eq_of_stringBody {quote : Char} {read cs : List Char} {r : List Char × List Char}
    (h : stringBody quote read cs = some r) : read.reverse ++ cs = r.1 ++ quote :: r.2 := by
  fun_induction stringBody quote read cs with
  | case1 => cases h
  | case2 => cases h
  | case3 read c rest ih => simpa using ih h
  | case4 => cases h
  | case5 =>
    cases h
    rfl
  | case6 read c rest _ _ _ _ ih => simpa using ih h

theorem eq_of_regexBody {inClass : Bool} {read cs : List Char} {r : List Char × List Char}
    (h : regexBody inClass read cs = some r) : read.reverse ++ cs = r.1 ++ '/' :: r.2 := by
  fun_induction regexBody inClass read cs with
  | case1 => cases h
  | case2 => cases h
  | case3 inClass read c rest ih => simpa using ih h
  | case4 => cases h
  | case5 inClass read c rest _ _ _ hend =>
    cases h
    rw [hend.1]
  | case6 inClass read c rest _ _ _ _ ih => simpa using ih h

/-- What ends the text of a template. -/
def templateEnd (ends : Bool) : List Char := if ends then ['`'] else ['$', '{']

theorem eq_of_templateText {read cs : List Char} {r : List Char × Bool × List Char}
    (h : templateText read cs = some r) :
    read.reverse ++ cs = r.1 ++ (templateEnd r.2.1 ++ r.2.2) := by
  fun_induction templateText read cs with
  | case1 => cases h
  | case2 => cases h
  | case3 read c rest ih => simpa using ih h
  | case4 =>
    cases h
    rfl
  | case5 =>
    cases h
    rfl
  | case6 read c rest _ _ _ _ ih => simpa using ih h

/-! ## What was read -/

namespace State

/-- The text that was read. -/
def text (s : State) : List Char := s.done.reverse.map Masked.char

theorem text_pass (s : State) (isHidden : Bool) (cs : List Char) :
    (s.pass isHidden cs).text = s.text ++ cs := by
  simp [text, pass, Function.comp_def]

@[simp] theorem text_keep (s : State) (cs : List Char) : (s.keep cs).text = s.text ++ cs :=
  s.text_pass false cs

@[simp] theorem text_hide (s : State) (cs : List Char) : (s.hide cs).text = s.text ++ cs :=
  s.text_pass true cs

@[simp] theorem text_before (s : State) (atExpression : Bool) :
    (s.before atExpression).text = s.text := rfl

theorem text_template {s : State} {start : Nat} {cs : List Char} {r : State × List Char}
    (h : s.template start cs = .ok r) : r.1.text ++ r.2 = s.text ++ cs := by
  unfold template at h
  split at h
  · cases h
  · rename_i body ends rest hbody
    have hcs : cs = body ++ (templateEnd ends ++ rest) := eq_of_templateText hbody
    have htext : (((s.hide body).keep (templateEnd ends)).before !ends).text ++ rest =
        s.text ++ cs := by
      simp [hcs]
    cases h
    cases ends <;> exact htext

theorem text_slash {s : State} {cs : List Char} {r : State × List Char}
    (h : s.slash cs = .ok r) : r.1.text ++ r.2 = s.text ++ '/' :: cs := by
  unfold slash at h
  split at h
  · cases h
    simp
  · split at h
    · cases h
    · rename_i rest body rest' hcut
      have := eq_of_cut? hcut
      cases h
      simp [this]
  · split at h
    · split at h
      · cases h
      · rename_i body rest hbody
        have hcs := eq_of_regexBody hbody
        rw [List.reverse_nil, List.nil_append] at hcs
        cases h
        simp [hcs]
    · cases h
      simp

theorem text_closeBrace {s : State} {cs : List Char} {r : State × List Char}
    (h : s.closeBrace cs = .ok r) : r.1.text ++ r.2 = s.text ++ '}' :: cs := by
  have hkeep : ∀ depth, ({ (s.keep ['}']).before true with depth } : State).text ++ cs =
      s.text ++ '}' :: cs := by
    intro depth
    change (s.keep ['}']).text ++ cs = _
    simp
  unfold closeBrace at h
  split at h
  · split at h
    · refine (text_template h).trans ?_
      change (s.keep ['}']).text ++ cs = _
      simp
    · cases h
      exact hkeep _
  · cases h
    exact hkeep _

theorem text_string {s : State} {quote : Char} {cs : List Char} {r : State × List Char}
    (h : s.string quote cs = .ok r) : r.1.text ++ r.2 = s.text ++ quote :: cs := by
  unfold string at h
  split at h
  · cases h
  · rename_i body rest hbody
    have hcs := eq_of_stringBody hbody
    rw [List.reverse_nil, List.nil_append] at hcs
    cases h
    simp [hcs]

theorem text_word (s : State) (c : Char) (cs : List Char) :
    (s.word c cs).1.text ++ (s.word c cs).2 = s.text ++ c :: cs := by
  simp [word]

theorem text_sign (s : State) (c : Char) (cs : List Char) :
    (s.sign c cs).1.text ++ (s.sign c cs).2 = s.text ++ c :: cs := by
  have hkeep : (s.keep [c]).text ++ cs = s.text ++ c :: cs := by simp
  unfold sign
  split
  · exact hkeep
  split
  · rename_i hsame
    obtain ⟨rest, rfl⟩ := List.head?_eq_some_iff.1 hsame.2
    simp
  split
  · exact hkeep
  split
  · exact hkeep
  split
  · exact hkeep
  split
  · exact hkeep
  · exact hkeep

/-- What comes next goes from what is left to what was read. -/
theorem text_next {s : State} {c : Char} {cs : List Char} {r : State × List Char}
    (h : s.next c cs = .ok r) : r.1.text ++ r.2 = s.text ++ c :: cs := by
  unfold next at h
  split at h
  · rename_i hc
    subst hc
    exact text_slash h
  split at h
  · exact text_string h
  split at h
  · rename_i hc
    subst hc
    refine (text_template h).trans ?_
    simp
  split at h
  · rename_i hc
    subst hc
    exact text_closeBrace h
  split at h
  · cases h
    exact s.text_word c cs
  · cases h
    exact s.text_sign c cs

theorem text_run {s s' : State} {cs : List Char} (h : s.run cs = .ok s') :
    s'.text = s.text ++ cs := by
  fun_induction run s cs with
  | case1 s =>
    cases h
    rw [List.append_nil]
  | case2 => cases h
  | case3 s c cs s₁ rest hnext _ ih => rw [ih h, text_next hnext]

end State

/-- A text without an interpreter line is read from its first character on. -/
theorem start_eq_self {cs : List Char} (h : ¬ ['#', '!'] <+: cs) : start cs = ({}, cs) := by
  unfold start
  split
  · exact absurd (List.prefix_append ['#', '!'] _) h
  · rfl

theorem text_start (cs : List Char) : (start cs).1.text ++ (start cs).2 = cs := by
  unfold start
  split
  · rw [State.text_hide]
    exact List.takeWhile_append_dropWhile
  · rfl

end Masking

/-- Masking keeps the characters of a text. -/
theorem map_char_maskCharacters {text : List Char} {ms : List Masked}
    (h : maskCharacters text = .ok ms) : ms.map Masked.char = text := by
  unfold maskCharacters at h
  cases hrun : (Masking.start text).1.run (Masking.start text).2 with
  | error e =>
    simp only [hrun] at h
    cases h
  | ok s =>
    have htext := Masking.State.text_run hrun
    rw [Masking.text_start] at htext
    simp only [hrun] at h
    simp only [bind, Except.bind] at h
    split at h
    · cases h
    · cases h
      exact htext

end ModuleWorkers
