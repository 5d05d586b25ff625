import Mathlib.Data.Bool.AllAny
import ModuleWorkers.Json.Relaxed
import ModuleWorkers.Proofs.Worker.Locality

/-!
# Pieces of relaxed JSON

A text in the relaxed form is made of strings, comments and characters that are neither quotes nor
slashes nor brackets of calls (`Json.Relaxed.Pieces`), as far as its tokens can be read at all
(`Json.Relaxed.pieces_of_scan?`). Strings end where the reader of scripts ends them; comments after
two slashes end at any line terminator.
-/

namespace ModuleWorkers.Json.Relaxed

open Text

/-- The characters that no token but a string or a comment starts with or has in it. -/
def excluded : List Char := ['/', '\'', '"', '`', '(', ')']

/-- A text that is made of strings, comments and other characters. -/
inductive Pieces : List Char → Prop
  | nil : Pieces []
  | plain {c : Char} {cs : List Char} : c ∉ excluded → Pieces cs → Pieces (c :: cs)
  | string {quote : Char} {cs rest : List Char} : quote = '\'' ∨ quote = '"' →
      (∀ r, Masking.stringBody quote [] cs = some r → r.2 = rest) → Pieces rest →
      Pieces (quote :: cs)
  | lineComment {line rest : List Char} : (∀ c ∈ line, ¬ isLineTerminator c) →
      (∀ c ∈ rest.head?, isLineTerminator c) → Pieces rest → Pieces ('/' :: '/' :: (line ++ rest))
  | blockComment {cs body rest : List Char} : cut? ['*', '/'] cs = some (body, rest) → Pieces rest →
      Pieces ('/' :: '*' :: cs)

namespace Pieces

theorem append {cs rest : List Char} (hcs : ∀ c ∈ cs, c ∉ excluded) (h : Pieces rest) :
    Pieces (cs ++ rest) := by
  induction cs with
  | nil => exact h
  | cons c cs ih =>
    exact .plain (hcs c List.mem_cons_self) (ih fun d hd => hcs d (List.mem_cons_of_mem c hd))

theorem of_cons {c : Char} {cs : List Char} (hc : c ∉ excluded) (h : Pieces (c :: cs)) :
    Pieces cs := by
  cases h with
  | plain _ h => exact h
  | string hquote => rcases hquote with rfl | rfl <;> exact absurd hc (by decide)
  | lineComment | blockComment => exact absurd hc (by decide)

theorem of_append {cs rest : List Char} (hcs : ∀ c ∈ cs, c ∉ excluded) (h : Pieces (cs ++ rest)) :
    Pieces rest := by
  induction cs with
  | nil => exact h
  | cons c cs ih =>
    exact ih (fun d hd => hcs d (List.mem_cons_of_mem c hd)) (h.of_cons (hcs c List.mem_cons_self))

/-- No piece starts with a parenthesis or a tick. -/
theorem not_cons {c : Char} {cs : List Char} (hc : c ∈ ['`', '(', ')']) : ¬ Pieces (c :: cs) := by
  intro h
  cases h with
  | plain hplain =>
    simp only [excluded, List.mem_cons, List.not_mem_nil, or_false, not_or] at hplain hc
    tauto
  | string hquote => rcases hquote with rfl | rfl <;> exact absurd hc (by decide)
  | lineComment | blockComment => exact absurd hc (by decide)

/-- A string that the reader of scripts ends somewhere ends there. -/
theorem of_string {quote : Char} (hquote : quote = '\'' ∨ quote = '"')
    {cs body rest : List Char} (hbody : Masking.stringBody quote [] cs = some (body, rest))
    (h : Pieces (quote :: cs)) : Pieces rest := by
  generalize hall : quote :: cs = all at h
  cases h with
  | nil => cases hall
  | plain hplain =>
    rw [← (List.cons.inj hall).1] at hplain
    rcases hquote with rfl | rfl <;> exact absurd hplain (by decide)
  | string _ hends h =>
    obtain ⟨rfl, rfl⟩ := List.cons.inj hall
    obtain rfl : rest = _ := hends _ hbody
    exact h
  | lineComment | blockComment =>
    rw [(List.cons.inj hall).1] at hquote
    exact absurd hquote (by decide)

/-- A slash starts a comment. -/
theorem exists_comment {cs : List Char} (h : Pieces ('/' :: cs)) :
    cs.head? = some '/' ∨
      ∃ cs' body rest, cs = '*' :: cs' ∧ cut? ['*', '/'] cs' = some (body, rest) ∧ Pieces rest := by
  cases h with
  | plain hplain => exact absurd hplain (by decide)
  | string hquote => exact absurd hquote (by decide)
  | lineComment => exact .inl rfl
  | blockComment hcut h => exact .inr ⟨_, _, _, rfl, hcut, h⟩

/-- A comment in asterisks that the reader of scripts ends somewhere ends there. -/
theorem of_blockComment {cs body rest : List Char} (hcut : cut? ['*', '/'] cs = some (body, rest))
    (h : Pieces ('/' :: '*' :: cs)) : Pieces rest := by
  rcases h.exists_comment with hslash | ⟨cs', body', rest', hcs, hcut', hrest⟩
  · cases hslash
  · rw [← (List.cons.inj hcs).2, hcut] at hcut'
    obtain ⟨-, rfl⟩ := Prod.mk.inj (Option.some.inj hcut')
    exact hrest

end Pieces

/-! ## Strings -/

theorem hexValue?_eq_none {c : Char} (hc : c ∈ '\\' :: '\n' :: excluded) : hexValue? c = none := by
  have hall : ∀ d ∈ '\\' :: '\n' :: excluded, hexValue? d = none :=
    List.all_iff_forall_prop.1 (by decide)
  exact hall c hc

section

variable {quote : Char} (hquote : quote = '\'' ∨ quote = '"')

include hquote

/-- A hexadecimal digit goes into a string. -/
theorem stringBody_of_hexValue? {c : Char} {n : Nat} (hc : hexValue? c = some n)
    (read cs : List Char) :
    Masking.stringBody quote read (c :: cs) = Masking.stringBody quote (c :: read) cs := by
  have hne : ∀ d ∈ '\\' :: '\n' :: excluded, c ≠ d := by
    rintro d hd rfl
    rw [hexValue?_eq_none hd] at hc
    cases hc
  have hq : c ≠ quote := by rcases hquote with rfl | rfl <;> exact hne _ (by decide)
  rw [Masking.stringBody_cons (hne _ (by decide)), if_neg (hne _ (by decide)), if_neg hq]

theorem exists_read_of_hex4? {a b c d : Char} {n : Nat} (h : hex4? a b c d = some n)
    (read cs : List Char) : ∃ read', Masking.stringBody quote read (a :: b :: c :: d :: cs) =
      Masking.stringBody quote read' cs := by
  simp only [hex4?, Option.bind_eq_bind, Option.bind_eq_some_iff] at h
  obtain ⟨_, ha, _, hb, _, hc, _, hd, -⟩ := h
  refine ⟨d :: c :: b :: a :: read, ?_⟩
  rw [stringBody_of_hexValue? hquote ha, stringBody_of_hexValue? hquote hb,
    stringBody_of_hexValue? hquote hc, stringBody_of_hexValue? hquote hd]

/-- The digits of an escape go into a string. -/
theorem exists_read_of_unicodeEscape? {cs rest : List Char} {c : Char}
    (h : unicodeEscape? cs = some (c, rest)) (read : List Char) :
    ∃ read', Masking.stringBody quote read cs = Masking.stringBody quote read' rest := by
  unfold unicodeEscape? at h
  split at h
  · simp only [Option.bind_eq_bind, Option.bind_eq_some_iff] at h
    obtain ⟨n, hn, h⟩ := h
    obtain ⟨read₁, h₁⟩ := exists_read_of_hex4? hquote hn read _
    rw [h₁]
    split at h
    · split at h
      · simp only [Option.bind_eq_some_iff] at h
        obtain ⟨m, hm, h⟩ := h
        split at h
        · obtain rfl := congrArg Prod.snd (Option.some.inj h)
          rw [Masking.stringBody_escape]
          exact exists_read_of_hex4? hquote hm _ _
        · cases h
      · cases h
    · split at h
      · cases h
      · cases h
        exact ⟨read₁, rfl⟩
  · cases h

/-- A string ends where the reader of scripts ends it. -/
theorem eq_rest_of_stringBody {read cs text rest : List Char}
    (h : stringBody quote read cs = some (text, rest)) {read' : List Char}
    {r : List Char × List Char} (hr : Masking.stringBody quote read' cs = some r) : r.2 = rest := by
  fun_induction stringBody quote read cs generalizing read' with
  | case1 => cases h
  | case2 => cases h
  | case3 _ _ _ _ hescape _ ih =>
    obtain ⟨read₁, h₁⟩ := exists_read_of_unicodeEscape? hquote hescape ('u' :: '\\' :: read')
    rw [Masking.stringBody_escape, h₁] at hr
    exact ih h hr
  | case4 _ _ _ _ _ _ hb ha ih =>
    rw [Masking.stringBody_escape, stringBody_of_hexValue? hquote ha,
      stringBody_of_hexValue? hquote hb] at hr
    exact ih h hr
  | case5 => cases h
  | case6 _ _ ih =>
    rw [Masking.stringBody_escape] at hr
    exact ih h hr
  | case7 =>
    -- For the reader of scripts the line feed ends the string.
    rw [Masking.stringBody_escape, Masking.stringBody_cons (by decide), if_pos rfl] at hr
    cases hr
  | case8 _ _ _ _ _ _ _ _ ih =>
    rw [Masking.stringBody_escape] at hr
    exact ih h hr
  | case9 => cases h
  | case10 _ _ _ _ _ _ _ _ _ ih =>
    rw [Masking.stringBody_escape] at hr
    exact ih h hr
  | case11 =>
    cases h
    have hline : quote ≠ '\n' := by rcases hquote with rfl | rfl <;> decide
    have hescape : quote ≠ '\\' := by rcases hquote with rfl | rfl <;> decide
    rw [Masking.stringBody_cons hescape, if_neg hline, if_pos rfl] at hr
    cases hr
    rfl
  | case12 => cases h
  | case13 _ c _ _ _ _ _ _ hne hc ih =>
    have hline : c ≠ '\n' := by
      rintro rfl
      exact hc (.inr rfl)
    rw [Masking.stringBody_cons (fun h => hc (.inl h)), if_neg hline, if_neg hne] at hr
    exact ih h hr

end

/-! ## Words, numbers and comments -/

theorem not_mem_excluded {p : Char → Bool} (hp : excluded.all (!p ·)) {c : Char} (hc : p c) :
    c ∉ excluded := by
  intro h
  have hnot := List.all_eq_true.1 hp c h
  rw [hc] at hnot
  cases hnot

theorem not_mem_excluded_of_hex4? {a b c d : Char} {n : Nat} (h : hex4? a b c d = some n) :
    ∀ e ∈ [a, b, c, d], e ∉ excluded := by
  simp only [hex4?, Option.bind_eq_bind, Option.bind_eq_some_iff] at h
  obtain ⟨_, ha, _, hb, _, hc, _, hd, -⟩ := h
  have hdigit : ∀ {e : Char} {m : Nat}, hexValue? e = some m → e ∉ excluded := by
    intro e m he hmem
    rw [hexValue?_eq_none (by simp [hmem])] at he
    cases he
  intro e he
  simp only [List.mem_cons, List.not_mem_nil, or_false] at he
  rcases he with rfl | rfl | rfl | rfl
  · exact hdigit ha
  · exact hdigit hb
  · exact hdigit hc
  · exact hdigit hd

theorem not_mem_excluded_of_mem_escape : ∀ c ∈ ['\\', 'u'], c ∉ excluded :=
  List.all_iff_forall_prop.1 (by decide)

theorem exists_front_of_unicodeEscape? {cs rest : List Char} {c : Char}
    (h : unicodeEscape? cs = some (c, rest)) :
    ∃ front, cs = front ++ rest ∧ ∀ d ∈ front, d ∉ excluded := by
  unfold unicodeEscape? at h
  split at h
  · rename_i a b c d _
    simp only [Option.bind_eq_bind, Option.bind_eq_some_iff] at h
    obtain ⟨n, hn, h⟩ := h
    have hfirst := not_mem_excluded_of_hex4? hn
    split at h
    · split at h
      · rename_i e f g i _
        simp only [Option.bind_eq_some_iff] at h
        obtain ⟨m, hm, h⟩ := h
        split at h
        · obtain rfl := congrArg Prod.snd (Option.some.inj h)
          refine ⟨[a, b, c, d] ++ (['\\', 'u'] ++ [e, f, g, i]), rfl, fun x hx => ?_⟩
          rcases List.mem_append.1 hx with hx | hx
          · exact hfirst x hx
          · rcases List.mem_append.1 hx with hx | hx
            · exact not_mem_excluded_of_mem_escape x hx
            · exact not_mem_excluded_of_hex4? hm x hx
        · cases h
      · cases h
    · split at h
      · cases h
      · obtain rfl := congrArg Prod.snd (Option.some.inj h)
        exact ⟨[a, b, c, d], rfl, hfirst⟩
  · cases h

theorem exists_front_of_wordBody {read cs text rest : List Char}
    (h : wordBody read cs = some (text, rest)) :
    ∃ front, cs = front ++ rest ∧ ∀ d ∈ front, d ∉ excluded := by
  fun_induction wordBody read cs with
  | case1 => cases h
  | case2 _ _ _ _ hescape _ ih =>
    obtain ⟨front, rfl, hfront⟩ := ih h
    obtain ⟨digits, rfl, hdigits⟩ := exists_front_of_unicodeEscape? hescape
    refine ⟨['\\', 'u'] ++ (digits ++ front), by simp, fun d hd => ?_⟩
    rcases List.mem_append.1 hd with hd | hd
    · exact not_mem_excluded_of_mem_escape d hd
    · rcases List.mem_append.1 hd with hd | hd
      · exact hdigits d hd
      · exact hfront d hd
  | case3 _ c _ _ hc ih =>
    obtain ⟨front, rfl, hfront⟩ := ih h
    refine ⟨c :: front, rfl, fun d hd => ?_⟩
    rcases List.mem_cons.1 hd with rfl | hd
    · exact not_mem_excluded (by decide) hc
    · exact hfront d hd
  | case4 =>
    obtain rfl := congrArg Prod.snd (Option.some.inj h)
    exact ⟨[], rfl, by simp⟩
  | case5 =>
    obtain rfl := congrArg Prod.snd (Option.some.inj h)
    exact ⟨[], rfl, by simp⟩

theorem exists_body_of_afterBlock {cs rest : List Char}
    (h : afterComment?.afterBlock cs = some rest) :
    ∃ body, cut? ['*', '/'] cs = some (body, rest) := by
  fun_induction afterComment?.afterBlock cs with
  | case1 => cases h
  | case2 =>
    cases h
    exact ⟨[], by simp [cut?]⟩
  | case3 c cs hne ih =>
    obtain ⟨body, hbody⟩ := ih h
    refine ⟨c :: body, ?_⟩
    rw [cut?, if_neg, hbody]
    · rfl
    · intro hprefix
      obtain ⟨tail, htail⟩ := List.isPrefixOf_iff_prefix.1 hprefix
      obtain ⟨rfl, rfl⟩ := List.cons.inj htail
      exact hne tail rfl rfl

/-- What can be cut into tokens is made of pieces. -/
theorem pieces_of_scan? {cs : List Char} {ts : List Token} (h : scan? cs = some ts) :
    Pieces cs := by
  fun_induction scan? cs generalizing ts with
  | case1 => exact .nil
  | case2 c cs hblank ih => exact .plain (not_mem_excluded (by decide) hblank) (ih h)
  | case3 c cs _ t ht ih =>
    obtain ⟨ts', hts', -⟩ := Option.map_eq_some_iff.1 h
    refine .plain (fun hc => ?_) (ih hts')
    have hnone : ∀ d ∈ excluded, Token.punctuation? d = none :=
      List.all_iff_forall_prop.1 (by decide)
    rw [hnone c hc] at ht
    cases ht
  | case4 => cases h
  | case5 _ _ hcomment _ _ _ ih =>
    unfold afterComment? at hcomment
    split at hcomment
    · rename_i line _
      obtain rfl := Option.some.inj hcomment
      rw [← List.takeWhile_append_dropWhile (p := (!isLineTerminator ·)) (l := line)]
      refine .lineComment (fun c hc => ?_) (fun c hc => ?_) (ih h)
      · simpa using List.mem_takeWhile_imp hc
      · simpa using not_of_mem_head?_dropWhile hc
    · obtain ⟨body, hbody⟩ := exists_body_of_afterBlock hcomment
      exact .blockComment hbody (ih h)
    · cases hcomment
  | case6 => cases h
  | case7 c cs _ _ _ hquote text rest hbody _ ih =>
    obtain ⟨ts', hts', -⟩ := Option.map_eq_some_iff.1 h
    exact .string hquote.symm (fun r hr => eq_rest_of_stringBody hquote.symm hbody hr) (ih hts')
  | case8 =>
    rename_i c cs _ _ _ _ hnumber _ _ _ ih
    obtain ⟨ts', hts', -⟩ := Option.map_eq_some_iff.1 h
    rw [← List.takeWhile_append_dropWhile (p := isNumberPart) (l := cs)]
    refine .plain (not_mem_excluded (by decide) hnumber) (.append (fun d hd => ?_) (ih hts'))
    exact not_mem_excluded (by decide) (List.mem_takeWhile_imp hd)
  | case9 => cases h
  | case10 => cases h
  | case11 c cs _ _ _ _ _ hstart text rest hword _ ih =>
    obtain ⟨ts', hts', -⟩ := Option.map_eq_some_iff.1 h
    obtain ⟨front, rfl, hfront⟩ := exists_front_of_wordBody hword
    exact .plain (not_mem_excluded (by decide) hstart) (.append hfront (ih hts'))
  | case12 => cases h
  | case13 cs _ _ _ _ _ _ _ _ _ hword ih =>
    obtain ⟨ts', hts', -⟩ := Option.map_eq_some_iff.1 h
    obtain ⟨front, hcs, hfront⟩ := exists_front_of_wordBody hword
    exact hcs ▸ .append hfront (ih hts')
  | case14 => cases h
  | case15 => cases h

/-! ## Comments to the end of a line -/

/-- Whether nothing else than a comment to the end of the line stands behind any line terminator in
a line. -/
def EndsAtTerminator (line : List Char) : Prop :=
  ∀ front c behind, line = front ++ c :: behind → isLineTerminator c →
    behind.dropWhile isScriptBlank = [] ∨ ['/', '/'] <+: behind.dropWhile isScriptBlank

/-- Whether all comments to the end of the line that a text may have in it end there, whatever ends
a line. -/
def CommentsEndAlike (cs : List Char) : Prop :=
  ∀ front tail, cs = front ++ '/' :: '/' :: tail → EndsAtTerminator (tail.takeWhile (· != '\n'))

theorem endsAtTerminator_cons {c : Char} {line : List Char} :
    EndsAtTerminator (c :: line) ↔ (isLineTerminator c → line.dropWhile isScriptBlank = [] ∨
      ['/', '/'] <+: line.dropWhile isScriptBlank) ∧ EndsAtTerminator line := by
  constructor
  · intro h
    refine ⟨h [] c line rfl, ?_⟩
    rintro front d behind rfl
    exact h (c :: front) d behind rfl
  · rintro ⟨hc, hline⟩ front d behind hsplit
    cases front with
    | nil =>
      obtain ⟨rfl, rfl⟩ := List.cons.inj hsplit
      exact hc
    | cons e front =>
      obtain ⟨rfl, rfl⟩ := List.cons.inj hsplit
      exact hline front d behind rfl

theorem commentsEndAlike_cons {c : Char} {cs : List Char} :
    CommentsEndAlike (c :: cs) ↔ (c = '/' → cs.head? = some '/' →
      EndsAtTerminator (cs.tail.takeWhile (· != '\n'))) ∧ CommentsEndAlike cs := by
  constructor
  · intro h
    refine ⟨?_, ?_⟩
    · rintro rfl hhead
      obtain ⟨tail, rfl⟩ := List.head?_eq_some_iff.1 hhead
      exact h [] tail rfl
    · rintro front tail rfl
      exact h (c :: front) tail rfl
  · rintro ⟨hc, hcs⟩ front tail hsplit
    cases front with
    | nil =>
      obtain ⟨rfl, rfl⟩ := List.cons.inj hsplit
      exact hc rfl rfl
    | cons e front =>
      obtain ⟨rfl, rfl⟩ := List.cons.inj hsplit
      exact hcs front tail rfl

instance instDecidableEndsAtTerminator : (line : List Char) → Decidable (EndsAtTerminator line)
  | [] => .isTrue fun front c behind h => absurd h (by simp)
  | c :: line =>
    have := instDecidableEndsAtTerminator line
    decidable_of_iff _ (@endsAtTerminator_cons c line).symm

instance instDecidableCommentsEndAlike : (cs : List Char) → Decidable (CommentsEndAlike cs)
  | [] => .isTrue fun front tail h => absurd h (by simp)
  | c :: cs =>
    have := instDecidableCommentsEndAlike cs
    decidable_of_iff _ (@commentsEndAlike_cons c cs).symm

theorem EndsAtTerminator.of_append {front line : List Char} (h : EndsAtTerminator (front ++ line)) :
    EndsAtTerminator line := by
  rintro front' c behind rfl hc
  exact h (front ++ front') c behind (List.append_assoc _ _ _).symm hc

theorem CommentsEndAlike.of_append {front cs : List Char} (h : CommentsEndAlike (front ++ cs)) :
    CommentsEndAlike cs := by
  rintro front' tail rfl
  exact h (front ++ front') tail (List.append_assoc _ _ _).symm

theorem not_mem_excluded_of_isScriptBlank {c : Char} (hc : isScriptBlank c) : c ∉ excluded :=
  not_mem_excluded (by decide) hc

/-- A comment up to a line feed is made of pieces if it ends at any line terminator, too. -/
theorem Pieces.of_lineComment {line rest : List Char} (hends : EndsAtTerminator line)
    (hline : '\n' ∉ line) (hrest : ∀ c ∈ rest.head?, c = '\n')
    (h : Pieces ('/' :: '/' :: (line ++ rest))) : Pieces rest := by
  generalize hall : '/' :: '/' :: (line ++ rest) = all at h
  cases h with
  | nil => cases hall
  | plain hc => exact absurd hc (by rw [← (List.cons.inj hall).1]; decide)
  | string hquote =>
    rw [← (List.cons.inj hall).1] at hquote
    exact absurd hquote (by decide)
  | blockComment => cases (List.cons.inj (List.cons.inj hall).2).1
  | @lineComment line' rest' hline' hrest' hpieces =>
    have hsplit : line ++ rest = line' ++ rest' := (List.cons.inj (List.cons.inj hall).2).2
    rcases List.append_eq_append_iff.1 hsplit with ⟨e, rfl, he⟩ | ⟨e, hle, rfl⟩
    · -- The comment does not go over the line feed.
      cases e with
      | nil => exact he ▸ hpieces
      | cons d e =>
        obtain rfl : d = '\n' := hrest d (by rw [he]; rfl)
        exact absurd (by decide) ( hline' '\n' (by simp))
    · cases e with
      | nil => exact hpieces
      | cons d e =>
        have hd : isLineTerminator d := hrest' d rfl
        have hdplain : d ∉ excluded := not_mem_excluded (by decide) hd
        -- What stands behind the terminator is blank up to the next comment.
        rw [List.cons_append, ← List.takeWhile_append_dropWhile (p := isScriptBlank) (l := e),
          List.append_assoc] at hpieces
        have hbehind := (hpieces.of_cons hdplain).of_append
          fun c hc => not_mem_excluded_of_isScriptBlank (List.mem_takeWhile_imp hc)
        rcases hends line' d e hle hd with hnil | ⟨tail, htail⟩
        · rwa [hnil] at hbehind
        · have he := List.takeWhile_append_dropWhile (p := isScriptBlank) (l := e)
          rw [← htail] at hbehind he
          have hle' : line = (line' ++ d :: e.takeWhile isScriptBlank ++ ['/', '/']) ++ tail := by
            rw [hle]
            conv_lhs => rw [← he]
            simp
          have hshorter : tail.length < line.length := by
            rw [hle']
            simp only [List.length_append, List.length_cons]
            omega
          exact of_lineComment (hle' ▸ hends).of_append
            (fun hmem => hline (by rw [hle']; exact List.mem_append_right _ hmem)) hrest hbehind
termination_by line.length

end ModuleWorkers.Json.Relaxed
