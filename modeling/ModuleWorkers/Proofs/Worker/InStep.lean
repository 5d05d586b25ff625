import ModuleWorkers.Proofs.Worker.LineEnds

/-!
# Reading with other line ends

A script that is saved with other line ends is read in step with the one that has line feeds
(`Masking.Follows`), token by token, except where the reader counts one character for a line end
that has two, or does not count it as one:

* a string or a regular expression may go on behind a backslash and a carriage return, but not over
  the line feed that follows these;
* a comment goes on behind a carriage return, up to a line feed.

So with carriage returns and line feeds a script is masked alike exactly if none of its literals
goes over the end of a line (`Masking.alikeWith_crlf_iff`), and with carriage returns if it has no
line behind a comment (`Masking.alikeWith_of_suits`).
-/

namespace ModuleWorkers

open Text Masked

namespace Masking

open LineEnd

variable {e : LineEnd}

/-! ## Tokens that read alike -/

/-- The body of the string or regular expression that starts here. -/
def State.literal? (s : State) (c : Char) (cs : List Char) : Option (List Char) :=
  if c = '\'' ∨ c = '"' then (stringBody c [] cs).map Prod.fst
  else if c = '/' ∧ cs.head? ≠ some '/' ∧ cs.head? ≠ some '*' ∧ s.atExpression then
    (regexBody false [] cs).map Prod.fst
  else none

/-- Whether what starts here reads alike with other line ends: a string or regular expression that
does not go over the end of a line, or a comment with no line behind it. -/
def LineEnd.SuitsToken (e : LineEnd) (s : State) (c : Char) (cs : List Char) : Prop :=
  match e with
  | lf => True
  | cr => c = '/' → cs.head? = some '/' → '\n' ∉ cs
  | crlf => ∀ body ∈ s.literal? c cs, '\n' ∉ body
  | ls | ps => False

/-- Whether the reader gets over the rest of a script, and all tokens read alike with other line
ends. -/
inductive LineEnd.SuitsRest (e : LineEnd) : State → List Char → Prop
  | nil (s : State) : e.SuitsRest s []
  | cons {s s' : State} {c : Char} {cs rest : List Char} : e.SuitsToken s c cs →
      s.next c cs = .ok (s', rest) → e.SuitsRest s' rest → e.SuitsRest s (c :: cs)

/-! ## Reading in step -/

namespace State

theorem keep_append (s : State) (as bs : List Char) : s.keep (as ++ bs) = (s.keep as).keep bs := by
  simp [keep, pass]

theorem hide_append (s : State) (as bs : List Char) : s.hide (as ++ bs) = (s.hide as).hide bs := by
  simp [hide, pass]

theorem next_lineFeed (s : State) (cs : List Char) :
    s.next '\n' cs = .ok (s.keep ['\n'], cs) := by
  simp [next, sign, isWordPart, isAsciiBlank]

/-- Line ends change nothing around. -/
theorem run_lineEnds (s : State) {bs : List Char} (hbs : ∀ b ∈ bs, b = '\n' ∨ b = '\r')
    (cs : List Char) : s.run (bs ++ cs) = (s.keep bs).run cs := by
  induction bs generalizing s with
  | nil => rfl
  | cons b bs ih =>
    obtain ⟨hb, hbs⟩ := List.forall_mem_cons.1 hbs
    have hnext : s.next b (bs ++ cs) = .ok (s.keep [b], bs ++ cs) := by
      rcases hb with rfl | rfl <;> simp [next, sign, isWordPart, isAsciiBlank]
    rw [List.cons_append, run_cons hnext, ih _ hbs, ← keep_append, List.singleton_append]

end State

/-- Whether a reader has read with other line ends what another one has read. -/
structure Follows (e : LineEnd) (s t : State) : Prop where
  templates : t.templates.map Prod.fst = s.templates.map Prod.fst
  depth : t.depth = s.depth
  parens : t.parens = s.parens
  atExpression : t.atExpression = s.atExpression
  visible : t.done.reverse.map visible = e.write (s.done.reverse.map visible)
  written : t.done.reverse.flatMap written = e.write (s.done.reverse.flatMap written)

/-- Whether two steps lead to places from which reading goes on in step, or both fail. -/
def Agree (e : LineEnd) :
    Except LexError (State × List Char) → Except LexError (State × List Char) → Prop
  | .ok (s, cs), .ok (t, ds) => Follows e s t ∧ ds = e.write cs
  | .error _, .error _ => True
  | _, _ => False

theorem Agree.exists_ok {a b : Except LexError (State × List Char)} (h : Agree e a b) {s : State}
    {cs : List Char} (ha : a = .ok (s, cs)) : ∃ t, b = .ok (t, e.write cs) ∧ Follows e s t := by
  subst ha
  match b, h with
  | .ok (t, _), ⟨hfollows, rfl⟩ => exact ⟨t, rfl, hfollows⟩

theorem Agree.exists_error {a b : Except LexError (State × List Char)} (h : Agree e a b)
    (ha : ∃ err, a = .error err) : ∃ err, b = .error err := by
  obtain ⟨_, rfl⟩ := ha
  match b, h with
  | .error err, _ => exact ⟨err, rfl⟩

namespace Follows

variable {s t s₁ : State} {c : Char} {cs rest : List Char}

theorem before (h : Follows e s t) (b : Bool) : Follows e (s.before b) (t.before b) :=
  { h with atExpression := rfl }

section Shown

variable (he : e.HasReturn) (isHidden : Bool)

include he

/-- Line ends are shown as they are, whether they are hidden or not. -/
theorem visible_written_of_mem {d : Char} (hd : d ∈ e.chars) :
    (⟨d, isHidden⟩ : Masked).visible = d ∧ (⟨d, isHidden⟩ : Masked).written = [d] := by
  rcases he.mem_chars hd with rfl | rfl <;> cases isHidden <;> exact ⟨rfl, rfl⟩

theorem map_visible_write (cs : List Char) :
    (e.write cs).map (fun c => (⟨c, isHidden⟩ : Masked).visible) =
      e.write (cs.map fun c => (⟨c, isHidden⟩ : Masked).visible) := by
  induction cs with
  | nil => rfl
  | cons c cs ih =>
    rw [write_cons, List.map_append, ih, List.map_cons, write_cons]
    congr 1
    by_cases hc : c = '\n'
    · subst hc
      have hvisible : (⟨'\n', isHidden⟩ : Masked).visible = '\n' := by cases isHidden <;> rfl
      rw [hvisible]
      exact (List.map_congr_left fun d hd => (visible_written_of_mem he isHidden hd).1).trans
        (List.map_id _)
    · have hvisible : (⟨c, isHidden⟩ : Masked).visible ≠ '\n' := by
        unfold Masked.visible
        split
        · decide
        · exact hc
      rw [e.spell_of_ne hc, e.spell_of_ne hvisible]
      rfl

theorem flatMap_written_write (cs : List Char) :
    (e.write cs).flatMap (fun c => (⟨c, isHidden⟩ : Masked).written) =
      e.write (cs.flatMap fun c => (⟨c, isHidden⟩ : Masked).written) := by
  induction cs with
  | nil => rfl
  | cons c cs ih =>
    rw [write_cons, List.flatMap_append, ih, List.flatMap_cons, write_append]
    congr 1
    by_cases hc : c = '\n'
    · subst hc
      have hwritten : (⟨'\n', isHidden⟩ : Masked).written = ['\n'] := by cases isHidden <;> rfl
      have hchars : e.chars.flatMap (fun d => (⟨d, isHidden⟩ : Masked).written) =
          e.chars.flatMap fun d => [d] :=
        List.flatMap_congr fun d hd => (visible_written_of_mem he isHidden hd).2
      rw [hwritten, write_lineFeed, write_nil, List.append_nil]
      exact hchars.trans (List.flatMap_singleton' _)
    · have hwritten : '\n' ∉ (⟨c, isHidden⟩ : Masked).written := by
        unfold Masked.written
        split
        · simp
        · simpa using Ne.symm hc
      rw [e.spell_of_ne hc, e.write_of_not_mem hwritten, List.flatMap_singleton]

theorem pass (h : Follows e s t) (cs : List Char) :
    Follows e (s.pass isHidden cs) (t.pass isHidden (e.write cs)) :=
  { h with
    visible := by
      simp only [State.done_pass, List.reverse_append, List.reverse_reverse, List.map_append,
        List.map_map, h.visible, write_append]
      exact congrArg _ (map_visible_write he isHidden cs)
    written := by
      simp only [State.done_pass, List.reverse_append, List.reverse_reverse, List.flatMap_append,
        List.flatMap_map, h.written, write_append]
      exact congrArg _ (flatMap_written_write he isHidden cs) }

end Shown

section Tokens

variable (he : e.HasReturn) (h : Follows e s t)

include he h

theorem keep (cs : List Char) : Follows e (s.keep cs) (t.keep (e.write cs)) := h.pass he false cs

theorem hide (cs : List Char) : Follows e (s.hide cs) (t.hide (e.write cs)) := h.pass he true cs

theorem keep_one (hc : c ≠ '\n') : Follows e (s.keep [c]) (t.keep [c]) := by
  have := h.keep he [c]
  rwa [e.write_cons_of_ne hc] at this

/-- Line ends are blanks, so the same word is found in front of a parenthesis. -/
theorem afterControlWord_eq : t.afterControlWord = s.afterControlWord := by
  have hback : t.done.map Masked.visible =
      (s.done.map Masked.visible).flatMap fun c => (e.spell c).reverse := by
    have := congrArg List.reverse h.visible
    rw [LineEnd.write, List.reverse_flatMap, ← List.map_reverse, ← List.map_reverse,
      List.reverse_reverse, List.reverse_reverse] at this
    exact this
  have hne : ∀ c : Char, (e.spell c).reverse ≠ [] := fun c =>
    List.reverse_eq_nil_iff.not.2 (he.spell_ne_nil c)
  have hsame : ∀ {p : Char → Bool}, p '\r' = p '\n' → ∀ c, ∀ d ∈ (e.spell c).reverse, p d = p c :=
    fun hp c d hd => he.eq_of_mem_spell hp (List.mem_reverse.1 hd)
  have hwords : ∀ cs : List Char, (cs.takeWhile isWordPart).flatMap (fun c => (e.spell c).reverse) =
      cs.takeWhile isWordPart := by
    intro cs
    have hstay : ∀ c ∈ cs.takeWhile isWordPart, (e.spell c).reverse = [c] := by
      intro c hc
      have hword := List.mem_takeWhile_imp hc
      rw [e.spell_of_ne (by rintro rfl; exact absurd hword (by decide)), List.reverse_singleton]
    rw [List.flatMap_congr hstay, List.flatMap_singleton']
  have hmap : ∀ u : State, u.afterControlWord =
      let before := (u.done.map Masked.visible).dropWhile isAsciiBlank
      let front := (before.dropWhile isWordPart).dropWhile isAsciiBlank
      (!front.head?.any (· == '.') &&
        controlWords.contains (.ofList (before.takeWhile isWordPart).reverse)) := by
    intro u
    simp only [State.afterControlWord, List.dropWhile_map, List.takeWhile_map, List.head?_map,
      Option.any_map]
    rfl
  rw [hmap, hmap, hback]
  simp only [dropWhile_flatMap (fun c _ => hne c) (fun c _ => hsame (p := isAsciiBlank) rfl c),
    dropWhile_flatMap (fun c _ => hne c) (fun c _ => hsame (p := isWordPart) rfl c),
    takeWhile_flatMap (fun c _ => hne c) (fun c _ => hsame (p := isWordPart) rfl c),
    any_head?_flatMap (fun c _ => hne c) (fun c _ => hsame (p := (· == '.')) rfl c), hwords]

theorem template (start start' : Nat) (cs : List Char) :
    Agree e (s.template start cs) (t.template start' (e.write cs)) := by
  have htext : templateText [] (e.write cs) =
      (templateText [] cs).map fun r => (e.write r.1, r.2.1, e.write r.2.2) :=
    templateText_write he rfl
  unfold State.template
  rw [htext]
  cases templateText [] cs with
  | none => exact trivial
  | some r =>
    obtain ⟨body, ends, tail⟩ := r
    have hend : e.write (if ends then ['`'] else ['$', '{']) =
        if ends then ['`'] else ['$', '{'] := by cases ends <;> rfl
    have hlast := ((h.hide he body).keep he (if ends then ['`'] else ['$', '{'])).before !ends
    rw [hend] at hlast
    cases ends with
    | true => exact ⟨hlast, rfl⟩
    | false =>
      exact ⟨{ hlast with templates := congrArg₂ List.cons hlast.depth hlast.templates }, rfl⟩

theorem closeBrace (cs : List Char) : Agree e (s.closeBrace cs) (t.closeBrace (e.write cs)) := by
  have hkeep := h.keep_one he (c := '}') (by decide)
  have hclosed : Follows e { (s.keep ['}']).before true with depth := s.depth - 1 }
      { (t.keep ['}']).before true with depth := t.depth - 1 } :=
    { hkeep.before true with depth := congrArg (· - 1) h.depth }
  have htemplates := h.templates
  unfold State.closeBrace
  cases hs : s.templates with
  | nil =>
    rw [hs, List.map_nil, List.map_eq_nil_iff] at htemplates
    rw [htemplates]
    exact ⟨hclosed, rfl⟩
  | cons a outer =>
    rw [hs, List.map_cons] at htemplates
    obtain ⟨⟨_, start'⟩, outer', ht, rfl, houter⟩ := List.map_eq_cons_iff.1 htemplates
    have hinner : Follows e { s.keep ['}'] with templates := outer }
      { t.keep ['}'] with templates := outer' } := { hkeep with templates := houter }
    rw [ht]
    dsimp only
    rw [h.depth]
    split
    · exact hinner.template he a.2 start' cs
    · exact ⟨h.depth ▸ hclosed, rfl⟩

theorem blockComment (cs : List Char) :
    Agree e (s.slash ('*' :: cs)) (t.slash ('*' :: e.write cs)) := by
  rw [State.slash, State.slash, cut?_write he]
  cases cut? ['*', '/'] cs with
  | none => exact trivial
  | some r =>
    have hhide := h.hide he ('/' :: '*' :: r.1 ++ ['*', '/'])
    rw [write_append, e.write_cons_of_ne (by decide), e.write_cons_of_ne (by decide)] at hhide
    exact ⟨hhide, rfl⟩

theorem string {quote : Char} (hquote : quote = '\'' ∨ quote = '"')
    (hsuits : e.SuitsToken s quote cs) (hs : s.string quote cs = .ok (s₁, rest)) :
    ∃ t₁, t.string quote (e.write cs) = .ok (t₁, e.write rest) ∧ Follows e s₁ t₁ := by
  have hline : quote ≠ '\n' := by rcases hquote with rfl | rfl <;> decide
  unfold State.string at hs ⊢
  cases hbody : stringBody quote [] cs with
  | none =>
    rw [hbody] at hs
    cases hs
  | some r =>
    have hover : e = crlf → '\n' ∉ r.1 := by
      rintro rfl
      refine hsuits r.1 ?_
      rw [State.literal?, if_pos hquote, hbody]
      rfl
    rw [hbody] at hs
    rw [stringBody_write he hquote hbody hover]
    cases hs
    exact ⟨_, rfl, (((h.keep_one he hline).hide he r.1).keep_one he hline).before false⟩

/-- What a slash starts, other than a comment up to the end of its line. -/
theorem slash (hcomment : cs.head? ≠ some '/') (hsuits : e.SuitsToken s '/' cs)
    (hs : s.slash cs = .ok (s₁, rest)) :
    ∃ t₁, t.slash (e.write cs) = .ok (t₁, e.write rest) ∧ Follows e s₁ t₁ := by
  by_cases hstar : cs.head? = some '*'
  · obtain ⟨tail, rfl⟩ := List.head?_eq_some_iff.1 hstar
    rw [e.write_cons_of_ne (by decide)]
    exact (h.blockComment he tail).exists_ok hs
  · have hcomment' := ne_cons_of_head? (mt (he.head?_write (by decide)).1 hcomment)
    have hstar' := ne_cons_of_head? (mt (he.head?_write (by decide)).1 hstar)
    by_cases hat : s.atExpression
    · cases hbody : regexBody false [] cs with
      | none =>
        rw [State.slash_eq_of_expression (ne_cons_of_head? hcomment) (ne_cons_of_head? hstar) hat,
          hbody] at hs
        cases hs
      | some r =>
        have hover : e = crlf → '\n' ∉ r.1 := by
          rintro rfl
          refine hsuits r.1 ?_
          rw [State.literal?, if_neg (by decide), if_pos ⟨rfl, hcomment, hstar, hat⟩, hbody]
          rfl
        rw [State.slash_eq_of_regexBody (ne_cons_of_head? hcomment) (ne_cons_of_head? hstar) hat
          hbody] at hs
        cases hs
        exact ⟨_, State.slash_eq_of_regexBody hcomment' hstar' (h.atExpression ▸ hat)
            (regexBody_write he hbody hover),
          (((h.keep_one he (by decide)).hide he r.1).keep_one he (by decide)).before false⟩
    · rw [State.slash_eq_of_division (ne_cons_of_head? hcomment) (ne_cons_of_head? hstar) hat] at hs
      cases hs
      exact ⟨_, State.slash_eq_of_division hcomment' hstar' (h.atExpression ▸ hat),
        (h.keep_one he (by decide)).before true⟩

theorem word (hc : isWordPart c) (cs : List Char) :
    ∃ t₁, t.word c (e.write cs) = (t₁, e.write (s.word c cs).2) ∧
      Follows e (s.word c cs).1 t₁ := by
  obtain ⟨htake, hdrop⟩ := takeWhile_isWordPart_write he cs
  have hline : '\n' ∉ c :: cs.takeWhile isWordPart := by
    intro hmem
    rcases List.mem_cons.1 hmem with rfl | hmem
    · exact absurd hc (by decide)
    · exact absurd (List.mem_takeWhile_imp hmem) (by decide)
  have hkeep := h.keep he (c :: cs.takeWhile isWordPart)
  rw [e.write_of_not_mem hline] at hkeep
  refine ⟨_, ?_, hkeep.before _⟩
  rw [State.word, htake, hdrop]
  rfl

theorem sign (hc : c ≠ '\n' ∧ c ≠ '\r') (cs : List Char) :
    ∃ t₁, t.sign c (e.write cs) = (t₁, e.write (s.sign c cs).2) ∧
      Follows e (s.sign c cs).1 t₁ := by
  have hkeep := h.keep_one he hc.1
  have hhead : (e.write cs).head? = some c ↔ cs.head? = some c := he.head?_write hc
  unfold State.sign
  simp only [hhead]
  split_ifs with hopen htwo hparen hclose hvalue hblank
  · exact ⟨_, rfl, { hkeep.before true with depth := congrArg (· + 1) h.depth }⟩
  · obtain ⟨tail, rfl⟩ := List.head?_eq_some_iff.1 htwo.2
    rw [e.write_cons_of_ne hc.1]
    exact ⟨_, rfl, (hkeep.keep_one he hc.1).before false⟩
  · exact ⟨_, rfl, { hkeep.before true with
      parens := congrArg₂ List.cons (h.afterControlWord_eq he) h.parens }⟩
  · exact ⟨_, rfl, { hkeep with
      parens := congrArg List.tail h.parens
      atExpression := congrArg (List.headD · false) h.parens }⟩
  · exact ⟨_, rfl, hkeep.before false⟩
  · exact ⟨_, rfl, hkeep⟩
  · exact ⟨_, rfl, hkeep.before true⟩

/-- What is kept in step, other than a line feed or a comment up to the end of its line. -/
theorem next (hc : c ≠ '\n') (hcomment : ¬ (c = '/' ∧ cs.head? = some '/'))
    (hsuits : e.SuitsToken s c cs) (hs : s.next c cs = .ok (s₁, rest)) :
    ∃ t₁, t.next c (e.write cs) = .ok (t₁, e.write rest) ∧ Follows e s₁ t₁ := by
  unfold State.next at hs ⊢
  split_ifs at hs ⊢ with hslash hquote htick hbrace hword
  · subst hslash
    exact h.slash he (fun hhead => hcomment ⟨rfl, hhead⟩) hsuits hs
  · exact h.string he hquote hsuits hs
  · exact ((h.keep_one he (by decide)).template he _ _ cs).exists_ok hs
  · exact (h.closeBrace he cs).exists_ok hs
  · obtain ⟨t₁, ht₁, hfollows⟩ := h.word he hword cs
    obtain ⟨rfl, rfl⟩ := Prod.ext_iff.1 (Except.ok.inj hs)
    exact ⟨t₁, congrArg Except.ok ht₁, hfollows⟩
  · obtain ⟨rfl, rfl⟩ := Prod.ext_iff.1 (Except.ok.inj hs)
    by_cases hreturn : c = '\r'
    · subst hreturn
      exact ⟨_, rfl, h.keep_one he (by decide)⟩
    · obtain ⟨t₁, ht₁, hfollows⟩ := h.sign he ⟨hc, hreturn⟩ cs
      exact ⟨t₁, congrArg Except.ok ht₁, hfollows⟩

end Tokens

/-- What has no end, or goes over the end of a line, is not there with carriage returns and line
feeds. -/
theorem bind_of_over {o : Option (List Char × List Char)}
    (ho : o = none ∨ ∃ body ∈ o.map Prod.fst, '\n' ∈ body) :
    (o.bind fun r => if '\n' ∈ r.1 then none else some (r.1, crlf.write r.2)) = none := by
  rcases ho with rfl | ⟨body, hbody, hline⟩
  · rfl
  · obtain ⟨r, rfl, rfl⟩ := Option.map_eq_some_iff.1 hbody
    rw [Option.bind_some, if_pos hline]

/-- A slash that starts a regular expression or a comment without an end, or a regular expression
that goes over the end of a line. -/
theorem exists_slash_error (h : Follows crlf s t) (hcomment : cs.head? ≠ some '/')
    (hs : (∃ err, s.slash cs = .error err) ∨ ∃ body ∈ s.literal? '/' cs, '\n' ∈ body) :
    ∃ err, t.slash (crlf.write cs) = .error err := by
  have he : crlf.HasReturn := .inr rfl
  have hhead : ∀ {d : Char}, d ≠ '\n' ∧ d ≠ '\r' → cs.head? ≠ some d →
      ∀ tail, crlf.write cs ≠ d :: tail :=
    fun hd hne => ne_cons_of_head? (mt (he.head?_write hd).1 hne)
  rw [State.literal?, if_neg (by decide)] at hs
  by_cases hstar : cs.head? = some '*'
  · obtain ⟨tail, rfl⟩ := List.head?_eq_some_iff.1 hstar
    rw [if_neg (by simp)] at hs
    rw [crlf.write_cons_of_ne (by decide)]
    exact (h.blockComment he tail).exists_error (hs.resolve_right (by simp))
  by_cases hat : s.atExpression
  · rw [State.exists_slash_error_iff (ne_cons_of_head? hcomment) (ne_cons_of_head? hstar) hat,
      if_pos ⟨rfl, hcomment, hstar, hat⟩] at hs
    rw [State.exists_slash_error_iff (hhead (by decide) hcomment) (hhead (by decide) hstar)
      (h.atExpression ▸ hat), regexBody_crlf List.not_mem_nil, bind_of_over hs]
  · rw [State.slash_eq_of_division (ne_cons_of_head? hcomment) (ne_cons_of_head? hstar) hat,
      if_neg (by simp [hat])] at hs
    simp at hs

/-- A literal or comment that has no end has none with carriage returns and line feeds, and neither
does a literal that goes over the end of a line. -/
theorem exists_error (h : Follows crlf s t) (hcomment : ¬ (c = '/' ∧ cs.head? = some '/'))
    (hs : (∃ err, s.next c cs = .error err) ∨ ∃ body ∈ s.literal? c cs, '\n' ∈ body) :
    ∃ err, t.next c (crlf.write cs) = .error err := by
  have he : crlf.HasReturn := .inr rfl
  by_cases hquote : c = '\'' ∨ c = '"'
  · have hnext : ∀ (u : State) (ds : List Char), u.next c ds = u.string c ds := by
      rcases hquote with rfl | rfl <;> exact fun _ _ => rfl
    rw [hnext, State.literal?, if_pos hquote, State.exists_string_error_iff] at hs
    rw [hnext, State.exists_string_error_iff, stringBody_crlf hquote List.not_mem_nil,
      bind_of_over hs]
  by_cases hslash : c = '/'
  · subst hslash
    exact h.exists_slash_error (fun hhead => hcomment ⟨rfl, hhead⟩) hs
  · rw [State.literal?, if_neg hquote, if_neg fun hregex => hslash hregex.1] at hs
    have hs := hs.resolve_right (by simp)
    unfold State.next at hs ⊢
    rw [if_neg hslash, if_neg hquote] at hs ⊢
    split_ifs at hs ⊢ with htick hbrace
    · exact ((h.keep_one he (by decide)).template he _ _ cs).exists_error hs
    · exact (h.closeBrace he cs).exists_error hs
    · simp at hs
    · simp at hs

end Follows

/-! ## Whole scripts -/

theorem LineEnd.suitsRest_cons_iff {s s' : State} {c : Char} {cs rest : List Char}
    (hnext : s.next c cs = .ok (s', rest)) :
    e.SuitsRest s (c :: cs) ↔ e.SuitsToken s c cs ∧ e.SuitsRest s' rest := by
  constructor
  · rintro (_ | ⟨hsuits, hnext', hrest⟩)
    rw [hnext] at hnext'
    cases hnext'
    exact ⟨hsuits, hrest⟩
  · rintro ⟨hsuits, hrest⟩
    exact .cons hsuits hnext hrest

/-- Whether two readers come to the end of what is left in step, or else the one that has carriage
returns and line feeds does not come there. -/
structure InStep (e : LineEnd) (s : State) (cs : List Char) (t : State) (ds : List Char) :
    Prop where
  ok : e.SuitsRest s cs → ∃ s' t', s.run cs = .ok s' ∧ t.run ds = .ok t' ∧ Follows e s' t'
  error : e = crlf → ¬ e.SuitsRest s cs → ∃ err, t.run ds = .error err

namespace InStep

variable {s s' t t' : State} {c : Char} {cs rest ds ds' : List Char}

/-- A token that both get over. -/
theorem step (h : InStep e s' rest t' ds') (hsuits : e.SuitsToken s c cs)
    (hnext : s.next c cs = .ok (s', rest)) (hrun : t.run ds = t'.run ds') :
    InStep e s (c :: cs) t ds where
  ok hrest := by
    rw [hrun, State.run_cons hnext]
    exact h.ok ((suitsRest_cons_iff hnext).1 hrest).2
  error he hrest := by
    rw [hrun]
    exact h.error he fun hrest' => hrest ((suitsRest_cons_iff hnext).2 ⟨hsuits, hrest'⟩)

theorem of_not_suitsRest (hnot : ¬ e.SuitsRest s cs)
    (h : e = crlf → ∃ err, t.run ds = .error err) : InStep e s cs t ds :=
  ⟨fun hrest => absurd hrest hnot, fun he _ => h he⟩

end InStep

theorem Follows.lineFeed {s t : State} (h : Follows crlf s t) :
    Follows crlf (s.keep ['\n']) ((t.hide ['\r']).keep ['\n']) := by
  have hkeep := h.keep (.inr rfl) ['\n']
  refine { hkeep with visible := ?_, written := ?_ }
  · rw [← hkeep.visible]
    simp [State.keep, State.hide, State.pass, crlf.write_lineFeed, LineEnd.chars, Masked.visible]
  · rw [← hkeep.written]
    simp [State.keep, State.hide, State.pass, crlf.write_lineFeed, LineEnd.chars, Masked.written]

theorem LineEnd.HasReturn.suitsToken_lineFeed (he : e.HasReturn) (s : State) (cs : List Char) :
    e.SuitsToken s '\n' cs := by
  rcases he with rfl | rfl
  · exact fun hc => absurd hc (by decide)
  · exact fun body hbody => nomatch hbody

/-- The carriage return of a line end may be hidden. -/
theorem Follows.inStep_lineFeed {s t : State} (h : Follows crlf s t) {rest : List Char}
    (hrest : ∀ {s₁ t₁ : State}, Follows crlf s₁ t₁ → InStep crlf s₁ rest t₁ (crlf.write rest)) :
    InStep crlf s ('\n' :: rest) (t.hide ['\r']) ('\n' :: crlf.write rest) :=
  (hrest h.lineFeed).step (HasReturn.suitsToken_lineFeed (.inr rfl) s rest) (s.next_lineFeed rest)
    (State.run_cons (State.next_lineFeed _ _))

/-- The reader goes on in step behind a comment, which is hidden with the carriage return of the
line end behind it. -/
theorem Follows.inStep_comment (he : e.HasReturn) {s t : State} (h : Follows e s t)
    {line behind : List Char} (hline : '\n' ∉ line) (hbehind : ∀ c ∈ behind.head?, c = '\n')
    (hrest : ∀ {s₁ t₁ : State} {rest : List Char}, rest.length ≤ behind.length →
      Follows e s₁ t₁ → InStep e s₁ rest t₁ (e.write rest)) :
    InStep e s ('/' :: '/' :: (line ++ behind)) t (e.write ('/' :: '/' :: (line ++ behind))) := by
  have hwrite : e.write ('/' :: '/' :: (line ++ behind)) =
      '/' :: '/' :: (line ++ e.write behind) := by
    rw [e.write_cons_of_ne (by decide), e.write_cons_of_ne (by decide), write_append,
      e.write_of_not_mem hline]
  have hnext := s.next_lineComment hline hbehind
  have hhide := h.hide he ('/' :: '/' :: line)
  rw [e.write_of_not_mem (by simp [hline])] at hhide
  rw [hwrite]
  cases behind with
  | nil =>
    have hsuits : e.SuitsToken s '/' ('/' :: (line ++ [])) := by
      rcases he with rfl | rfl
      · exact fun _ _ => by simp [hline]
      · exact fun body hbody => by simp [State.literal?] at hbody
    exact (hrest (Nat.le_refl _) hhide).step hsuits hnext
      (State.run_cons (t.next_lineComment hline hbehind))
  | cons d rest =>
    obtain rfl : d = '\n' := hbehind d rfl
    rcases he with rfl | rfl
    · -- What is behind the comment is hidden with it.
      refine .of_not_suitsRest (fun hall => ?_) nofun
      exact ((suitsRest_cons_iff hnext).1 hall).1 rfl rfl (by simp)
    · have hsuits : crlf.SuitsToken s '/' ('/' :: (line ++ '\n' :: rest)) :=
        fun body hbody => by simp [State.literal?] at hbody
      have hbehind' : ∀ c ∈ ('\n' :: crlf.write rest).head?, c = '\n' := by simp
      have hreturn : '\n' ∉ line ++ ['\r'] := by simp [hline]
      have hrun : t.run ('/' :: '/' :: (line ++ '\r' :: '\n' :: crlf.write rest)) =
          ((t.hide ('/' :: '/' :: line)).hide ['\r']).run ('\n' :: crlf.write rest) := by
        rw [← State.hide_append]
        simpa using State.run_cons (t.next_lineComment hreturn hbehind')
      exact (hhide.inStep_lineFeed (hrest (Nat.le_succ _))).step hsuits hnext hrun

/-- The reader goes in step, whatever it has in front of it. -/
theorem Follows.inStep (he : e.HasReturn) {s t : State} (h : Follows e s t) (cs : List Char) :
    InStep e s cs t (e.write cs) := by
  induction hn : cs.length using Nat.strongRecOn generalizing s t cs with
  | ind n ih =>
    have hshorter : ∀ {s₁ t₁ : State} {rest : List Char}, rest.length < n → Follows e s₁ t₁ →
        InStep e s₁ rest t₁ (e.write rest) := fun hlt h₁ => ih _ hlt h₁ _ rfl
    cases cs with
    | nil => exact ⟨fun _ => ⟨s, t, by rw [State.run], by rw [write_nil, State.run], h⟩,
        fun _ hnot => absurd (.nil s) hnot⟩
    | cons c cs =>
      by_cases hc : c = '\n'
      · subst hc
        have hkeep := h.keep he ['\n']
        rw [write_lineFeed, write_nil, List.append_nil] at hkeep
        exact (hshorter (hn ▸ Nat.lt_succ_self _) hkeep).step (he.suitsToken_lineFeed s cs)
          (s.next_lineFeed cs) (t.run_lineEnds (fun d hd => he.mem_chars hd) _)
      by_cases hcomment : c = '/' ∧ cs.head? = some '/'
      · obtain ⟨rfl, hhead⟩ := hcomment
        obtain ⟨tail, rfl⟩ := List.head?_eq_some_iff.1 hhead
        obtain ⟨line, behind, rfl, hline, hbehind⟩ := exists_line tail
        refine h.inStep_comment he hline hbehind fun hle => hshorter ?_
        rw [← hn]
        simp only [List.length_cons, List.length_append]
        omega
      cases hnext : s.next c cs with
      | error err =>
        refine .of_not_suitsRest ?_ ?_
        · rintro (_ | ⟨-, hnext', -⟩)
          rw [hnext] at hnext'
          cases hnext'
        · rintro rfl
          obtain ⟨err', herr'⟩ := h.exists_error hcomment (.inl ⟨err, hnext⟩)
          rw [crlf.write_cons_of_ne hc]
          exact ⟨err', State.run_of_error herr'⟩
      | ok r =>
        obtain ⟨s₁, rest⟩ := r
        by_cases hsuits : e.SuitsToken s c cs
        · obtain ⟨t₁, ht₁, h₁⟩ := h.next he hc hcomment hsuits hnext
          have hlt : rest.length < n := hn ▸ Nat.lt_succ_of_le (State.length_next hnext)
          refine (hshorter hlt h₁).step hsuits hnext ?_
          rw [e.write_cons_of_ne hc, State.run_cons ht₁]
        · refine .of_not_suitsRest (fun hrest => hsuits ((suitsRest_cons_iff hnext).1 hrest).1) ?_
          rintro rfl
          have hover : ∃ body ∈ s.literal? c cs, '\n' ∈ body := by
            by_contra hnot
            exact hsuits fun body hbody hline => hnot ⟨body, hbody, hline⟩
          obtain ⟨err', herr'⟩ := h.exists_error hcomment (.inr hover)
          rw [crlf.write_cons_of_ne hc]
          exact ⟨err', State.run_of_error herr'⟩

/-- Whether a script that is masked reads alike with other line ends: all its tokens do, and its
interpreter line. -/
def LineEnd.Suits (e : LineEnd) (text : List Char) : Prop :=
  (e = cr → ['#', '!'] <+: text → '\n' ∉ text) ∧ e.SuitsRest (start text).1 (start text).2

theorem start_line {line behind : List Char} (hline : '\n' ∉ line)
    (hbehind : ∀ c ∈ behind.head?, c = '\n') :
    start ('#' :: '!' :: (line ++ behind)) = (State.hide {} ('#' :: '!' :: line), behind) := by
  have hstay : ∀ c ∈ '#' :: '!' :: line, (c != '\n') = true :=
    List.forall_mem_cons.2 ⟨rfl, List.forall_mem_cons.2
      ⟨rfl, fun c hc => bne_iff_ne.2 fun heq => hline (heq ▸ hc)⟩⟩
  obtain ⟨htake, hdrop⟩ := takeWhile_append_of_head hstay (r := behind) fun c hc => by
    simp [hbehind c hc]
  rw [start, ← List.cons_append, ← List.cons_append, htake, hdrop]

theorem inStep_start (he : e.HasReturn) {text : List Char}
    (hsuits : e = cr → ['#', '!'] <+: text → '\n' ∉ text) :
    InStep e (start text).1 (start text).2 (start (e.write text)).1 (start (e.write text)).2 := by
  have hempty : Follows e {} {} := ⟨rfl, rfl, rfl, rfl, rfl, rfl⟩
  by_cases hprefix : ['#', '!'] <+: text
  · obtain ⟨tail, rfl⟩ := hprefix
    obtain ⟨line, behind, rfl, hline, hbehind⟩ := exists_line tail
    have hhide := hempty.hide he ('#' :: '!' :: line)
    rw [e.write_of_not_mem (by simp [hline])] at hhide
    have hwrite : e.write (['#', '!'] ++ (line ++ behind)) =
        '#' :: '!' :: (line ++ e.write behind) := by
      rw [write_append, write_append, e.write_of_not_mem hline, e.write_of_not_mem (by decide)]
      rfl
    rw [hwrite, List.cons_append, List.singleton_append, start_line hline hbehind]
    cases behind with
    | nil =>
      rw [write_nil, start_line hline hbehind]
      exact hhide.inStep he []
    | cons d rest =>
      obtain rfl : d = '\n' := hbehind d rfl
      rcases he with rfl | rfl
      · exact absurd (hsuits rfl ⟨_, rfl⟩) (by simp)
      · have hbehind' : ∀ c ∈ ('\n' :: crlf.write rest).head?, c = '\n' := by simp
        have hreturn : '\n' ∉ line ++ ['\r'] := by simp [hline]
        have hstart : start ('#' :: '!' :: (line ++ crlf.write ('\n' :: rest))) =
            ((State.hide {} ('#' :: '!' :: line)).hide ['\r'], '\n' :: crlf.write rest) := by
          rw [← State.hide_append]
          simpa [LineEnd.chars] using start_line hreturn hbehind'
        rw [hstart]
        exact hhide.inStep_lineFeed fun h₁ => h₁.inStep (.inr rfl) rest
  · have hprefix' : ¬ ['#', '!'] <+: e.write text := by
      rintro ⟨tail, htail⟩
      have hhead : text.head? = some '#' := (he.head?_write (by decide)).1 (by rw [← htail]; rfl)
      obtain ⟨cs, rfl⟩ := List.head?_eq_some_iff.1 hhead
      rw [e.write_cons_of_ne (by decide), List.cons_append, List.cons.injEq] at htail
      have hhead' : cs.head? = some '!' :=
        (he.head?_write (by decide)).1 (by rw [← htail.2]; rfl)
      obtain ⟨cs', rfl⟩ := List.head?_eq_some_iff.1 hhead'
      exact hprefix ⟨cs', rfl⟩
    rw [start_eq_self hprefix, start_eq_self hprefix']
    exact hempty.inStep he text

/-- The masked text of a script. -/
def masked? (text : List Char) : Option (List Char) :=
  (maskCharacters text).toOption.map (·.flatMap written)

/-- Whether a script is masked alike with other line ends. -/
def LineEnd.AlikeWith (e : LineEnd) (text : List Char) : Prop :=
  masked? (e.write text) = (masked? text).map e.write

instance (e : LineEnd) (text : List Char) : Decidable (e.AlikeWith text) :=
  inferInstanceAs (Decidable (masked? (e.write text) = _))

/-- Reading comes to an end outside of all templates. -/
theorem masked?_eq (text : List Char) : masked? text =
    match (start text).1.run (start text).2 with
    | .ok s => if s.templates = [] then some (s.done.reverse.flatMap written) else none
    | .error _ => none := by
  unfold masked? maskCharacters
  generalize start text = r
  obtain ⟨s, cs⟩ := r
  cases hs : s.run cs with
  | error err => simp [bind, Except.bind, hs, Except.toOption]
  | ok s' =>
    cases htemplates : s'.templates with
    | nil => simp [bind, Except.bind, hs, htemplates, Except.toOption, pure, Except.pure]
    | cons a outer =>
      obtain ⟨b, hb⟩ := Option.isSome_iff_exists.1
        (List.getLast?_isSome.2 (List.cons_ne_nil a outer))
      simp [bind, Except.bind, hs, htemplates, hb, Except.toOption, throw, throwThe,
        MonadExceptOf.throw]

theorem alikeWith_of_suits (he : e.HasReturn) {text : List Char} (h : e.Suits text) :
    e.AlikeWith text := by
  obtain ⟨s, t, hs, ht, hfollows⟩ := (inStep_start he h.1).ok h.2
  have htemplates : t.templates = [] ↔ s.templates = [] := by
    rw [← List.map_eq_nil_iff, hfollows.templates, List.map_eq_nil_iff]
  rw [AlikeWith, masked?_eq, masked?_eq, hs, ht]
  simp only [htemplates]
  split
  · rw [hfollows.written]
    rfl
  · rfl

/-- With carriage returns and line feeds a script is masked alike exactly if no string or regular
expression of it goes over the end of a line. -/
theorem alikeWith_crlf_iff (text : List Char) :
    crlf.AlikeWith text ↔ ((masked? text).isSome → crlf.Suits text) := by
  have he : crlf.HasReturn := .inr rfl
  by_cases hsuits : crlf.Suits text
  · exact iff_of_true (alikeWith_of_suits he hsuits) fun _ => hsuits
  · have hstep : InStep crlf (start text).1 (start text).2 _ _ := inStep_start he nofun
    obtain ⟨err, herr⟩ := hstep.error rfl fun hrest => hsuits ⟨nofun, hrest⟩
    have hnone : masked? (crlf.write text) = none := by rw [masked?_eq, herr]
    rw [AlikeWith, hnone]
    cases masked? text with
    | none => exact iff_of_true rfl nofun
    | some out => exact iff_of_false nofun fun h => hsuits (h rfl)

end Masking

end ModuleWorkers
