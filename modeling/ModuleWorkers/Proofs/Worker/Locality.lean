import ModuleWorkers.Proofs.Worker.Tokens

/-!
# What the reader of scripts looks at

A token depends on its own characters, the character behind it, and what the reader knows in front
of it: how deep in braces and templates it is, whether a slash starts a regular expression, and what
was read last. Behind a closing parenthesis nothing in front of it counts
(`Masking.State.afterControlWord` stops there). So stretches of two scripts that read the same and
stand behind alike places are masked alike (`Masking.Passes.alike`).
-/

namespace ModuleWorkers

open Text Masked

namespace Masking

theorem ne_cons_of_head? {cs : List Char} {c : Char} (h : cs.head? ≠ some c) :
    ∀ tail, cs ≠ c :: tail :=
  fun _ htail => h (htail ▸ rfl)

/-- A text goes on behind its first line with a line feed. -/
theorem exists_line (cs : List Char) : ∃ line behind, cs = line ++ behind ∧ '\n' ∉ line ∧
    ∀ c ∈ behind.head?, c = '\n' := by
  refine ⟨cs.takeWhile (· != '\n'), cs.dropWhile (· != '\n'),
    List.takeWhile_append_dropWhile.symm, fun hmem => ?_, fun c hc => ?_⟩
  · exact absurd (List.mem_takeWhile_imp hmem) (by decide)
  · simpa using not_of_mem_head?_dropWhile hc

/-! ## Bodies of literals -/

theorem stringBody_cons {c : Char} (hc : c ≠ '\\') (quote : Char) (read cs : List Char) :
    stringBody quote read (c :: cs) =
      if c = '\n' then none
      else if c = quote then some (read.reverse, cs) else stringBody quote (c :: read) cs := by
  rw [stringBody]
  · exact fun h => absurd h hc
  · exact fun d ds h => absurd h hc

theorem stringBody_escape (quote : Char) (read : List Char) (c : Char) (cs : List Char) :
    stringBody quote read ('\\' :: c :: cs) = stringBody quote (c :: '\\' :: read) cs := by
  rw [stringBody]

theorem regexBody_cons {c : Char} (hc : c ≠ '\\') (inClass : Bool) (read cs : List Char) :
    regexBody inClass read (c :: cs) =
      if c = '\n' then none
      else if c = '/' ∧ !inClass then some (read.reverse, cs)
      else regexBody (if c = '[' then true else if c = ']' then false else inClass) (c :: read)
        cs := by
  rw [regexBody]
  · exact fun h => absurd h hc
  · exact fun d ds h => absurd h hc

theorem ne_backslash {c : Char} {cs : List Char} (hone : c = '\\' → cs = [] → False)
    (hmany : ∀ d ds, c = '\\' → cs = d :: ds → False) : c ≠ '\\' := by
  cases cs with
  | nil => exact fun h => hone h rfl
  | cons d ds => exact fun h => hmany d ds h rfl

/-- The body of a string does not depend on what follows the string. -/
theorem exists_front_of_stringBody {quote : Char} {read cs body rest : List Char}
    (h : stringBody quote read cs = some (body, rest)) :
    ∃ front, cs = front ++ rest ∧
      ∀ rest', stringBody quote read (front ++ rest') = some (body, rest') := by
  fun_induction stringBody quote read cs with
  | case1 => cases h
  | case2 => cases h
  | case3 read c cs ih =>
    obtain ⟨front, rfl, hfront⟩ := ih h
    refine ⟨'\\' :: c :: front, rfl, fun rest' => ?_⟩
    rw [List.cons_append, List.cons_append, stringBody_escape, hfront]
  | case4 => cases h
  | case5 read cs hone hmany hline =>
    cases h
    refine ⟨[quote], rfl, fun rest' => ?_⟩
    rw [List.singleton_append, stringBody_cons (ne_backslash hone hmany), if_neg hline, if_pos rfl]
  | case6 read c cs hone hmany hline hquote ih =>
    obtain ⟨front, rfl, hfront⟩ := ih h
    refine ⟨c :: front, rfl, fun rest' => ?_⟩
    rw [List.cons_append, stringBody_cons (ne_backslash hone hmany), if_neg hline, if_neg hquote,
      hfront]

/-- The body of a regular expression does not depend on what follows it. -/
theorem exists_front_of_regexBody {inClass : Bool} {read cs body rest : List Char}
    (h : regexBody inClass read cs = some (body, rest)) :
    ∃ front, cs = front ++ rest ∧
      ∀ rest', regexBody inClass read (front ++ rest') = some (body, rest') := by
  fun_induction regexBody inClass read cs with
  | case1 => cases h
  | case2 => cases h
  | case3 inClass read c cs ih =>
    obtain ⟨front, rfl, hfront⟩ := ih h
    exact ⟨'\\' :: c :: front, rfl, fun rest' => by simpa [regexBody] using hfront rest'⟩
  | case4 => cases h
  | case5 inClass read c cs hone hmany hline hend =>
    cases h
    refine ⟨[c], rfl, fun rest' => ?_⟩
    rw [List.singleton_append, regexBody_cons (ne_backslash hone hmany), if_neg hline, if_pos hend]
  | case6 inClass read c cs hone hmany hline hend ih =>
    obtain ⟨front, rfl, hfront⟩ := ih h
    refine ⟨c :: front, rfl, fun rest' => ?_⟩
    rw [List.cons_append, regexBody_cons (ne_backslash hone hmany), if_neg hline, if_neg hend,
      hfront]

/-- The text of a template does not depend on what follows its end or its next substitution. -/
theorem exists_front_of_templateText {read cs body rest : List Char} {ends : Bool}
    (h : templateText read cs = some (body, ends, rest)) :
    ∃ front, front ≠ [] ∧ cs = front ++ rest ∧
      ∀ rest', templateText read (front ++ rest') = some (body, ends, rest') := by
  fun_induction templateText read cs with
  | case1 => cases h
  | case2 => cases h
  | case3 read c cs ih =>
    obtain ⟨front, -, rfl, hfront⟩ := ih h
    exact ⟨'\\' :: c :: front, by simp, rfl, fun rest' => by
      simpa [templateText] using hfront rest'⟩
  | case4 =>
    cases h
    exact ⟨['`'], by simp, rfl, fun rest' => by simp [templateText]⟩
  | case5 =>
    cases h
    exact ⟨['$', '{'], by simp, rfl, fun rest' => by simp [templateText]⟩
  | case6 read c cs hone hmany htick hdollar ih =>
    obtain ⟨front, hne, rfl, hfront⟩ := ih h
    refine ⟨c :: front, by simp, rfl, fun rest' => ?_⟩
    obtain ⟨d, ds, rfl⟩ := List.exists_cons_of_ne_nil hne
    rw [List.cons_append, templateText, hfront]
    · exact fun _ h => absurd h (by simp)
    · exact fun d ds h => absurd h (ne_backslash hone hmany)
    · exact htick
    · intro ds' hc he
      cases he
      exact hdollar _ hc rfl

/-- The end of a block comment does not depend on what follows it. -/
theorem exists_front_of_cut? {cs body rest : List Char}
    (h : cut? ['*', '/'] cs = some (body, rest)) :
    ∃ front, front ≠ [] ∧ cs = front ++ rest ∧
      ∀ rest', cut? ['*', '/'] (front ++ rest') = some (body, rest') := by
  induction cs generalizing body with
  | nil => cases h
  | cons c cs ih =>
    unfold cut? at h
    split at h
    · rename_i hprefix
      obtain ⟨tail, htail⟩ := List.isPrefixOf_iff_prefix.1 hprefix
      rw [← htail] at h ⊢
      cases h
      exact ⟨['*', '/'], by simp, rfl, fun rest' => by simp [cut?]⟩
    · rename_i hprefix
      obtain ⟨⟨body', rest'⟩, hcut, hpair⟩ := Option.map_eq_some_iff.1 h
      cases hpair
      obtain ⟨front, hne, rfl, hfront⟩ := ih hcut
      obtain ⟨d, ds, rfl⟩ := List.exists_cons_of_ne_nil hne
      refine ⟨c :: d :: ds, by simp, rfl, fun rest' => ?_⟩
      have hnot : ¬ ['*', '/'].isPrefixOf (c :: d :: ds ++ rest') := by simpa using hprefix
      rw [List.cons_append, cut?, if_neg (by simpa using hnot), hfront]
      rfl

/-! ## Alike states -/

/-- Whether two readers read the same last, back to the start of the script or to a closing
parenthesis. -/
def SameBack (ms ns : List Masked) : Prop :=
  ms = ns ∨ ∃ back ms' ns', ms = back ++ ⟨')', false⟩ :: ms' ∧ ns = back ++ ⟨')', false⟩ :: ns'

theorem SameBack.append {ms ns : List Masked} (h : SameBack ms ns) (front : List Masked) :
    SameBack (front ++ ms) (front ++ ns) := by
  rcases h with rfl | ⟨back, ms', ns', rfl, rfl⟩
  · exact .inl rfl
  · exact .inr ⟨front ++ back, ms', ns', by simp, by simp⟩

namespace State

/-- Whether two readers know the same of what counts for the tokens to come. -/
structure Alike (s t : State) : Prop where
  parens : s.parens = t.parens
  templates : s.templates.map Prod.fst = t.templates.map Prod.fst
  depth : s.depth = t.depth
  atExpression : s.atExpression = t.atExpression
  done : SameBack s.done t.done

theorem Alike.afterControlWord_eq {s t : State} (h : s.Alike t) :
    s.afterControlWord = t.afterControlWord := by
  rcases h.done with hdone | ⟨back, ms, ns, hms, hns⟩
  · simp only [afterControlWord, hdone]
  · -- The parenthesis is no blank and no part of a word, so nothing behind it is looked at.
    have hblanks := dropWhile_append_cons (p := fun m : Masked => isAsciiBlank m.visible)
      (x := ⟨')', false⟩) (by decide)
    have hwords := dropWhile_append_cons (p := fun m : Masked => isWordPart m.visible)
      (x := ⟨')', false⟩) (by decide)
    have hword := takeWhile_append_cons (p := fun m : Masked => isWordPart m.visible)
      (x := ⟨')', false⟩) (by decide)
    simp only [afterControlWord, hms, hns, hblanks, hwords, hword]
    cases ((back.dropWhile (isAsciiBlank ·.visible)).dropWhile (isWordPart ·.visible)).dropWhile
      (isAsciiBlank ·.visible) <;> rfl

/-- A comment is hidden up to a line feed. -/
theorem next_lineComment (s : State) {line behind : List Char} (hline : '\n' ∉ line)
    (hbehind : ∀ c ∈ behind.head?, c = '\n') :
    s.next '/' ('/' :: (line ++ behind)) = .ok (s.hide ('/' :: '/' :: line), behind) := by
  have hstay : ∀ c ∈ '/' :: line, (c != '\n') = true :=
    List.forall_mem_cons.2 ⟨rfl, fun c hc => bne_iff_ne.2 fun heq => hline (heq ▸ hc)⟩
  obtain ⟨htake, hdrop⟩ := takeWhile_append_of_head hstay (r := behind) fun c hc => by
    simp [hbehind c hc]
  rw [← List.cons_append, State.next, if_pos rfl, List.cons_append, State.slash,
    ← List.cons_append, htake, hdrop]

/-- A slash that starts no comment starts a regular expression where an expression may stand. -/
theorem slash_eq_of_expression {s : State} {cs : List Char} (hslash : ∀ tail, cs ≠ '/' :: tail)
    (hstar : ∀ tail, cs ≠ '*' :: tail) (hat : s.atExpression) :
    s.slash cs = match regexBody false [] cs with
      | none => .error (.unterminatedRegex s.offset)
      | some (body, rest) =>
        .ok ((((s.keep ['/']).hide body).keep ['/']).before false, rest) := by
  unfold State.slash
  split
  · exact absurd rfl (hslash _)
  · exact absurd rfl (hstar _)
  · refine (if_pos hat).trans ?_
    cases regexBody false [] cs <;> rfl

theorem exists_slash_error_iff {s : State} {cs : List Char} (hslash : ∀ tail, cs ≠ '/' :: tail)
    (hstar : ∀ tail, cs ≠ '*' :: tail) (hat : s.atExpression) :
    (∃ err, s.slash cs = .error err) ↔ regexBody false [] cs = none := by
  rw [slash_eq_of_expression hslash hstar hat]
  cases regexBody false [] cs <;> simp

theorem exists_string_error_iff {s : State} {quote : Char} {cs : List Char} :
    (∃ err, s.string quote cs = .error err) ↔ stringBody quote [] cs = none := by
  unfold State.string
  cases stringBody quote [] cs <;> simp

theorem slash_eq_of_regexBody {s : State} {cs body rest : List Char}
    (hslash : ∀ tail, cs ≠ '/' :: tail) (hstar : ∀ tail, cs ≠ '*' :: tail) (hat : s.atExpression)
    (hbody : regexBody false [] cs = some (body, rest)) :
    s.slash cs = .ok ((((s.keep ['/']).hide body).keep ['/']).before false, rest) := by
  rw [slash_eq_of_expression hslash hstar hat, hbody]

/-- Elsewhere it divides. -/
theorem slash_eq_of_division {s : State} {cs : List Char} (hslash : ∀ tail, cs ≠ '/' :: tail)
    (hstar : ∀ tail, cs ≠ '*' :: tail) (hat : ¬ s.atExpression) :
    s.slash cs = .ok ((s.keep ['/']).before true, cs) := by
  unfold State.slash
  split
  · exact absurd rfl (hslash _)
  · exact absurd rfl (hstar _)
  · rw [if_neg hat]

/-- Whether two readers get over the same stretch, and are alike behind it. -/
structure Moves (s t s' t' : State) : Prop where
  alike : s'.Alike t'
  exists_done : ∃ ms : List Masked, s'.done = ms.reverse ++ s.done ∧ t'.done = ms.reverse ++ t.done

namespace Moves

variable {s t s' t' : State}

theorem refl (h : s.Alike t) : Moves s t s t := ⟨h, [], rfl, rfl⟩

theorem before (h : Moves s t s' t') (b : Bool) : Moves s t (s'.before b) (t'.before b) :=
  ⟨⟨h.alike.parens, h.alike.templates, h.alike.depth, rfl, h.alike.done⟩, h.exists_done⟩

theorem pass (h : Moves s t s' t') (isHidden : Bool) (cs : List Char) :
    Moves s t (s'.pass isHidden cs) (t'.pass isHidden cs) := by
  obtain ⟨ms, hs, ht⟩ := h.exists_done
  refine ⟨⟨h.alike.parens, h.alike.templates, h.alike.depth, h.alike.atExpression, ?_⟩,
    ms ++ cs.map (⟨·, isHidden⟩), ?_, ?_⟩
  · rw [done_pass, done_pass]
    exact h.alike.done.append _
  · rw [done_pass, hs, List.reverse_append, List.append_assoc]
  · rw [done_pass, ht, List.reverse_append, List.append_assoc]

theorem keep (h : Moves s t s' t') (cs : List Char) : Moves s t (s'.keep cs) (t'.keep cs) :=
  h.pass false cs

theorem hide (h : Moves s t s' t') (cs : List Char) : Moves s t (s'.hide cs) (t'.hide cs) :=
  h.pass true cs

theorem template (h : Moves s t s' t') {start : Nat} {s'' : State} {cs rest : List Char}
    (hs : s'.template start (cs ++ rest) = .ok (s'', rest)) (start' : Nat) (rest' : List Char) :
    ∃ t'', t'.template start' (cs ++ rest') = .ok (t'', rest') ∧ Moves s t s'' t'' := by
  unfold State.template at hs ⊢
  split at hs
  · cases hs
  · rename_i body ends _ htext
    obtain ⟨hstate, rfl⟩ := Prod.mk.inj (Except.ok.inj hs)
    obtain ⟨front, -, hcs, hfront⟩ := exists_front_of_templateText htext
    obtain rfl := List.append_cancel_right hcs
    rw [hfront rest']
    have hmoves := ((h.hide body).keep (if ends then ['`'] else ['$', '{'])).before !ends
    refine ⟨_, rfl, ?_⟩
    rw [← hstate]
    cases ends with
    | true => exact hmoves
    | false =>
      refine ⟨⟨hmoves.alike.parens, ?_, hmoves.alike.depth, hmoves.alike.atExpression,
        hmoves.alike.done⟩, hmoves.exists_done⟩
      exact congrArg₂ List.cons hmoves.alike.depth hmoves.alike.templates

theorem string (h : Moves s t s' t') {quote : Char} {s'' : State} {cs rest : List Char}
    (hs : s'.string quote (cs ++ rest) = .ok (s'', rest)) (rest' : List Char) :
    ∃ t'', t'.string quote (cs ++ rest') = .ok (t'', rest') ∧ Moves s t s'' t'' := by
  unfold State.string at hs ⊢
  split at hs
  · cases hs
  · rename_i body _ hbody
    obtain ⟨hstate, rfl⟩ := Prod.mk.inj (Except.ok.inj hs)
    obtain ⟨front, hcs, hfront⟩ := exists_front_of_stringBody hbody
    obtain rfl := List.append_cancel_right hcs
    rw [hfront rest']
    exact ⟨_, rfl, hstate ▸ (((h.keep [quote]).hide body).keep [quote]).before false⟩

theorem slash (h : Moves s t s' t') {s'' : State} {cs rest rest' : List Char}
    (hs : s'.slash (cs ++ rest) = .ok (s'', rest)) (hhead : rest.head? = rest'.head?) :
    ∃ t'', t'.slash (cs ++ rest') = .ok (t'', rest') ∧ Moves s t s'' t'' := by
  have hheads : (cs ++ rest).head? = (cs ++ rest').head? := by
    rw [List.head?_append, List.head?_append, hhead]
  unfold State.slash at hs
  split at hs
  · rename_i tail hcs
    obtain ⟨hstate, hrest⟩ := Prod.mk.inj (Except.ok.inj hs)
    obtain ⟨htake, htake', hdrop'⟩ := takeWhile_append_of_dropWhile hrest hhead
    obtain ⟨tail', htail'⟩ := List.head?_eq_some_iff.1 (hheads.symm.trans (by rw [hcs]; rfl))
    refine ⟨t'.hide ('/' :: cs), ?_, ?_⟩
    · conv_lhs => rw [htail']
      rw [State.slash, ← htail', htake', hdrop']
    · rw [← hstate, htake]
      exact h.hide _
  · rename_i tail hcs
    obtain ⟨tail', htail'⟩ := List.head?_eq_some_iff.1 (hheads.symm.trans (by rw [hcs]; rfl))
    split at hs
    · cases hs
    · rename_i body _ hcut
      obtain ⟨hstate, rfl⟩ := Prod.mk.inj (Except.ok.inj hs)
      obtain ⟨front, -, rfl, hfront⟩ := exists_front_of_cut? hcut
      have : cs = '*' :: front := List.append_cancel_right hcs
      subst this
      refine ⟨t'.hide ('/' :: '*' :: body ++ ['*', '/']), ?_, hstate ▸ h.hide _⟩
      rw [List.cons_append, State.slash, hfront rest']
  · rename_i hslash hstar
    have hslash' : ∀ tail, cs ++ rest' ≠ '/' :: tail := fun tail htail =>
      (List.head?_eq_some_iff.1 (hheads.trans (by rw [htail]; rfl))).elim hslash
    have hstar' : ∀ tail, cs ++ rest' ≠ '*' :: tail := fun tail htail =>
      (List.head?_eq_some_iff.1 (hheads.trans (by rw [htail]; rfl))).elim hstar
    split at hs
    · rename_i hat
      split at hs
      · cases hs
      · rename_i body _ hbody
        obtain ⟨hstate, rfl⟩ := Prod.mk.inj (Except.ok.inj hs)
        obtain ⟨front, hcs, hfront⟩ := exists_front_of_regexBody hbody
        obtain rfl := List.append_cancel_right hcs
        have hat' := h.alike.atExpression.symm.trans hat
        rw [slash_eq_of_regexBody hslash' hstar' hat' (hfront rest')]
        exact ⟨_, rfl, hstate ▸ (((h.keep ['/']).hide body).keep ['/']).before false⟩
    · rename_i hat
      obtain ⟨hstate, hcs⟩ := Prod.mk.inj (Except.ok.inj hs)
      obtain rfl : cs = [] := List.append_left_eq_self.1 hcs
      rw [slash_eq_of_division hslash' hstar' (h.alike.atExpression ▸ hat)]
      exact ⟨_, rfl, hstate ▸ (h.keep ['/']).before true⟩

theorem closeBrace (h : Moves s t s' t') {s'' : State} {cs rest : List Char}
    (hs : s'.closeBrace (cs ++ rest) = .ok (s'', rest)) (rest' : List Char) :
    ∃ t'', t'.closeBrace (cs ++ rest') = .ok (t'', rest') ∧ Moves s t s'' t'' := by
  have hplain : Moves s t { (s'.keep ['}']).before true with depth := s'.depth - 1 }
      { (t'.keep ['}']).before true with depth := t'.depth - 1 } := by
    have hmoves := (h.keep ['}']).before true
    exact ⟨⟨hmoves.alike.parens, hmoves.alike.templates, congrArg (· - 1) h.alike.depth, rfl,
      hmoves.alike.done⟩, hmoves.exists_done⟩
  have htemplates := h.alike.templates
  unfold State.closeBrace at hs ⊢
  split at hs
  · rename_i depth start outer hs'
    rw [hs', List.map_cons] at htemplates
    obtain ⟨⟨depth', start'⟩, outer', ht', hdepth, houter⟩ := List.map_eq_cons_iff.1 htemplates.symm
    change depth' = depth at hdepth
    subst hdepth
    rw [ht']
    simp only
    rw [← h.alike.depth]
    split at hs
    · rename_i hdepth
      rw [if_pos hdepth]
      have hmoves := h.keep ['}']
      have houter : Moves s t { s'.keep ['}'] with templates := outer }
          { t'.keep ['}'] with templates := outer' } :=
        ⟨⟨hmoves.alike.parens, houter.symm, hmoves.alike.depth, hmoves.alike.atExpression,
          hmoves.alike.done⟩, hmoves.exists_done⟩
      exact houter.template hs start' rest'
    · rename_i hdepth
      rw [← h.alike.depth] at hplain
      rw [if_neg hdepth]
      obtain ⟨hstate, hcs⟩ := Prod.mk.inj (Except.ok.inj hs)
      obtain rfl : cs = [] := List.append_left_eq_self.1 hcs
      exact ⟨_, rfl, hstate ▸ hplain⟩
  · rename_i hs'
    rw [hs', List.map_nil] at htemplates
    rw [List.map_eq_nil_iff.1 htemplates.symm]
    obtain ⟨hstate, hcs⟩ := Prod.mk.inj (Except.ok.inj hs)
    obtain rfl : cs = [] := List.append_left_eq_self.1 hcs
    exact ⟨_, rfl, hstate ▸ hplain⟩

theorem word (h : Moves s t s' t') {c : Char} {s'' : State} {cs rest rest' : List Char}
    (hs : s'.word c (cs ++ rest) = (s'', rest)) (hhead : rest.head? = rest'.head?) :
    ∃ t'', t'.word c (cs ++ rest') = (t'', rest') ∧ Moves s t s'' t'' := by
  obtain ⟨hstate, hrest⟩ := Prod.mk.inj hs
  obtain ⟨htake, htake', hdrop'⟩ := takeWhile_append_of_dropWhile hrest hhead
  unfold State.word
  simp only
  rw [htake', hdrop', ← hstate, htake]
  exact ⟨_, rfl, (h.keep _).before _⟩

theorem sign (h : Moves s t s' t') {c : Char} {s'' : State} {cs rest rest' : List Char}
    (hs : s'.sign c (cs ++ rest) = (s'', rest)) (hhead : rest.head? = rest'.head?) :
    ∃ t'', t'.sign c (cs ++ rest') = (t'', rest') ∧ Moves s t s'' t'' := by
  have hheads : (cs ++ rest).head? = (cs ++ rest').head? := by
    rw [List.head?_append, List.head?_append, hhead]
  unfold State.sign at hs ⊢
  rw [← hheads]
  split_ifs at hs ⊢ with h₁ h₂ h₃ h₄ h₅ h₆
  · obtain ⟨hstate, hcs⟩ := Prod.mk.inj hs
    obtain rfl : cs = [] := List.append_left_eq_self.1 hcs
    have hmoves := (h.keep [c]).before true
    exact ⟨_, rfl, hstate ▸ ⟨⟨hmoves.alike.parens, hmoves.alike.templates,
      congrArg (· + 1) h.alike.depth, rfl, hmoves.alike.done⟩, hmoves.exists_done⟩⟩
  · obtain ⟨hstate, hcs⟩ := Prod.mk.inj hs
    obtain ⟨d, rfl⟩ : ∃ d, cs = [d] := by
      cases cs with
      | nil =>
        obtain ⟨tail, rfl⟩ := List.head?_eq_some_iff.1 h₂.2
        exact absurd (congrArg List.length hcs) (by simp)
      | cons d cs => exact ⟨d, by rw [List.append_left_eq_self.1 hcs]⟩
    exact ⟨_, rfl, hstate ▸ (h.keep [c, c]).before false⟩
  · obtain ⟨hstate, hcs⟩ := Prod.mk.inj hs
    obtain rfl : cs = [] := List.append_left_eq_self.1 hcs
    have hmoves := (h.keep [c]).before true
    exact ⟨_, rfl, hstate ▸ ⟨⟨congrArg₂ List.cons h.alike.afterControlWord_eq h.alike.parens,
      hmoves.alike.templates, hmoves.alike.depth, rfl, hmoves.alike.done⟩, hmoves.exists_done⟩⟩
  · obtain ⟨hstate, hcs⟩ := Prod.mk.inj hs
    obtain rfl : cs = [] := List.append_left_eq_self.1 hcs
    have hmoves := (h.keep [c]).before (s'.parens.headD false)
    rw [← h.alike.parens]
    exact ⟨_, rfl, hstate ▸ ⟨⟨rfl, hmoves.alike.templates, hmoves.alike.depth, rfl,
      hmoves.alike.done⟩, hmoves.exists_done⟩⟩
  all_goals
    obtain ⟨hstate, hcs⟩ := Prod.mk.inj hs
    obtain rfl : cs = [] := List.append_left_eq_self.1 hcs
    rw [← hstate]
  · exact ⟨_, rfl, (h.keep [c]).before false⟩
  · exact ⟨_, rfl, h.keep [c]⟩
  · exact ⟨_, rfl, (h.keep [c]).before true⟩

end Moves

theorem Alike.next {s t s' : State} (h : s.Alike t) {c : Char} {cs rest rest' : List Char}
    (hs : s.next c (cs ++ rest) = .ok (s', rest)) (hhead : rest.head? = rest'.head?) :
    ∃ t', t.next c (cs ++ rest') = .ok (t', rest') ∧ Moves s t s' t' := by
  have hmoves := Moves.refl h
  unfold State.next at hs ⊢
  split_ifs at hs ⊢ with h₁ h₂ h₃ h₄ h₅
  · exact hmoves.slash hs hhead
  · exact hmoves.string hs rest'
  · exact (hmoves.keep ['`']).template hs _ rest'
  · exact hmoves.closeBrace hs rest'
  · obtain ⟨t', ht', hm⟩ := hmoves.word (Except.ok.inj hs) hhead
    exact ⟨t', congrArg Except.ok ht', hm⟩
  · obtain ⟨t', ht', hm⟩ := hmoves.sign (Except.ok.inj hs) hhead
    exact ⟨t', congrArg Except.ok ht', hm⟩

end State

/-! ## Stretches -/

/-- A stretch reads the same behind alike places, in front of the same character. -/
theorem Passes.alike {s t s' : State} {cs rest rest' : List Char} {ms : List Masked}
    (h : Passes s (cs ++ rest) ms s' rest) (hst : s.Alike t) (hhead : rest.head? = rest'.head?) :
    ∃ t', Passes t (cs ++ rest') ms t' rest' ∧ s'.Alike t' := by
  generalize hall : cs ++ rest = all at h
  induction h generalizing cs t with
  | refl =>
    obtain rfl : cs = [] := List.append_left_eq_self.1 hall
    exact ⟨t, .refl t rest', hst⟩
  | @step s s₁ s₂ c tail cs₁ cs₂ u ms hnext hu h ih =>
    -- What the first token leaves is the rest of the stretch with what follows it.
    obtain ⟨htoken, htail⟩ := State.token_of_next hnext hu
    obtain ⟨m, u, rfl⟩ := List.exists_cons_of_ne_nil htoken.ne_nil
    obtain ⟨rfl, rfl⟩ := List.cons.inj htail
    obtain rfl : cs₁ = ms.map Masked.char ++ cs₂ := h.text_eq
    have hcs : cs = m.char :: (u.map Masked.char ++ ms.map Masked.char) :=
      List.append_cancel_right (hall.trans (by simp))
    have hheads : (ms.map Masked.char ++ cs₂).head? = (ms.map Masked.char ++ rest').head? := by
      rw [List.head?_append, List.head?_append, hhead]
    obtain ⟨t₁, ht₁, hmoves⟩ := hst.next hnext hheads
    obtain ⟨t₂, ht₂, halike⟩ := ih hmoves.alike hhead rfl
    obtain ⟨ms', hs, ht⟩ := hmoves.exists_done
    have hms' : m :: u = ms' := List.reverse_injective (List.append_cancel_right (hu.symm.trans hs))
    refine ⟨t₂, ?_, halike⟩
    rw [hcs, List.cons_append, List.append_assoc]
    exact .step ht₁ (hms' ▸ ht) ht₂

end Masking

end ModuleWorkers
