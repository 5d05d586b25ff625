import ModuleWorkers.Proofs.Text.Utf8
import ModuleWorkers.Proofs.Worker.Locality

/-!
# Scripts with other line ends

A script may be saved with other line ends (`Masking.LineEnd.write`). With carriage returns in them,
templates, block comments and words end where they did. Strings and regular expressions do with
carriage returns alone; with a carriage return and a line feed the ones that go over the end of a
line have no end any more, since the backslash in front of it is for one character only
(`Masking.stringBody_crlf`, `Masking.regexBody_crlf`).
-/

namespace ModuleWorkers

open Text Masked

namespace Masking

/-- What ends a line: a line feed, a carriage return, both, a line separator or a paragraph
separator. -/
inductive LineEnd
  | lf | cr | crlf | ls | ps
  deriving DecidableEq, Inhabited, Repr

namespace LineEnd

def chars : LineEnd → List Char
  | lf => ['\n']
  | cr => ['\r']
  | crlf => ['\r', '\n']
  | ls => ['\u2028']
  | ps => ['\u2029']

/-- How a character is written in a script with these line ends. -/
def spell (e : LineEnd) (c : Char) : List Char := if c = '\n' then e.chars else [c]

/-- Writes a script with these line ends in place of line feeds. -/
def write (e : LineEnd) (cs : List Char) : List Char := cs.flatMap e.spell

section Write

variable (e : LineEnd) {cs : List Char} {c : Char}

@[simp] theorem write_nil : e.write [] = [] := rfl

theorem write_cons : e.write (c :: cs) = e.spell c ++ e.write cs := rfl

@[simp] theorem write_append (as bs : List Char) : e.write (as ++ bs) = e.write as ++ e.write bs :=
  List.flatMap_append

@[simp] theorem write_lineFeed : e.write ('\n' :: cs) = e.chars ++ e.write cs := rfl

theorem spell_of_ne (hc : c ≠ '\n') : e.spell c = [c] := if_neg hc

theorem write_cons_of_ne (hc : c ≠ '\n') : e.write (c :: cs) = c :: e.write cs := by
  rw [write_cons, e.spell_of_ne hc, List.singleton_append]

theorem write_of_not_mem (h : '\n' ∉ cs) : e.write cs = cs := by
  induction cs with
  | nil => rfl
  | cons c cs ih =>
    rw [List.mem_cons, not_or] at h
    rw [e.write_cons_of_ne (Ne.symm h.1), ih h.2]

end Write

/-! ## Carriage returns -/

/-- Whether these line ends have carriage returns. -/
def HasReturn (e : LineEnd) : Prop := e = cr ∨ e = crlf

namespace HasReturn

variable {e : LineEnd} (he : e.HasReturn)

include he

theorem mem_chars {c : Char} (hc : c ∈ e.chars) : c = '\n' ∨ c = '\r' := by
  rcases he with rfl | rfl
  · exact .inr (List.mem_singleton.1 hc)
  · simpa [chars, or_comm] using hc

theorem head?_chars : e.chars.head? = some '\r' := by
  rcases he with rfl | rfl <;> rfl

theorem spell_ne_nil (c : Char) : e.spell c ≠ [] := by
  unfold spell
  split
  · rcases he with rfl | rfl <;> exact List.cons_ne_nil _ _
  · exact List.cons_ne_nil _ _

/-- Tests that tell no line feeds from carriage returns are passed alike. -/
theorem eq_of_mem_spell {p : Char → Bool} (hp : p '\r' = p '\n') {c d : Char}
    (hd : d ∈ e.spell c) : p d = p c := by
  unfold spell at hd
  split at hd
  · rename_i hc
    rcases he.mem_chars hd with rfl | rfl
    · rw [hc]
    · rw [hc, hp]
  · rw [List.mem_singleton.1 hd]

theorem head?_write {cs : List Char} {d : Char} (hd : d ≠ '\n' ∧ d ≠ '\r') :
    (e.write cs).head? = some d ↔ cs.head? = some d := by
  cases cs with
  | nil => rfl
  | cons c cs =>
    by_cases hc : c = '\n'
    · subst hc
      rw [write_lineFeed, List.head?_append, he.head?_chars, List.head?_cons, Option.some_or,
        Option.some_inj, Option.some_inj]
      exact ⟨fun h => absurd h.symm hd.2, fun h => absurd h.symm hd.1⟩
    · rw [e.write_cons_of_ne hc, List.head?_cons, List.head?_cons]

end HasReturn

end LineEnd

open LineEnd

variable {e : LineEnd}

/-! ## Bodies of literals -/

/-- What was read stays in the body. -/
theorem mem_of_stringBody {quote c : Char} {read cs : List Char} {r : List Char × List Char}
    (h : stringBody quote read cs = some r) (hc : c ∈ read) : c ∈ r.1 := by
  fun_induction stringBody quote read cs with
  | case1 => cases h
  | case2 => cases h
  | case3 read d rest ih => exact ih h (by simp [hc])
  | case4 => cases h
  | case5 =>
    cases h
    exact List.mem_reverse.2 hc
  | case6 read d rest _ _ _ _ ih => exact ih h (by simp [hc])

theorem mem_of_regexBody {inClass : Bool} {c : Char} {read cs : List Char}
    {r : List Char × List Char} (h : regexBody inClass read cs = some r) (hc : c ∈ read) :
    c ∈ r.1 := by
  fun_induction regexBody inClass read cs with
  | case1 => cases h
  | case2 => cases h
  | case3 inClass read d rest ih => exact ih h (by simp [hc])
  | case4 => cases h
  | case5 =>
    cases h
    exact List.mem_reverse.2 hc
  | case6 inClass read d rest _ _ _ _ ih => exact ih h (by simp [hc])

/-- With carriage returns and line feeds the strings that go over the end of a line have no end. -/
theorem stringBody_crlf {quote : Char} (hquote : quote = '\'' ∨ quote = '"') {read cs : List Char}
    (hread : '\n' ∉ read) : stringBody quote read (crlf.write cs) =
      (stringBody quote read cs).bind fun r =>
        if '\n' ∈ r.1 then none else some (r.1, crlf.write r.2) := by
  have hne : '\r' ≠ quote := by rcases hquote with rfl | rfl <;> decide
  have hover : ∀ read' rest, stringBody quote read' ('\n' :: crlf.write rest) = none := by
    intro read' rest
    rw [stringBody_cons (by decide), if_pos rfl]
  fun_induction stringBody quote read cs with
  | case1 => rfl
  | case2 => rfl
  | case3 read c rest ih =>
    by_cases hc : c = '\n'
    · subst hc
      change stringBody quote read ('\\' :: '\r' :: '\n' :: crlf.write rest) = _
      rw [stringBody_escape, hover]
      cases hbody : stringBody quote ('\n' :: '\\' :: read) rest with
      | none => rfl
      | some r =>
        rw [Option.bind_some, if_pos (mem_of_stringBody hbody List.mem_cons_self)]
    · rw [crlf.write_cons_of_ne (by decide), crlf.write_cons_of_ne hc, stringBody_escape]
      exact ih (by simp [hread, Ne.symm hc])
  | case4 read rest =>
    change stringBody quote read ('\r' :: '\n' :: crlf.write rest) = none
    rw [stringBody_cons (by decide), if_neg (by decide), if_neg hne, hover]
  | case5 read rest _ _ hline =>
    rw [crlf.write_cons_of_ne hline, stringBody_cons (by rcases hquote with rfl | rfl <;> decide),
      if_neg hline, if_pos rfl, Option.bind_some, if_neg (by simpa using hread)]
  | case6 read c rest hone hmany hline hc ih =>
    rw [crlf.write_cons_of_ne hline, stringBody_cons (ne_backslash hone hmany), if_neg hline,
      if_neg hc]
    exact ih (by simp [hread, Ne.symm hline])

theorem regexBody_crlf {inClass : Bool} {read cs : List Char} (hread : '\n' ∉ read) :
    regexBody inClass read (crlf.write cs) = (regexBody inClass read cs).bind fun r =>
      if '\n' ∈ r.1 then none else some (r.1, crlf.write r.2) := by
  have hover : ∀ inClass read' rest,
      regexBody inClass read' ('\n' :: crlf.write rest) = none := by
    intro inClass read' rest
    rw [regexBody_cons (by decide), if_pos rfl]
  fun_induction regexBody inClass read cs with
  | case1 => rfl
  | case2 => rfl
  | case3 inClass read c rest ih =>
    by_cases hc : c = '\n'
    · subst hc
      change regexBody inClass read ('\\' :: '\r' :: '\n' :: crlf.write rest) = _
      rw [regexBody, hover]
      cases hbody : regexBody inClass ('\n' :: '\\' :: read) rest with
      | none => rfl
      | some r =>
        rw [Option.bind_some, if_pos (mem_of_regexBody hbody List.mem_cons_self)]
    · rw [crlf.write_cons_of_ne (by decide), crlf.write_cons_of_ne hc, regexBody]
      exact ih (by simp [hread, Ne.symm hc])
  | case4 inClass read rest =>
    change regexBody inClass read ('\r' :: '\n' :: crlf.write rest) = none
    rw [regexBody_cons (by decide), if_neg (by decide), if_neg (by simp), hover]
  | case5 inClass read c rest hone hmany hline hend =>
    rw [crlf.write_cons_of_ne hline, regexBody_cons (ne_backslash hone hmany), if_neg hline,
      if_pos hend, Option.bind_some, if_neg (by simpa using hread)]
  | case6 inClass read c rest hone hmany hline hend ih =>
    rw [crlf.write_cons_of_ne hline, regexBody_cons (ne_backslash hone hmany), if_neg hline,
      if_neg hend]
    exact ih (by simp [hread, Ne.symm hline])

/-- With carriage returns alone strings end where they did. -/
theorem stringBody_cr {quote : Char} {read read' cs : List Char}
    (hread : read'.reverse = cr.write read.reverse) {r : List Char × List Char}
    (h : stringBody quote read cs = some r) :
    stringBody quote read' (cr.write cs) = some (cr.write r.1, cr.write r.2) := by
  fun_induction stringBody quote read cs generalizing read' with
  | case1 => cases h
  | case2 => cases h
  | case3 read c rest ih =>
    obtain ⟨d, hd⟩ : ∃ d, cr.spell c = [d] := by unfold spell; split <;> exact ⟨_, rfl⟩
    rw [cr.write_cons_of_ne (by decide), write_cons, hd, List.singleton_append, stringBody_escape]
    exact ih (by simp [hread, write_cons, hd, cr.spell_of_ne]) h
  | case4 => cases h
  | case5 read rest hone hmany hline =>
    cases h
    rw [cr.write_cons_of_ne hline, stringBody_cons (ne_backslash hone hmany), if_neg hline,
      if_pos rfl, hread]
  | case6 read c rest hone hmany hline hc ih =>
    rw [cr.write_cons_of_ne hline, stringBody_cons (ne_backslash hone hmany), if_neg hline,
      if_neg hc]
    exact ih (by simp [hread, write_cons, cr.spell_of_ne hline]) h

theorem regexBody_cr {inClass : Bool} {read read' cs : List Char}
    (hread : read'.reverse = cr.write read.reverse) {r : List Char × List Char}
    (h : regexBody inClass read cs = some r) :
    regexBody inClass read' (cr.write cs) = some (cr.write r.1, cr.write r.2) := by
  fun_induction regexBody inClass read cs generalizing read' with
  | case1 => cases h
  | case2 => cases h
  | case3 inClass read c rest ih =>
    obtain ⟨d, hd⟩ : ∃ d, cr.spell c = [d] := by unfold spell; split <;> exact ⟨_, rfl⟩
    rw [cr.write_cons_of_ne (by decide), write_cons, hd, List.singleton_append, regexBody]
    exact ih (by simp [hread, write_cons, hd, cr.spell_of_ne]) h
  | case4 => cases h
  | case5 inClass read c rest hone hmany hline hend =>
    cases h
    rw [cr.write_cons_of_ne hline, regexBody_cons (ne_backslash hone hmany), if_neg hline,
      if_pos hend, hread]
  | case6 inClass read c rest hone hmany hline hend ih =>
    rw [cr.write_cons_of_ne hline, regexBody_cons (ne_backslash hone hmany), if_neg hline,
      if_neg hend]
    exact ih (by simp [hread, write_cons, cr.spell_of_ne hline]) h

section Returns

variable (he : e.HasReturn)

include he

theorem exists_chars : e.chars = ['\r'] ∨ e.chars = ['\r', '\n'] :=
  he.imp (congrArg LineEnd.chars) (congrArg LineEnd.chars)

/-- Templates end where they did. -/
theorem templateText_write {read read' cs : List Char}
    (hread : read'.reverse = e.write read.reverse) :
    templateText read' (e.write cs) =
      (templateText read cs).map fun r => (e.write r.1, r.2.1, e.write r.2.2) := by
  -- A line end is a line feed or not, and may have a second character.
  have hplain : ∀ {read' : List Char} {c : Char} (rest : List Char), c = '\n' ∨ c = '\r' →
      templateText read' (c :: rest) = templateText (c :: read') rest := by
    rintro read' c rest (rfl | rfl) <;> simp [templateText]
  fun_induction templateText read cs generalizing read' with
  | case1 => rfl
  | case2 => rfl
  | case3 read c rest ih =>
    rw [e.write_cons_of_ne (by decide)]
    by_cases hc : c = '\n'
    · subst hc
      rw [write_lineFeed]
      rcases exists_chars he with hchars | hchars
      · rw [hchars, List.singleton_append, templateText]
        exact ih (by simp [hread, hchars, e.write_cons_of_ne])
      · rw [hchars, List.cons_append, List.singleton_append, templateText, hplain _ (.inl rfl)]
        exact ih (by simp [hread, hchars, e.write_cons_of_ne])
    · rw [e.write_cons_of_ne hc, templateText]
      exact ih (by simp [hread, e.write_cons_of_ne, hc])
  | case4 read rest =>
    rw [e.write_cons_of_ne (by decide), templateText, hread]
    rfl
  | case5 read rest =>
    rw [e.write_cons_of_ne (by decide), e.write_cons_of_ne (by decide), templateText, hread]
    rfl
  | case6 read c rest hone hmany htick hdollar ih =>
    by_cases hc : c = '\n'
    · subst hc
      rw [write_lineFeed]
      rcases exists_chars he with hchars | hchars
      · rw [hchars, List.singleton_append, hplain _ (.inr rfl)]
        exact ih (by simp [hread, hchars])
      · rw [hchars, List.cons_append, List.singleton_append, hplain _ (.inr rfl),
          hplain _ (.inl rfl)]
        exact ih (by simp [hread, hchars])
    · have hescape := ne_backslash hone hmany
      have hbrace : ∀ tail, c = '$' → e.write rest = '{' :: tail → False := by
        intro tail hc htail
        obtain ⟨tail', rfl⟩ := List.head?_eq_some_iff.1
          ((he.head?_write (d := '{') (by decide)).1 (by rw [htail]; rfl))
        exact hdollar tail' hc rfl
      rw [e.write_cons_of_ne hc, templateText]
      · exact ih (by simp [hread, e.write_cons_of_ne hc])
      · exact fun h => absurd h hescape
      · exact fun d ds h => absurd h hescape
      · exact htick
      · exact hbrace

/-- Block comments end where they did. -/
theorem cut?_write (cs : List Char) : cut? ['*', '/'] (e.write cs) =
    (cut? ['*', '/'] cs).map fun r => (e.write r.1, e.write r.2) := by
  have hother : ∀ {c : Char} (rest : List Char), c ≠ '*' →
      cut? ['*', '/'] (c :: rest) = (cut? ['*', '/'] rest).map fun r => (c :: r.1, r.2) := by
    intro c rest hc
    rw [cut?, if_neg (by simp [List.isPrefixOf, Ne.symm hc])]
  induction cs with
  | nil => rfl
  | cons c cs ih =>
    by_cases hc : c = '\n'
    · subst hc
      rw [write_lineFeed, hother cs (by decide), Option.map_map]
      rcases exists_chars he with hchars | hchars
      · rw [hchars, List.singleton_append, hother _ (by decide), ih, Option.map_map]
        simp [Function.comp_def, hchars]
      · rw [hchars, List.cons_append, List.singleton_append, hother _ (by decide),
          hother _ (by decide), ih, Option.map_map, Option.map_map]
        simp [Function.comp_def, hchars]
    · rw [e.write_cons_of_ne hc]
      by_cases hstar : c = '*'
      · subst hstar
        by_cases hslash : cs.head? = some '/'
        · obtain ⟨tail, rfl⟩ := List.head?_eq_some_iff.1 hslash
          rw [e.write_cons_of_ne (by decide)]
          rfl
        · have hslash' := mt (he.head?_write (d := '/') (by decide)).1 hslash
          have hnot : ∀ ds : List Char, ds.head? ≠ some '/' →
              ¬ ['*', '/'].isPrefixOf ('*' :: ds) := by
            intro ds hds hprefix
            obtain ⟨tail, htail⟩ := List.isPrefixOf_iff_prefix.1 hprefix
            exact hds (by rw [← (List.cons.inj htail).2]; rfl)
          rw [cut?, if_neg (hnot _ hslash'), ih, cut?, if_neg (hnot _ hslash), Option.map_map,
            Option.map_map]
          simp [Function.comp_def, e.write_cons_of_ne]
      · rw [hother _ hstar, ih, hother _ hstar, Option.map_map, Option.map_map]
        simp [Function.comp_def, e.write_cons_of_ne hc]

/-- Words end where they did. -/
theorem takeWhile_isWordPart_write (cs : List Char) :
    (e.write cs).takeWhile isWordPart = cs.takeWhile isWordPart ∧
      (e.write cs).dropWhile isWordPart = e.write (cs.dropWhile isWordPart) := by
  have hne : ∀ c ∈ cs, e.spell c ≠ [] := fun c _ => he.spell_ne_nil c
  have hsame : ∀ c ∈ cs, ∀ d ∈ e.spell c, isWordPart d = isWordPart c :=
    fun c _ d hd => he.eq_of_mem_spell rfl hd
  refine ⟨?_, dropWhile_flatMap hne hsame⟩
  rw [LineEnd.write, takeWhile_flatMap hne hsame]
  refine e.write_of_not_mem fun hmem => ?_
  exact absurd (List.mem_takeWhile_imp hmem) (by decide)

theorem stringBody_write {quote : Char} (hquote : quote = '\'' ∨ quote = '"') {cs : List Char}
    {r : List Char × List Char} (h : stringBody quote [] cs = some r)
    (hover : e = crlf → '\n' ∉ r.1) :
    stringBody quote [] (e.write cs) = some (e.write r.1, e.write r.2) := by
  rcases he with rfl | rfl
  · exact stringBody_cr rfl h
  · rw [stringBody_crlf hquote List.not_mem_nil, h, Option.bind_some, if_neg (hover rfl),
      crlf.write_of_not_mem (hover rfl)]

theorem regexBody_write {cs : List Char} {r : List Char × List Char}
    (h : regexBody false [] cs = some r) (hover : e = crlf → '\n' ∉ r.1) :
    regexBody false [] (e.write cs) = some (e.write r.1, e.write r.2) := by
  rcases he with rfl | rfl
  · exact regexBody_cr rfl h
  · rw [regexBody_crlf List.not_mem_nil, h, Option.bind_some, if_neg (hover rfl),
      crlf.write_of_not_mem (hover rfl)]

end Returns

end Masking

end ModuleWorkers
