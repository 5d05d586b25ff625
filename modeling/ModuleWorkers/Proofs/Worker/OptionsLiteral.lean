import Mathlib.Tactic.SplitIfs
import ModuleWorkers.Worker.Options

/-!
# Options that are written read back

Options are written in plain JSON and read in relaxed JSON. Between quotes the two forms agree on
every character but the line separator and the paragraph separator: these are written as they are,
and end the line for the reader (`Json.Relaxed.stringBody_encode`). So options read back exactly if
neither of their texts has one of the two (`WorkerOptions.parse?_literal`), and then writing them
again changes nothing (`WorkerOptions.literal_denotes_iff`).
-/

namespace ModuleWorkers

namespace Json.Relaxed

open Text

/-! ## Quoted texts -/

/-- Whether a text has a line terminator that is not escaped between quotes. -/
def HasSeparator (cs : List Char) : Prop := '\u2028' ∈ cs ∨ '\u2029' ∈ cs

instance (cs : List Char) : Decidable (HasSeparator cs) :=
  inferInstanceAs (Decidable ('\u2028' ∈ cs ∨ '\u2029' ∈ cs))

theorem hasSeparator_cons {c : Char} {cs : List Char} :
    HasSeparator (c :: cs) ↔ (c = '\u2028' ∨ c = '\u2029') ∨ HasSeparator cs := by
  simp only [HasSeparator, List.mem_cons, eq_comm (b := c)]
  exact or_or_or_comm

/-- The escape of a control is read as that control. -/
theorem unicodeEscape?_control {c : Char} (hc : c.toNat < 32) (rest : List Char) :
    unicodeEscape? ('0' :: '0' :: hexDigit (c.toNat / 16) :: hexDigit (c.toNat % 16) :: rest) =
      some (c, rest) := by
  have hzero : hexValue? '0' = some 0 := rfl
  have hhigh : hexValue? (hexDigit (c.toNat / 16)) = some (c.toNat / 16) :=
    Quoted.hexValue?_hexDigit (by omega)
  have hlow : hexValue? (hexDigit (c.toNat % 16)) = some (c.toNat % 16) :=
    Quoted.hexValue?_hexDigit (by omega)
  have hhex : hex4? '0' '0' (hexDigit (c.toNat / 16)) (hexDigit (c.toNat % 16)) =
      some c.toNat := by
    simp only [hex4?, hzero, hhigh, hlow, Option.bind_eq_bind, Option.bind_some, Option.pure_def,
      Option.some.injEq]
    omega
  rw [unicodeEscape?, hhex]
  simp only [Option.bind_eq_bind, Option.bind_some]
  rw [if_neg (by omega), if_neg (by omega), Char.ofNat_toNat]

/-- A character that is written between quotes is read, unless it is a separator. -/
theorem stringBody_encodeChar (c : Char) (read rest : List Char) :
    stringBody '"' read (Quoted.encodeChar c ++ rest) =
      if c = '\u2028' ∨ c = '\u2029' then none else stringBody '"' (c :: read) rest := by
  unfold Quoted.encodeChar
  cases hletter : Quoted.escapeLetter? c with
  | some letter =>
    change stringBody '"' read ('\\' :: letter :: rest) = _
    unfold Quoted.escapeLetter? at hletter
    split at hletter <;> cases hletter <;> rw [if_neg (by decide)] <;>
      simp [stringBody, isLineTerminator, escaped, Char.isDigit]
  | none =>
    obtain ⟨hquote, hescape⟩ := Quoted.ne_of_escapeLetter?_eq_none hletter
    simp only
    split
    · rename_i hcontrol
      have hne : ¬ (c = '\u2028' ∨ c = '\u2029') := by
        rintro (rfl | rfl) <;> exact absurd hcontrol (by decide)
      have hread := unicodeEscape?_control hcontrol rest
      rw [if_neg hne]
      simp only [List.cons_append, List.nil_append]
      rw [stringBody]
      split
      · rename_i hnone
        cases hnone.symm.trans hread
      · rename_i d rest' hsome
        cases hsome.symm.trans hread
        rfl
    · have hfeed : c ≠ '\n' ∧ c ≠ '\r' := by
        constructor <;> rintro rfl <;> cases hletter
      have hline : isLineTerminator c ↔ c = '\u2028' ∨ c = '\u2029' := by
        simp [isLineTerminator, hfeed]
      rw [List.singleton_append, stringBody, if_neg hquote]
      · simp only [hescape, false_or, hline]
      all_goals simp [hescape]

theorem stringBody_encode (cs read rest : List Char) :
    stringBody '"' read (cs.flatMap Quoted.encodeChar ++ '"' :: rest) =
      if HasSeparator cs then none else some (read.reverse ++ cs, rest) := by
  induction cs generalizing read with
  | nil => simp [stringBody, HasSeparator]
  | cons c cs ih =>
    rw [List.flatMap_cons, List.append_assoc, stringBody_encodeChar, ih]
    simp only [hasSeparator_cons]
    split_ifs <;> simp_all

/-! ## Tokens -/

/-- Whether a text is cut into tokens, whatever follows it. -/
def Scans (cs : List Char) (ts : List Token) : Prop :=
  ∀ rest, scan? (cs ++ rest) = (scan? rest).map (ts ++ ·)

theorem Scans.append {as bs : List Char} {ts us : List Token} (h : Scans as ts) (h' : Scans bs us) :
    Scans (as ++ bs) (ts ++ us) := by
  intro rest
  rw [List.append_assoc, h, h', Option.map_map]
  refine congrArg (Option.map · _) (funext fun vs => ?_)
  exact (List.append_assoc ts us vs).symm

theorem Scans.scan?_eq {cs : List Char} {ts : List Token} (h : Scans cs ts) :
    scan? cs = some ts := by
  have := h []
  rwa [List.append_nil, scan?, Option.map_some, List.append_nil] at this

theorem scans_nil : Scans [] [] := by
  intro rest
  cases h : scan? rest <;> simp [h]

theorem scans_punctuation {c : Char} {t : Token} (h : Token.punctuation? c = some t) :
    Scans [c] [t] := by
  intro rest
  have hblank : isBlank c = false := by
    unfold Token.punctuation? at h
    split at h <;> first | rfl | cases h
  rw [List.singleton_append, scan?, hblank, if_neg Bool.false_ne_true, h]
  rfl

theorem scan?_quote (text : String) (rest : List Char) :
    scan? ((Quoted.quote text).toList ++ rest) =
      if HasSeparator text.toList then none else (scan? rest).map (.str (some text) :: ·) := by
  have hbody := stringBody_encode text.toList [] rest
  rw [Quoted.quote, String.toList_ofList, Quoted.encode, List.cons_append, List.cons_append,
    List.append_assoc, List.singleton_append, scan?, if_neg (by decide),
    show Token.punctuation? '"' = none from rfl]
  simp only [Char.reduceEq, if_false, true_or, if_true]
  split_ifs at hbody ⊢ with hseparator
  · split
    · rfl
    · rename_i hsome
      cases hsome.symm.trans hbody
  · split
    · rename_i hnone
      cases hnone.symm.trans hbody
    · rename_i hsome
      cases hsome.symm.trans hbody
      rw [List.reverse_nil, List.nil_append, String.ofList_toList]

theorem scans_quote {text : String} (h : ¬ HasSeparator text.toList) :
    Scans (Quoted.quote text).toList [.str (some text)] := fun rest => by
  rw [scan?_quote, if_neg h]
  rfl

end Json.Relaxed

namespace WorkerOptions

open Json.Relaxed

/-! ## Literals -/

/-- The tokens of a field, if it has a value. -/
def fieldTokens (key : String) : Option String → List Json.Token
  | none => []
  | some value => [.comma, .str (some key), .colon, .str (some value)]

/-- The tokens of options. -/
def tokens (o : WorkerOptions) : List Json.Token :=
  [.openObject, .str (some "type"), .colon, .str (some o.type.text)] ++
    (fieldTokens "name" o.name ++ (fieldTokens "credentials" o.credentials ++ [.closeObject]))

/-- The texts of options. -/
def texts (o : WorkerOptions) : List String := o.name.toList ++ o.credentials.toList

/-- Whether one of the texts of options has a separator. -/
def HasSeparatedText (o : WorkerOptions) : Prop :=
  ∃ text ∈ o.texts, Json.Relaxed.HasSeparator text.toList

instance (o : WorkerOptions) : Decidable o.HasSeparatedText :=
  inferInstanceAs (Decidable (∃ text ∈ o.texts, Json.Relaxed.HasSeparator text.toList))

/-- The options in a text, written back. -/
def canonical? (text : String) : Option String := (parse? text).map literal

theorem mem_texts {o : WorkerOptions} {text : String} :
    text ∈ o.texts ↔ o.name = some text ∨ o.credentials = some text := by
  rw [texts, List.mem_append, Option.mem_toList, Option.mem_toList]

theorem scans_key {key : String} (h : ¬ Json.Relaxed.HasSeparator key.toList) :
    Scans ([','] ++ ((Json.Quoted.quote key).toList ++ [':']))
      [.comma, .str (some key), .colon] := by
  have hcomma : Scans [','] [.comma] := scans_punctuation rfl
  have hcolon : Scans [':'] [.colon] := scans_punctuation rfl
  exact hcomma.append ((scans_quote h).append hcolon)

section

variable {key : String} (hkey : (",\"" ++ key ++ "\":").toList =
    [','] ++ ((Json.Quoted.quote key).toList ++ [':']))
  (hseparator : ¬ Json.Relaxed.HasSeparator key.toList)

include hkey hseparator

theorem scans_literalField {value : Option String}
    (h : ∀ text, value = some text → ¬ Json.Relaxed.HasSeparator text.toList) :
    Scans (literalField key value).toList (fieldTokens key value) := by
  cases value with
  | none => exact scans_nil
  | some text =>
    change Scans (",\"" ++ key ++ "\":" ++ Json.Quoted.quote text).toList _
    rw [String.toList_append, hkey]
    exact (scans_key hseparator).append (scans_quote (h text rfl))

/-- A field with a separator cannot be read. -/
theorem scan?_literalField_eq_none {text : String} (h : Json.Relaxed.HasSeparator text.toList)
    (rest : List Char) : scan? ((literalField key (some text)).toList ++ rest) = none := by
  change scan? ((",\"" ++ key ++ "\":" ++ Json.Quoted.quote text).toList ++ rest) = none
  rw [String.toList_append, hkey, List.append_assoc, scans_key hseparator, scan?_quote, if_pos h]
  rfl

end

theorem toList_name : (",\"" ++ "name" ++ "\":").toList =
    [','] ++ ((Json.Quoted.quote "name").toList ++ [':']) := by decide +kernel

theorem toList_credentials : (",\"" ++ "credentials" ++ "\":").toList =
    [','] ++ ((Json.Quoted.quote "credentials").toList ++ [':']) := by decide +kernel

theorem toList_type : "\x7b\"type\":".toList =
    ['{'] ++ ((Json.Quoted.quote "type").toList ++ [':']) := by decide +kernel

theorem scans_type (t : WorkerType) :
    Scans ("\x7b\"type\":" ++ Json.Quoted.quote t.text).toList
      [.openObject, .str (some "type"), .colon, .str (some t.text)] := by
  have hopen : Scans ['{'] [.openObject] := scans_punctuation rfl
  have hcolon : Scans [':'] [.colon] := scans_punctuation rfl
  have htext : ¬ Json.Relaxed.HasSeparator t.text.toList := by cases t <;> decide
  have hkey : Scans (Json.Quoted.quote "type").toList [.str (some "type")] :=
    scans_quote (by decide)
  rw [String.toList_append, toList_type]
  exact (hopen.append (hkey.append hcolon)).append (scans_quote htext)

theorem toList_literal (o : WorkerOptions) : o.literal.toList =
    ("\x7b\"type\":" ++ Json.Quoted.quote o.type.text).toList ++
      ((literalField "name" o.name).toList ++
        ((literalField "credentials" o.credentials).toList ++ ['}'])) := by
  simp only [literal, String.toList_append, List.append_assoc]
  rfl

theorem scans_literal {o : WorkerOptions} (h : ¬ o.HasSeparatedText) :
    Scans o.literal.toList o.tokens := by
  have hclose : Scans ['}'] [.closeObject] := scans_punctuation rfl
  rw [toList_literal]
  refine (scans_type o.type).append ((scans_literalField toList_name (by decide) ?_).append
    ((scans_literalField toList_credentials (by decide) ?_).append hclose))
  · exact fun text htext hseparator => h ⟨text, mem_texts.2 (.inl htext), hseparator⟩
  · exact fun text htext hseparator => h ⟨text, mem_texts.2 (.inr htext), hseparator⟩

theorem scan?_literal_eq_none {o : WorkerOptions} (h : o.HasSeparatedText) :
    scan? o.literal.toList = none := by
  rw [toList_literal, scans_type, Option.map_eq_none_iff]
  by_cases hname : ∃ text, o.name = some text ∧ Json.Relaxed.HasSeparator text.toList
  · obtain ⟨text, htext, hseparator⟩ := hname
    rw [htext]
    exact scan?_literalField_eq_none toList_name (by decide) hseparator _
  · obtain ⟨text, htext, hseparator⟩ := h
    have hcredentials := (mem_texts.1 htext).resolve_left fun htext =>
      hname ⟨text, htext, hseparator⟩
    rw [scans_literalField toList_name (by decide) fun text htext hseparator =>
      hname ⟨text, htext, hseparator⟩, Option.map_eq_none_iff, hcredentials]
    exact scan?_literalField_eq_none toList_credentials (by decide) hseparator _

/-- The tokens of options make up an object that has the options. -/
theorem bind_build?_tokens (o : WorkerOptions) :
    (Json.Form.relaxed.build? o.tokens).bind ofValue? = some o := by
  obtain ⟨type, name, credentials⟩ := o
  cases type <;> cases name <;> cases credentials <;> rfl

/-- Options are read back unless one of their texts has a separator. -/
theorem parse?_literal (o : WorkerOptions) :
    parse? o.literal = if o.HasSeparatedText then none else some o := by
  unfold parse? Json.Relaxed.parse?
  split
  · rename_i h
    rw [scan?_literal_eq_none h]
    rfl
  · rename_i h
    rw [(scans_literal h).scan?_eq]
    exact o.bind_build?_tokens

/-- Options are read back exactly if none of their texts has a separator; otherwise what was written
cannot be read at all. So whatever text they were read from, what is written for it denotes the same
options, and stays as it is when it is read and written again, exactly if no text has a
separator. -/
theorem literal_denotes_iff (o : WorkerOptions) :
    (parse? o.literal = some o ↔ ¬ o.HasSeparatedText) ∧
    (parse? o.literal = none ↔ o.HasSeparatedText) ∧
    ∀ text, parse? text = some o → canonical? text = some o.literal ∧
      ((canonical? text).bind parse? = parse? text ↔ ¬ o.HasSeparatedText) ∧
      ((canonical? text).bind canonical? = canonical? text ↔ ¬ o.HasSeparatedText) := by
  have hread := o.parse?_literal
  refine ⟨by rw [hread]; simp, by rw [hread]; simp, fun text htext => ?_⟩
  have hcanonical : canonical? text = some o.literal := by rw [canonical?, htext, Option.map_some]
  refine ⟨hcanonical, ?_, ?_⟩
  · rw [hcanonical, Option.bind_some, htext, hread]
    simp
  · rw [hcanonical, Option.bind_some, canonical?, hread]
    split <;> simp_all

/-- Quotes, a backslash, a control, an accent and a character beyond the basic plane. -/
theorem literal_denotes_iff_escaped :
    ∃ o : WorkerOptions, o.literal = "\x7b\"type\":\"module\",\"name\":\"\\\"'\\\\\\u0001é😀\"\x7d" ∧
      ¬ o.HasSeparatedText ∧
      parse? "\x7btype: 'module', name: '\"\\'\\\\\\x01\\u00e9\\ud83d\\ude00',\x7d" = some o ∧
      parse? o.literal = some o ∧
      canonical? "\x7btype: 'module', name: '\"\\'\\\\\\x01\\u00e9\\ud83d\\ude00',\x7d" =
        some o.literal := by
  have hparse : parse? "\x7btype: 'module', name: '\"\\'\\\\\\x01\\u00e9\\ud83d\\ude00',\x7d" =
      some ⟨.module, some "\"'\\\x01é😀", none⟩ := by decide +kernel
  obtain ⟨hread, -, htext⟩ := literal_denotes_iff ⟨.module, some "\"'\\\x01é😀", none⟩
  have hseparated : ¬ HasSeparatedText ⟨.module, some "\"'\\\x01é😀", none⟩ := by decide
  exact ⟨_, by decide +kernel, hseparated, hparse, hread.2 hseparated, (htext _ hparse).1⟩

/-- A name that is a line separator, written with an escape, is written back without one. -/
theorem exists_parse?_literal_ne :
    ∃ o, parse? "\x7btype: 'module', name: '\\u2028'\x7d" = some o ∧ parse? o.literal = none :=
  ⟨⟨.module, some "\u2028", none⟩, by decide +kernel, by decide +kernel⟩

end WorkerOptions

end ModuleWorkers
