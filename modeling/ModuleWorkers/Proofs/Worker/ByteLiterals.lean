import ModuleWorkers.Proofs.Worker.ByteReader
import ModuleWorkers.Proofs.Worker.Locality

/-!
# Ends of literals in bytes

The reader of bytes finds the ends of literals where the reader of characters does
(`Masking.Bytes.stringEnd?_eq`, `Masking.Bytes.regexEnd?_eq`, `Masking.Bytes.templateText_eq`). It
may stop inside a character, behind the first byte of an escaped one, but the other bytes of that
character look like nothing that counts in a literal, so it gets over them.
-/

namespace ModuleWorkers.Masking.Bytes

open Text

variable {bytes : List UInt8} {i : Nat}

/-! ## The bytes at an offset -/

theorem exists_of_drop_eq_cons {b : UInt8} {tail : List UInt8} (h : bytes.drop i = b :: tail) :
    ∃ hlt : i < bytes.length, bytes[i] = b ∧ bytes.drop (i + 1) = tail := by
  have hlt : i < bytes.length := by
    by_contra hle
    rw [List.drop_eq_nil_of_le (Nat.le_of_not_lt hle)] at h
    cases h
  rw [List.drop_eq_getElem_cons hlt] at h
  exact ⟨hlt, (List.cons.inj h).1, (List.cons.inj h).2⟩

theorem drop_add {front tail : List UInt8} (h : bytes.drop i = front ++ tail) :
    bytes.drop (i + front.length) = tail := by
  rw [← List.drop_drop, h, List.drop_left]

/-- A character of ASCII at an offset. -/
theorem exists_of_drop_eq_utf8 {c : Char} {cs : List Char} (hc : c.toNat < 128)
    (h : bytes.drop i = utf8 (c :: cs)) :
    ∃ hlt : i < bytes.length, Char.ofUInt8 bytes[i] = c ∧ bytes.drop (i + 1) = utf8 cs := by
  obtain ⟨b, hb, hcode⟩ := exists_utf8EncodeChar_eq_singleton hc
  rw [utf8_cons, hb] at h
  obtain ⟨hlt, hget, hdrop⟩ := exists_of_drop_eq_cons h
  exact ⟨hlt, hget ▸ hcode, hdrop⟩

theorem length_le_of_drop (h : bytes.drop i = utf8 []) : ¬ i < bytes.length := by
  have := congrArg List.length h
  rw [List.length_drop, utf8_nil, List.length_nil] at this
  omega

theorem length_eq_of_drop {c : Char} {cs : List Char} (hc : c.toNat < 128)
    (h : bytes.drop i = utf8 (c :: cs)) : bytes.length = i + (byteLength cs + 1) := by
  obtain ⟨hlt, -, hdrop⟩ := exists_of_drop_eq_utf8 hc h
  have := congrArg List.length hdrop
  rw [List.length_drop, length_utf8] at this
  omega

/-- Bytes of a character look like no other one of ASCII. -/
theorem ofUInt8_ne {c d : Char} (hcd : c ≠ d) (hd : d.toNat < 128) :
    ∀ b ∈ String.utf8EncodeChar c, Char.ofUInt8 b ≠ d :=
  fun _ hb => mt (ofUInt8_eq_iff hb hd).1 hcd

theorem ne_of_beyond {b : UInt8} {d : Char} (hb : 128 ≤ (Char.ofUInt8 b).toNat)
    (hd : d.toNat < 128) : Char.ofUInt8 b ≠ d := by
  rintro rfl
  omega

/-- The character at an offset, if it is in ASCII. -/
theorem map_ofUInt8_eq_some_iff {cs : List Char} {d : Char} (h : bytes.drop i = utf8 cs)
    (hd : d.toNat < 128) : bytes[i]?.map Char.ofUInt8 = some d ↔ cs.head? = some d := by
  rw [← List.head?_drop, h]
  cases cs with
  | nil => simp
  | cons c cs =>
    obtain ⟨b, bs, hb, -⟩ := exists_utf8EncodeChar_eq c
    rw [utf8_cons, hb, List.cons_append, List.head?_cons, List.head?_cons, Option.map_some,
      Option.some_inj, Option.some_inj, ofUInt8_eq_iff (hb ▸ List.mem_cons_self) hd]

/-- Blanks are written over a stretch. -/
theorem blank_append (front middle back : List UInt8) :
    blank (front ++ (middle ++ back)) front.length (front.length + middle.length) =
      .ok (front ++ (middle.map veil ++ back)) := by
  have hstop : (front ++ middle).length = front.length + middle.length := List.length_append
  have htake : (front ++ (middle ++ back)).take (front.length + middle.length) =
      front ++ middle := by rw [← List.append_assoc, ← hstop, List.take_left]
  have hdrop : (front ++ (middle ++ back)).drop (front.length + middle.length) = back := by
    rw [← List.append_assoc, ← hstop, List.drop_left]
  rw [blank, if_pos (by simp), htake, hdrop, List.take_left, List.drop_left]

/-! ## Strings -/

theorem stringEnd?_skip {quote : Char} {front tail : List UInt8} (h : bytes.drop i = front ++ tail)
    (hfront : ∀ b ∈ front, Char.ofUInt8 b ≠ '\\' ∧ Char.ofUInt8 b ≠ '\n' ∧ Char.ofUInt8 b ≠ quote) :
    stringEnd? bytes quote i = stringEnd? bytes quote (i + front.length) := by
  induction front generalizing i with
  | nil => rfl
  | cons b front ih =>
    obtain ⟨⟨hescape, hline, hquote⟩, hrest⟩ := List.forall_mem_cons.1 hfront
    obtain ⟨hlt, hget, hdrop⟩ := exists_of_drop_eq_cons h
    rw [stringEnd?, dif_pos hlt, hget, if_neg hescape, if_neg hline, if_neg hquote, ih hdrop hrest,
      List.length_cons, Nat.add_right_comm, Nat.add_assoc]

theorem stringEnd?_eq {quote : Char} (hquote : quote.toNat < 128) (hne : quote ≠ '\\')
    {cs : List Char} (h : bytes.drop i = utf8 cs) (read : List Char) :
    stringEnd? bytes quote i =
      (stringBody quote read cs).map fun r => bytes.length - (byteLength r.2 + 1) := by
  fun_induction stringBody quote read cs generalizing i with
  | case1 =>
    rw [stringEnd?, dif_neg (length_le_of_drop h)]
    rfl
  | case2 =>
    obtain ⟨hlt, hget, hdrop⟩ := exists_of_drop_eq_utf8 (by decide) h
    have hend : ¬ i + 2 < bytes.length := fun hlt => length_le_of_drop hdrop (by omega)
    rw [stringEnd?, dif_pos hlt, if_pos hget, stringEnd?, dif_neg hend]
    rfl
  | case3 read c rest ih =>
    obtain ⟨hlt, hget, hdrop⟩ := exists_of_drop_eq_utf8 (by decide) h
    obtain ⟨b, bs, hbytes, -, hbs⟩ := exists_utf8EncodeChar_eq c
    rw [utf8_cons, hbytes] at hdrop
    obtain ⟨-, -, hdrop⟩ := exists_of_drop_eq_cons hdrop
    rw [stringEnd?, dif_pos hlt, if_pos hget, stringEnd?_skip hdrop fun b hb =>
      ⟨ne_of_beyond (hbs b hb) (by decide), ne_of_beyond (hbs b hb) (by decide),
        ne_of_beyond (hbs b hb) hquote⟩]
    exact ih (drop_add hdrop)
  | case4 read rest =>
    obtain ⟨hlt, hget, -⟩ := exists_of_drop_eq_utf8 (by decide) h
    rw [stringEnd?, dif_pos hlt, hget, if_neg (by decide), if_pos rfl]
    rfl
  | case5 read rest _ _ hline =>
    obtain ⟨hlt, hget, -⟩ := exists_of_drop_eq_utf8 hquote h
    rw [stringEnd?, dif_pos hlt, hget, if_neg hne, if_neg hline, if_pos rfl, Option.map_some,
      length_eq_of_drop hquote h, Nat.add_sub_cancel]
  | case6 read c rest hone hmany hline hc ih =>
    have hescape := ne_backslash hone hmany
    rw [stringEnd?_skip h fun b hb => ⟨ofUInt8_ne hescape (by decide) b hb,
      ofUInt8_ne hline (by decide) b hb, ofUInt8_ne hc hquote b hb⟩]
    exact ih (drop_add h)

/-! ## Regular expressions -/

theorem regexEnd?_skip {inClass : Bool} {front tail : List UInt8} (h : bytes.drop i = front ++ tail)
    (hfront : ∀ b ∈ front, Char.ofUInt8 b ≠ '\n' ∧ Char.ofUInt8 b ≠ '\\' ∧
      Char.ofUInt8 b ≠ '[' ∧ Char.ofUInt8 b ≠ ']' ∧ (Char.ofUInt8 b ≠ '/' ∨ inClass)) :
    regexEnd? bytes inClass i = regexEnd? bytes inClass (i + front.length) := by
  induction front generalizing i with
  | nil => rfl
  | cons b front ih =>
    obtain ⟨⟨hline, hescape, hopen, hclose, hslash⟩, hrest⟩ := List.forall_mem_cons.1 hfront
    obtain ⟨hlt, hget, hdrop⟩ := exists_of_drop_eq_cons h
    have hgoes : ¬ (Char.ofUInt8 b = '/' ∧ !inClass) := by
      rcases hslash with hslash | hslash <;> simp [hslash]
    rw [regexEnd?, dif_pos hlt, hget, if_neg hline, if_neg hescape, if_neg hopen, if_neg hclose,
      if_neg hgoes, ih hdrop hrest, List.length_cons, Nat.add_right_comm, Nat.add_assoc]

theorem regexEnd?_eq {inClass : Bool} {cs : List Char} (h : bytes.drop i = utf8 cs)
    (read : List Char) :
    regexEnd? bytes inClass i =
      (regexBody inClass read cs).map fun r => bytes.length - (byteLength r.2 + 1) := by
  fun_induction regexBody inClass read cs generalizing i with
  | case1 =>
    rw [regexEnd?, dif_neg (length_le_of_drop h)]
    rfl
  | case2 =>
    obtain ⟨hlt, hget, hdrop⟩ := exists_of_drop_eq_utf8 (by decide) h
    have hend : ¬ i + 2 < bytes.length := fun hlt => length_le_of_drop hdrop (by omega)
    rw [regexEnd?, dif_pos hlt, hget, if_neg (by decide), if_pos rfl, regexEnd?, dif_neg hend]
    rfl
  | case3 inClass read c rest ih =>
    obtain ⟨hlt, hget, hdrop⟩ := exists_of_drop_eq_utf8 (by decide) h
    obtain ⟨b, bs, hbytes, -, hbs⟩ := exists_utf8EncodeChar_eq c
    rw [utf8_cons, hbytes] at hdrop
    obtain ⟨-, -, hdrop⟩ := exists_of_drop_eq_cons hdrop
    rw [regexEnd?, dif_pos hlt, hget, if_neg (by decide), if_pos rfl, regexEnd?_skip hdrop
      fun b hb => ⟨ne_of_beyond (hbs b hb) (by decide), ne_of_beyond (hbs b hb) (by decide),
        ne_of_beyond (hbs b hb) (by decide), ne_of_beyond (hbs b hb) (by decide),
        .inl (ne_of_beyond (hbs b hb) (by decide))⟩]
    exact ih (drop_add hdrop)
  | case4 inClass read rest =>
    obtain ⟨hlt, hget, -⟩ := exists_of_drop_eq_utf8 (by decide) h
    rw [regexEnd?, dif_pos hlt, hget, if_pos rfl]
    rfl
  | case5 inClass read c rest _ _ hline hend =>
    obtain ⟨rfl, hclass⟩ := hend
    obtain ⟨hlt, hget, -⟩ := exists_of_drop_eq_utf8 (by decide) h
    rw [regexEnd?, dif_pos hlt, hget, if_neg (by decide), if_neg (by decide), if_neg (by decide),
      if_neg (by decide), if_pos ⟨rfl, hclass⟩, Option.map_some,
      length_eq_of_drop (by decide) h, Nat.add_sub_cancel]
  | case6 inClass read c rest hone hmany hline hend ih =>
    have hescape := ne_backslash hone hmany
    by_cases hopen : c = '['
    · subst hopen
      obtain ⟨hlt, hget, hdrop⟩ := exists_of_drop_eq_utf8 (by decide) h
      rw [regexEnd?, dif_pos hlt, hget, if_neg (by decide), if_neg (by decide), if_pos rfl]
      exact ih hdrop
    by_cases hclose : c = ']'
    · subst hclose
      obtain ⟨hlt, hget, hdrop⟩ := exists_of_drop_eq_utf8 (by decide) h
      rw [regexEnd?, dif_pos hlt, hget, if_neg (by decide), if_neg (by decide), if_neg (by decide),
        if_pos rfl]
      exact ih hdrop
    · rw [if_neg hopen, if_neg hclose] at ih ⊢
      rw [regexEnd?_skip h fun b hb => ⟨ofUInt8_ne hline (by decide) b hb,
        ofUInt8_ne hescape (by decide) b hb, ofUInt8_ne hopen (by decide) b hb,
        ofUInt8_ne hclose (by decide) b hb, ?_⟩]
      · exact ih (drop_add h)
      · rcases Bool.eq_false_or_eq_true inClass with hin | hin
        · exact .inr hin
        · exact .inl (ofUInt8_ne (fun hc => hend ⟨hc, by rw [hin]; rfl⟩) (by decide) b hb)

/-! ## Comments -/

theorem find?_skip {a : UInt8} {part front tail : List UInt8} (hfront : ∀ b ∈ front, b ≠ a) :
    find? (a :: part) (front ++ tail) = (find? (a :: part) tail).map (· + front.length) := by
  induction front with
  | nil => simp
  | cons b front ih =>
    obtain ⟨hb, hfront⟩ := List.forall_mem_cons.1 hfront
    have hnot : ¬ (a :: part).isPrefixOf (b :: (front ++ tail)) := by
      simp [List.isPrefixOf, Ne.symm hb]
    rw [List.cons_append, find?, if_neg hnot, ih hfront, Option.map_map]
    rfl

/-- The end of a block comment is found in its bytes. -/
theorem find?_utf8 (cs : List Char) : find? (utf8 ['*', '/']) (utf8 cs) =
    (cut? ['*', '/'] cs).map fun r => byteLength r.1 := by
  obtain ⟨a, ha, hcode⟩ := exists_utf8EncodeChar_eq_singleton (c := '*') (by decide)
  obtain ⟨part, hpart⟩ : ∃ part, utf8 ['*', '/'] = a :: part :=
    ⟨utf8 ['/'], by rw [utf8_cons, ha, List.singleton_append]⟩
  have hprefix : ∀ cs : List Char, (a :: part).isPrefixOf (utf8 cs) = ['*', '/'].isPrefixOf cs := by
    intro cs
    rw [Bool.eq_iff_iff, List.isPrefixOf_iff_prefix, List.isPrefixOf_iff_prefix, ← hpart,
      utf8_prefix_iff (by simp)]
  rw [hpart]
  induction cs with
  | nil => rfl
  | cons c cs ih =>
    by_cases hc : c = '*'
    · subst hc
      rw [utf8_cons, ha, List.singleton_append, find?, cut?, ← hprefix, utf8_cons, ha,
        List.singleton_append]
      split
      · rfl
      · rw [ih, Option.map_map, Option.map_map]
        congr 1
        funext r
        exact (Nat.add_comm _ _).trans (byteLength_cons '*' r.1).symm
    · have hskip : ∀ d ∈ String.utf8EncodeChar c, d ≠ a := by
        rintro d hd rfl
        exact ofUInt8_ne hc (by decide) d hd hcode
      have hnot : ¬ ['*', '/'].isPrefixOf (c :: cs) := by simp [List.isPrefixOf, Ne.symm hc]
      rw [utf8_cons, find?_skip hskip, ih, cut?, if_neg hnot, Option.map_map, Option.map_map,
        String.length_utf8EncodeChar]
      congr 1
      funext r
      exact (Nat.add_comm _ _).trans (byteLength_cons c r.1).symm

/-! ## Templates -/

/-- A backslash is blanked with the byte behind it, if there is one. -/
theorem templateText_escape {start : Nat} {done back : List UInt8} (middle : List UInt8)
    (hdone : done.length = i) (hlt : i < bytes.length) (hget : Char.ofUInt8 bytes[i] = '\\')
    (hstop : min (i + 2) bytes.length = i + middle.length) :
    templateText bytes start (done ++ (middle ++ back)) i =
      templateText bytes start (done ++ (middle.map veil ++ back)) (i + middle.length) := by
  have hblank := blank_append done middle back
  rw [hdone] at hblank
  rw [templateText, dif_pos hlt, if_pos hget, hstop]
  exact congrArg (· >>= fun out => templateText bytes start out (i + middle.length)) hblank

/-- A byte that looks like nothing that counts in a template is blanked. -/
theorem templateText_blank {start : Nat} {done back : List UInt8} (hdone : done.length = i)
    {b : UInt8} (hlt : i < bytes.length) (hget : bytes[i] = b) (hescape : Char.ofUInt8 b ≠ '\\')
    (htick : Char.ofUInt8 b ≠ '`')
    (hstart : ¬ (Char.ofUInt8 b = '$' ∧ bytes[i + 1]?.map Char.ofUInt8 = some '{')) :
    templateText bytes start (done ++ b :: back) i =
      templateText bytes start (done ++ veil b :: back) (i + 1) := by
  have hblank := blank_append done [b] back
  rw [List.length_singleton, hdone] at hblank
  rw [templateText, dif_pos hlt, hget, if_neg hescape, if_neg htick, if_neg hstart]
  exact congrArg (· >>= fun out => templateText bytes start out (i + 1)) hblank

theorem templateText_skip {start : Nat} {done middle back tail : List UInt8}
    (hdone : done.length = i) (h : bytes.drop i = middle ++ tail)
    (hmiddle : ∀ b ∈ middle, Char.ofUInt8 b ≠ '\\' ∧ Char.ofUInt8 b ≠ '`' ∧
      Char.ofUInt8 b ≠ '$') :
    templateText bytes start (done ++ (middle ++ back)) i =
      templateText bytes start (done ++ (middle.map veil ++ back)) (i + middle.length) := by
  induction middle generalizing i done with
  | nil => rfl
  | cons b middle ih =>
    obtain ⟨⟨hescape, htick, hdollar⟩, hrest⟩ := List.forall_mem_cons.1 hmiddle
    obtain ⟨hlt, hget, hdrop⟩ := exists_of_drop_eq_cons h
    have hlength : (done ++ [veil b]).length = i + 1 := by simp [hdone]
    have hnext := ih hlength hdrop hrest
    rw [List.append_assoc, List.append_assoc] at hnext
    rw [List.cons_append, templateText_blank hdone hlt hget hescape htick
      fun hstart => hdollar hstart.1]
    refine hnext.trans ?_
    rw [List.length_cons, Nat.add_right_comm, Nat.add_assoc]
    rfl

/-- The text of a template is blanked up to its end or its next substitution. -/
theorem templateText_eq {start : Nat} {cs read : List Char} {front done : List UInt8}
    (hdone : done = front ++ (utf8 read.reverse).map veil) (hi : done.length = i)
    (h : bytes.drop i = utf8 cs) :
    templateText bytes start (done ++ utf8 cs) i =
      match Masking.templateText read cs with
      | none => .error (.lex (.unterminatedTemplate start))
      | some (text, ends, rest) =>
        .ok (front ++ ((utf8 text).map veil ++ utf8 (templateEnd ends ++ rest)),
          bytes.length - byteLength rest, ends) := by
  fun_induction Masking.templateText read cs generalizing i done with
  | case1 => rw [templateText, dif_neg (length_le_of_drop h)]
  | case2 read =>
    obtain ⟨hlt, hget, hdrop⟩ := exists_of_drop_eq_utf8 (by decide) h
    have hend := length_le_of_drop hdrop
    obtain ⟨b, hb, -⟩ := exists_utf8EncodeChar_eq_singleton (c := '\\') (by decide)
    have hstop : min (i + 2) bytes.length = i + 1 := by omega
    rw [utf8_cons, hb, templateText_escape [b] hi hlt hget hstop,
      List.length_singleton, templateText, dif_neg hend]
  | case3 read c rest ih =>
    obtain ⟨hlt, hget, hdrop⟩ := exists_of_drop_eq_utf8 (by decide) h
    obtain ⟨a, ha, -⟩ := exists_utf8EncodeChar_eq_singleton (c := '\\') (by decide)
    obtain ⟨b, bs, hb, -, hbs⟩ := exists_utf8EncodeChar_eq c
    rw [utf8_cons, hb] at hdrop
    obtain ⟨hlt', -, hdrop⟩ := exists_of_drop_eq_cons hdrop
    have hbytes : utf8 ('\\' :: c :: rest) = [a, b] ++ (bs ++ utf8 rest) := by
      rw [utf8_cons, utf8_cons, ha, hb]
      rfl
    -- Behind the first byte of the escaped character its other bytes are blanked one by one.
    rw [hbytes, templateText_escape [a, b] hi hlt hget (Nat.min_eq_left hlt'),
      ← List.append_assoc,
      show i + [a, b].length = i + 1 + 1 from rfl,
      templateText_skip (by simp [hi]) hdrop fun d hd => ⟨ne_of_beyond (hbs d hd) (by decide),
        ne_of_beyond (hbs d hd) (by decide), ne_of_beyond (hbs d hd) (by decide)⟩,
      ← List.append_assoc]
    exact ih (by simp [hdone, ha, hb]) (by simp [hi]; omega) (drop_add hdrop)
  | case4 read rest =>
    obtain ⟨hlt, hget, -⟩ := exists_of_drop_eq_utf8 (by decide) h
    have hlength := length_eq_of_drop (by decide) h
    have hend : bytes.length - byteLength rest = i + 1 := by omega
    rw [templateText, dif_pos hlt, hget, if_neg (by decide), if_pos rfl, hdone, List.append_assoc]
    dsimp only
    rw [hend]
    rfl
  | case5 read rest =>
    obtain ⟨hlt, hget, hdrop⟩ := exists_of_drop_eq_utf8 (by decide) h
    have hlength := length_eq_of_drop (by decide) hdrop
    have hbehind := (map_ofUInt8_eq_some_iff (d := '{') hdrop (by decide)).2 rfl
    have hend : bytes.length - byteLength rest = i + 2 := by omega
    rw [templateText, dif_pos hlt, hget, if_neg (by decide), if_neg (by decide),
      if_pos ⟨rfl, hbehind⟩, hdone, List.append_assoc]
    dsimp only
    rw [hend]
    rfl
  | case6 read c rest hone hmany htick hdollar ih =>
    have hescape := ne_backslash hone hmany
    by_cases hc : c = '$'
    · subst hc
      obtain ⟨b, hb, hcode⟩ := exists_utf8EncodeChar_eq_singleton (c := '$') (by decide)
      rw [utf8_cons, hb] at h
      obtain ⟨hlt, hget, hdrop⟩ := exists_of_drop_eq_cons h
      have hbehind : bytes[i + 1]?.map Char.ofUInt8 ≠ some '{' := by
        rw [Ne, map_ofUInt8_eq_some_iff hdrop (by decide)]
        intro hhead
        obtain ⟨tail, rfl⟩ := List.head?_eq_some_iff.1 hhead
        exact hdollar tail rfl rfl
      rw [utf8_cons, hb, List.singleton_append, templateText_blank hi hlt hget
        (by rw [hcode]; decide) (by rw [hcode]; decide) fun hstart => hbehind hstart.2,
        List.append_cons]
      exact ih (by simp [hdone, hb]) (by simp [hi]) hdrop
    · rw [utf8_cons, templateText_skip hi h fun b hb => ⟨ofUInt8_ne hescape (by decide) b hb,
        ofUInt8_ne htick (by decide) b hb, ofUInt8_ne hc (by decide) b hb⟩, ← List.append_assoc]
      exact ih (by simp [hdone]) (by simp [hi]) (drop_add h)

end ModuleWorkers.Masking.Bytes
