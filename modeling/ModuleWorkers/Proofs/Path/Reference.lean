import Mathlib.Data.List.DropRight
import ModuleWorkers.Proofs.Path.Url

/-!
# References

What a client requests for a reference in a script or a document, as browsers read references: the
query and the fragment are left out, dots are resolved, and characters that do not belong into a
path are written by the codes of their bytes (`UrlReference.requestPath?`). Nothing takes these
codes back, so a path in normal form is requested as it is written exactly if it is plain
(`UrlReference.requestPath?_eq_self_iff`): it has no such character, no backslash and no dots in
disguise. The same goes for a plain name beside a path (`UrlReference.requestPath?_beside`).
-/

namespace ModuleWorkers.UrlReference

/-! ## How references are read -/

/-- Whether a character is skipped at the ends of a reference. -/
def isBlank (c : Char) : Bool := c ≤ ' '

/-- Whether a character is skipped everywhere. -/
def isSkipped (c : Char) : Bool := c == '\t' || c == '\n' || c == '\r'

/-- A reference without the characters that are skipped. -/
def cleaned (reference : String) : List Char :=
  ((reference.toList.dropWhile isBlank).rdropWhile isBlank).filter (!isSkipped ·)

/-- Whether a character may stand in the name of a protocol. -/
def isProtocolChar (c : Char) : Bool := c.isAlphanum || c == '+' || c == '-' || c == '.'

/-- The protocol that a reference names, and what comes after it. -/
def protocol? (cs : List Char) : Option (List Char × List Char) :=
  match cs.takeWhile isProtocolChar, cs.dropWhile isProtocolChar with
  | c :: name, ':' :: rest => if c.isAlpha then some ((c :: name).map Char.toLower, rest) else none
  | _, _ => none

/-- Whether a character is written by the codes of its bytes. -/
def isEncoded (c : Char) : Bool :=
  c ≤ ' ' || '~' < c || "\"#<>?^`\x7b\x7d".toList.contains c

def hexDigit (n : Nat) : Char := if n < 10 then .ofNat (48 + n) else .ofNat (55 + n)

def byteCode (b : UInt8) : List Char := ['%', hexDigit (b.toNat / 16), hexDigit (b.toNat % 16)]

/-- A piece of a path as it is sent. -/
def encoded (s : List Char) : List Char :=
  s.flatMap fun c => if isEncoded c then (String.utf8EncodeChar c).flatMap byteCode else [c]

/-- Whether a piece stands for `.`; the point may be written by its code. -/
def isHere (s : List Char) : Bool := [".", "%2e"].contains (String.ofList (s.map Char.toLower))

/-- Whether a piece stands for `..`. -/
def isUp (s : List Char) : Bool :=
  ["..", ".%2e", "%2e.", "%2e%2e"].contains (String.ofList (s.map Char.toLower))

/-- Takes one more piece in, given those before it. Dots at the end leave an empty piece. -/
def takePiece (before : List (List Char)) (s : List Char) (isLast : Bool) : List (List Char) :=
  let last := if isLast then [[]] else []
  if isUp s then before.dropLast ++ last
  else if isHere s then before ++ last
  else before ++ [encoded s]

/-- The pieces of a path behind those before it. -/
def takePieces (before : List (List Char)) : List (List Char) → List (List Char)
  | [] => before
  | s :: ss => takePieces (takePiece before s ss.isEmpty) ss

/-- The characters of a reference up to a query or a fragment; a backslash counts as a slash. -/
def pathChars (cs : List Char) : List Char :=
  (cs.takeWhile fun c => c != '?' && c != '#').map fun c => if c == '\\' then '/' else c

def ofPieces (ss : List (List Char)) : String := .ofList ('/' :: joined ss)

/-- The path that is requested for a reference without a protocol in something at a path, unless
the reference names a host. -/
def resolved? (base : String) (cs : List Char) : Option String :=
  match pathChars cs with
  | [] => some base
  | '/' :: '/' :: _ => none
  | '/' :: rest => some (ofPieces (takePieces [] (segments rest)))
  | rest => some (ofPieces (takePieces (segments base.toList).tail.dropLast (segments rest)))

/-- The path that a client requests for a reference in something that it got over HTTP at a path,
unless the reference names a host or another protocol. -/
def requestPath? (base reference : String) : Option String :=
  match protocol? (cleaned reference) with
  | none => resolved? base (cleaned reference)
  | some (name, rest) => if name = "http".toList then resolved? base rest else none

/-- Whether all pieces of a path are sent as they are written and stand for themselves. -/
def isPlain (path : String) : Bool :=
  path.toList.all (fun c => !isEncoded c && c != '\\') &&
    (segments path.toList).all fun s => !isHere s && !isUp s

example : requestPath? "/" "/my worker.js?#" = some "/my%20worker.js" := by decide +kernel

example : requestPath? "/app/w.js" " ../\u00fc/%2E/a.js" = some "/%C3%BC/a.js" := by decide +kernel

/-! ## Characters -/

theorem isPlain_iff {path : String} : isPlain path ↔
    (∀ c ∈ path.toList, isEncoded c = false ∧ c ≠ '\\') ∧
      ∀ s ∈ segments path.toList, isHere s = false ∧ isUp s = false := by
  simp [isPlain]

theorem ne_of_isEncoded_eq_false {c : Char} (h : isEncoded c = false) :
    isBlank c = false ∧ isSkipped c = false ∧ c ≠ '?' ∧ c ≠ '#' := by
  have hblank : isBlank c = false := by
    unfold isEncoded at h
    simp only [Bool.or_eq_false_iff] at h
    exact h.1.1
  refine ⟨hblank, ?_, ?_, ?_⟩
  · unfold isSkipped
    simp only [Bool.or_eq_false_iff, beq_eq_false_iff_ne]
    refine ⟨⟨?_, ?_⟩, ?_⟩ <;>
      · rintro rfl
        revert hblank
        decide
  all_goals
    rintro rfl
    revert h
    decide

theorem encoded_of_forall {s : List Char} (h : ∀ c ∈ s, isEncoded c = false) : encoded s = s := by
  unfold encoded
  calc s.flatMap (fun c => if isEncoded c then _ else [c])
      = s.flatMap fun c => [c] := List.flatMap_congr fun c hc => by rw [h c hc]; rfl
    _ = s := List.flatMap_singleton' s

theorem isPlainChar_byteCode {b : UInt8} {c : Char} (h : c ∈ byteCode b) :
    isEncoded c = false ∧ c ≠ '\\' ∧ c ≠ '/' := by
  have hdigit : ∀ n < 16,
      isEncoded (hexDigit n) = false ∧ hexDigit n ≠ '\\' ∧ hexDigit n ≠ '/' := by
    decide
  have hb : b.toNat < 256 := b.toNat_lt
  simp only [byteCode, List.mem_cons, List.not_mem_nil, or_false] at h
  rcases h with rfl | rfl | rfl
  · decide
  · exact hdigit _ (by omega)
  · exact hdigit _ (by omega)

/-- What is sent has nothing left to be encoded. -/
theorem mem_encoded {s : List Char} {c : Char} (h : c ∈ encoded s) :
    isEncoded c = false ∧ (c ∈ s ∨ c ≠ '\\' ∧ c ≠ '/') := by
  obtain ⟨d, hd, hc⟩ := List.mem_flatMap.1 h
  split at hc
  · obtain ⟨b, -, hb⟩ := List.mem_flatMap.1 hc
    exact ⟨(isPlainChar_byteCode hb).1, .inr (isPlainChar_byteCode hb).2⟩
  · rename_i hplain
    obtain rfl := List.mem_singleton.1 hc
    exact ⟨by simpa using hplain, .inl hd⟩

theorem cleaned_of_forall {reference : String} (h : ∀ c ∈ reference.toList, isEncoded c = false) :
    cleaned reference = reference.toList := by
  have hblank : ∀ c ∈ reference.toList, isBlank c = false := fun c hc =>
    (ne_of_isEncoded_eq_false (h c hc)).1
  have hdrop : reference.toList.dropWhile isBlank = reference.toList := by
    rw [List.dropWhile_eq_self_iff]
    intro hlength
    simp [hblank _ (List.getElem_mem hlength)]
  have hrdrop : reference.toList.rdropWhile isBlank = reference.toList := by
    rw [List.rdropWhile_eq_self_iff]
    intro hne
    simp [hblank _ (List.getLast_mem hne)]
  rw [cleaned, hdrop, hrdrop, List.filter_eq_self]
  intro c hc
  simp [(ne_of_isEncoded_eq_false (h c hc)).2.1]

theorem pathChars_of_forall {cs : List Char} (h : ∀ c ∈ cs, isEncoded c = false ∧ c ≠ '\\') :
    pathChars cs = cs := by
  have htake : (cs.takeWhile fun c => c != '?' && c != '#') = cs := by
    rw [List.takeWhile_eq_self_iff]
    intro c hc
    obtain ⟨-, -, hquery, hfragment⟩ := ne_of_isEncoded_eq_false (h c hc).1
    simp [hquery, hfragment]
  rw [pathChars, htake]
  calc cs.map (fun c => if c == '\\' then '/' else c)
      = cs.map id := List.map_congr_left fun c hc => by simp [(h c hc).2]
    _ = cs := List.map_id cs

theorem backslash_not_mem_pathChars (cs : List Char) : '\\' ∉ pathChars cs := by
  intro hmem
  obtain ⟨c, -, hc⟩ := List.mem_map.1 hmem
  split at hc
  · revert hc
    decide
  · rename_i hne
    exact hne (beq_iff_eq.2 hc)

theorem protocol?_slash (cs : List Char) : protocol? ('/' :: cs) = none := by
  unfold protocol?
  rw [List.takeWhile_cons_of_neg (by decide)]

theorem resolved?_of_ne {base : String} {cs rest : List Char} {c : Char} (hc : c ≠ '/')
    (h : pathChars cs = c :: rest) : resolved? base cs =
      some (ofPieces (takePieces (segments base.toList).tail.dropLast (segments (c :: rest)))) := by
  unfold resolved?
  rw [h]
  split
  · rename_i hnil
    cases hnil
  · rename_i heq
    exact absurd (List.cons.inj heq).1 hc
  · rename_i heq
    exact absurd (List.cons.inj heq).1 hc
  · rfl

/-! ## Pieces -/

theorem takePieces_of_forall {ss : List (List Char)}
    (h : ∀ s ∈ ss, (isHere s = false ∧ isUp s = false) ∧ ∀ c ∈ s, isEncoded c = false)
    (before : List (List Char)) : takePieces before ss = before ++ ss := by
  induction ss generalizing before with
  | nil => exact (List.append_nil before).symm
  | cons s ss ih =>
    obtain ⟨⟨hhere, hup⟩, hchars⟩ := h s List.mem_cons_self
    have hstep : takePiece before s ss.isEmpty = before ++ [s] := by
      simp [takePiece, hhere, hup, encoded_of_forall hchars]
    rw [takePieces, hstep, ih fun t ht => h t (List.mem_cons_of_mem s ht), List.append_assoc,
      List.singleton_append]

/-- Whether a piece was made of one that stands for itself. -/
def IsTaken (s t : List Char) : Prop := isHere s = false ∧ isUp s = false ∧ t = encoded s

theorem mem_takePiece {before : List (List Char)} {s t : List Char} {isLast : Bool}
    (h : t ∈ takePiece before s isLast) : t ∈ before ∨ t = [] ∨ IsTaken s t := by
  have hlast : t ∈ (if isLast then [[]] else [] : List (List Char)) → t = [] := by
    intro ht
    split at ht
    · exact List.mem_singleton.1 ht
    · cases ht
  simp only [takePiece] at h
  by_cases hup : isUp s
  · rw [if_pos hup] at h
    exact (List.mem_append.1 h).imp (List.dropLast_subset _ ·) (.inl <| hlast ·)
  · rw [if_neg hup] at h
    by_cases hhere : isHere s
    · rw [if_pos hhere] at h
      exact (List.mem_append.1 h).imp_right (.inl <| hlast ·)
    · rw [if_neg hhere] at h
      refine (List.mem_append.1 h).imp_right fun ht => .inr ⟨?_, ?_, List.mem_singleton.1 ht⟩
      · simpa using hhere
      · simpa using hup

/-- A piece that is left was there before, is empty, or stands for itself. -/
theorem mem_takePieces {before ss : List (List Char)} {t : List Char}
    (h : t ∈ takePieces before ss) : t ∈ before ∨ t = [] ∨ ∃ s ∈ ss, IsTaken s t := by
  induction ss generalizing before with
  | nil => exact .inl h
  | cons s ss ih =>
    rcases ih h with ht | ht | ⟨s', hs', htaken⟩
    · rcases mem_takePiece ht with ht | ht | htaken
      · exact .inl ht
      · exact .inr (.inl ht)
      · exact .inr (.inr ⟨s, List.mem_cons_self, htaken⟩)
    · exact .inr (.inl ht)
    · exact .inr (.inr ⟨s', List.mem_cons_of_mem s hs', htaken⟩)

theorem slash_not_mem_takePieces {cs s : List Char} (h : s ∈ takePieces [] (segments cs)) :
    '/' ∉ s := by
  intro hslash
  rcases mem_takePieces h with h | rfl | ⟨t, ht, -, -, rfl⟩
  · cases h
  · cases hslash
  · rcases (mem_encoded hslash).2 with hmem | ⟨-, hne⟩
    · exact slash_not_mem_of_mem_segments ht hmem
    · exact hne rfl

/-! ## Paths in normal form -/

section

variable {reference : String} {cs : List Char}

/-- A reference that starts with a slash does so too without what is skipped. -/
theorem exists_cleaned_eq (h : reference.toList = '/' :: cs) :
    ∃ rest, cleaned reference = '/' :: rest := by
  have hdrop : reference.toList.dropWhile isBlank = '/' :: cs := by
    rw [h, List.dropWhile_cons_of_neg (by decide)]
  have hne : ('/' :: cs).rdropWhile isBlank ≠ [] := by
    intro hnil
    have := List.rdropWhile_eq_nil_iff.1 hnil '/' List.mem_cons_self
    revert this
    decide
  obtain ⟨c, rest, hrest⟩ := List.exists_cons_of_ne_nil hne
  have hc : c = '/' := by
    have hprefix := List.rdropWhile_prefix isBlank (l := '/' :: cs)
    rw [hrest] at hprefix
    exact (List.cons_prefix_cons.1 hprefix).1
  subst hc
  refine ⟨rest.filter (!isSkipped ·), ?_⟩
  rw [cleaned, hdrop, hrest, List.filter_cons_of_pos (by decide)]

theorem requestPath?_of_cleaned_eq (h : cleaned reference = '/' :: cs) (base : String) :
    requestPath? base reference =
      if (pathChars cs).head? = some '/' then none
      else some (ofPieces (takePieces [] (segments (pathChars cs)))) := by
  have hchars : pathChars ('/' :: cs) = '/' :: pathChars cs := rfl
  unfold requestPath?
  rw [h, protocol?_slash]
  simp only [resolved?, hchars]
  cases pathChars cs with
  | nil => rfl
  | cons c cs =>
    by_cases hc : c = '/'
    · subst hc
      rfl
    · rw [List.head?_cons, if_neg (by simpa using hc)]
      split <;> simp_all

/-- What is requested for a reference that starts with a slash has only characters that stay. -/
theorem mem_requestPath? (h : reference.toList = '/' :: cs) {base path : String}
    (hpath : requestPath? base reference = some path) {c : Char} (hc : c ∈ path.toList) :
    isEncoded c = false ∧ c ≠ '\\' := by
  obtain ⟨rest, hrest⟩ := exists_cleaned_eq h
  have hslash : isEncoded '/' = false ∧ '/' ≠ '\\' := by decide
  rw [requestPath?_of_cleaned_eq hrest] at hpath
  split at hpath
  · cases hpath
  rw [← Option.some.inj hpath, ofPieces, String.toList_ofList] at hc
  rcases List.mem_cons.1 hc with rfl | hc
  · exact hslash
  rcases mem_joined hc with rfl | ⟨t, ht, hc⟩
  · exact hslash
  rcases mem_takePieces ht with ht | rfl | ⟨s, hs, -, -, rfl⟩
  · cases ht
  · cases hc
  refine ⟨(mem_encoded hc).1, ?_⟩
  rcases (mem_encoded hc).2 with hmem | ⟨hne, -⟩
  · rintro rfl
    exact backslash_not_mem_pathChars rest (mem_of_mem_segments hs hmem).1
  · exact hne

/-- What is requested for a path of characters that stay. -/
theorem requestPath?_of_forall (h : reference.toList = '/' :: cs)
    (hchars : ∀ c ∈ reference.toList, isEncoded c = false ∧ c ≠ '\\') (base : String) :
    requestPath? base reference =
      if cs.head? = some '/' then none else some (ofPieces (takePieces [] (segments cs))) := by
  have hcleaned := cleaned_of_forall fun c hc => (hchars c hc).1
  rw [requestPath?_of_cleaned_eq (hcleaned.trans h),
    pathChars_of_forall fun c hc => hchars c (h ▸ List.mem_cons_of_mem _ hc)]

theorem isPlain_of_requestPath?_eq_self (h : reference.toList = '/' :: cs) {base : String}
    (heq : requestPath? base reference = some reference) : isPlain reference := by
  have hchars : ∀ c ∈ reference.toList, isEncoded c = false ∧ c ≠ '\\' := fun c hc =>
    mem_requestPath? h heq hc
  have hempty : isHere [] = false ∧ isUp [] = false := by decide
  rw [requestPath?_of_forall h hchars] at heq
  split at heq
  · cases heq
  have hcs : cs = joined (takePieces [] (segments cs)) := by
    have := congrArg String.toList (Option.some.inj heq)
    rw [h, ofPieces, String.toList_ofList] at this
    exact (List.cons.inj this).2.symm
  refine isPlain_iff.2 ⟨hchars, fun t ht => ?_⟩
  rw [h, segments_slash, List.mem_cons] at ht
  rcases ht with rfl | ht
  · exact hempty
  by_cases hnil : takePieces [] (segments cs) = []
  · rw [hnil] at hcs
    subst hcs
    exact List.mem_singleton.1 ht ▸ hempty
  · have hsegments := segments_joined hnil fun s hs => slash_not_mem_takePieces hs
    rw [← hcs] at hsegments
    rw [hsegments] at ht
    rcases mem_takePieces ht with ht | rfl | ⟨s, hs, hhere, hup, rfl⟩
    · cases ht
    · exact hempty
    · rw [encoded_of_forall fun c hc =>
        (hchars c (h ▸ List.mem_cons_of_mem _ (mem_of_mem_segments hs hc).1)).1]
      exact ⟨hhere, hup⟩

theorem requestPath?_of_isPlain (h : reference.toList = '/' :: cs) (hhost : cs.head? ≠ some '/')
    (hplain : isPlain reference) (base : String) :
    requestPath? base reference = some reference := by
  obtain ⟨hchars, hpieces⟩ := isPlain_iff.1 hplain
  have htake : takePieces [] (segments cs) = segments cs := by
    refine takePieces_of_forall (fun s hs => ⟨hpieces s ?_, fun c hc => ?_⟩) []
    · rw [h, segments_slash]
      exact List.mem_cons_of_mem _ hs
    · exact (hchars c (h ▸ List.mem_cons_of_mem _ (mem_of_mem_segments hs hc).1)).1
  rw [requestPath?_of_forall h hchars, if_neg hhost, htake, Option.some.injEq, ← String.toList_inj,
    ofPieces, String.toList_ofList, h, segments_eq_splitOn, joined, List.intercalate_splitOn]

end

open UrlPath (normalize dirname)

/-- A path in normal form is requested as it is written exactly if it is plain. -/
theorem requestPath?_eq_self_iff (base path : String) :
    requestPath? base (normalize path) = some (normalize path) ↔ isPlain (normalize path) := by
  have hsteps : ∀ s ∈ collapse (segments path.toList), IsStep s := fun _ =>
    isStep_of_mem_collapse_segments
  exact ⟨isPlain_of_requestPath?_eq_self (UrlPath.toList_normalize path),
    fun hplain => requestPath?_of_isPlain (UrlPath.toList_normalize path) (head?_joined_ne hsteps)
      hplain base⟩

/-- A plain name beside a path in normal form is requested as the path that the name means there. -/
theorem requestPath?_beside (path : String) {name : String} (hplain : isPlain name)
    (hprotocol : protocol? name.toList = none) (hstep : IsStep name.toList) :
    requestPath? (normalize path) name =
      some (normalize (dirname (normalize path) ++ "/" ++ name)) := by
  have hmade := UrlPath.isMadeOf_normalize path
  obtain ⟨hds, hdirname⟩ := UrlPath.isMadeOf_dirname_normalize path
  obtain ⟨hchars, hpieces⟩ := isPlain_iff.1 hplain
  obtain ⟨c, cs, hcs⟩ := List.exists_cons_of_ne_nil hstep.1.1
  have hc : c ≠ '/' := by
    rintro rfl
    exact hstep.2 (hcs ▸ List.mem_cons_self)
  have hsegments : segments name.toList = [name.toList] := segments_of_slash_not_mem hstep.2
  have hbefore : (segments (normalize path).toList).tail.dropLast =
      (UrlPath.names path).dropLast := by
    rw [hmade.toList_eq, segments_slash, List.tail_cons,
      dropLast_segments_joined fun s hs => (hmade.isStep s hs).2]
  have htake : takePieces (UrlPath.names path).dropLast [name.toList] =
      (UrlPath.names path).dropLast ++ [name.toList] := by
    refine takePieces_of_forall (fun s hs => ?_) _
    obtain rfl := List.mem_singleton.1 hs
    exact ⟨hpieces _ (hsegments ▸ List.mem_singleton_self _), fun c hc => (hchars c hc).1⟩
  have hresolved : resolved? (normalize path) name.toList =
      some (ofPieces (takePieces (UrlPath.names path).dropLast [name.toList])) := by
    rw [resolved?_of_ne hc ((pathChars_of_forall hchars).trans hcs), hbefore, ← hcs, hsegments]
  rw [requestPath?, cleaned_of_forall fun c hc => (hchars c hc).1, hprotocol]
  simp only
  rw [hresolved, htake, Option.some.injEq, ← String.toList_inj, ofPieces, String.toList_ofList,
    UrlPath.toList_normalize_append hds hdirname hstep]

end ModuleWorkers.UrlReference
