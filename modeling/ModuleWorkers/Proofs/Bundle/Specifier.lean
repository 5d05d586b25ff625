import ModuleWorkers.Bundle.Specifier
import ModuleWorkers.Proofs.Path.Pieces
import ModuleWorkers.Proofs.Text.Search

/-!
# What specifiers name

The text of an import is told apart by its pieces between slashes (`Specifier.ofText_eq_byPieces`):
the first piece says what it is, and a package has one piece or, in a scope, two. The name of a
package has `..` in it only behind the name of a scope (`Specifier.of_package`).
-/

namespace ModuleWorkers

open Text

theorem joined_segments (cs : List Char) : joined (segments cs) = cs := by
  rw [segments_eq_splitOn, joined, List.intercalate_splitOn]

/-- A text is cut at its first slash, if it has one, behind its first piece. -/
theorem segments_of_cut? (cs : List Char) :
    match cut? ['/'] cs with
    | none => segments cs = [cs]
    | some (first, rest) => segments cs = first :: segments rest ∧ cs = first ++ '/' :: rest := by
  cases hcut : cut? ['/'] cs with
  | none => exact segments_of_slash_not_mem (not_mem_of_cut?_eq_none hcut)
  | some parts =>
    obtain ⟨first, rest⟩ := parts
    have hcs : cs = first ++ '/' :: rest := eq_of_cut? hcut
    refine ⟨?_, hcs⟩
    rw [hcs, segments_append_slash, segments_of_slash_not_mem (not_mem_of_cut? hcut)]
    rfl

/-- A text starts with a piece if it is the piece or goes on with a slash behind it. -/
theorem head?_segments_iff {s cs : List Char} (hs : '/' ∉ s) :
    (segments cs).head? = some s ↔ s ++ ['/'] <+: cs ∨ cs = s := by
  constructor
  · intro h
    have hcut := segments_of_cut? cs
    split at hcut
    · rw [hcut] at h
      exact .inr (Option.some.inj h)
    · rename_i first rest _
      obtain ⟨hsegments, rfl⟩ := hcut
      rw [hsegments] at h
      cases h
      exact .inl ⟨rest, by simp⟩
  · rintro (⟨rest, rfl⟩ | rfl)
    · rw [List.append_assoc, List.singleton_append, segments_append_slash,
        segments_of_slash_not_mem hs]
      rfl
    · rw [segments_of_slash_not_mem hs]
      rfl

/-- A text is its first piece, alone or in front of a slash and other pieces. -/
theorem cases_of_segments_eq {cs first : List Char} {others : List (List Char)}
    (h : segments cs = first :: others) : '/' ∉ first ∧
      (cs = first ∧ others = [] ∨ ∃ rest, cs = first ++ '/' :: rest ∧ others ≠ []) := by
  have hcut := segments_of_cut? cs
  cases hfirst : cut? ['/'] cs with
  | none =>
    rw [hfirst] at hcut
    cases hcut.symm.trans h
    exact ⟨not_mem_of_cut?_eq_none hfirst, .inl ⟨rfl, rfl⟩⟩
  | some parts =>
    rw [hfirst] at hcut
    cases hcut.1.symm.trans h
    exact ⟨not_mem_of_cut? hfirst, .inr ⟨_, hcut.2, segments_ne_nil _⟩⟩

namespace Specifier

/-- How many pieces at the start of a text name a package. -/
def packagePieces (cs : List Char) : Nat := if cs.head? = some '@' then 2 else 1

/-- Tells what a text names by its pieces between slashes: a relative path if the first one is `.`
or `..`, an absolute one if the first one is empty and others follow, an address if the first one
has a colon, and else a package by the first piece, or the first two if the first one is the name of
a scope, and by the others a path inside it. -/
def byPieces (text : String) : Specifier :=
  match segments text.toList with
  | [] => .package text none
  | first :: others =>
    if first = ['.'] ∨ first = ['.', '.'] then .relative text
    else if first = [] ∧ others ≠ [] then .absolute text
    else if ':' ∈ first then .url text
    else
      let subpath := joined ((first :: others).drop (packagePieces text.toList))
      .package (.ofList (joined ((first :: others).take (packagePieces text.toList))))
        (if subpath = [] then none else some (.ofList subpath))

theorem hasScheme_append {first rest : List Char} (hfirst : '/' ∉ first)
    (hrest : ∀ c ∈ rest.head?, c = '/') : hasScheme (first ++ rest) = true ↔ ':' ∈ first := by
  induction first with
  | nil =>
    cases rest with
    | nil => decide
    | cons c rest =>
      obtain rfl := hrest c rfl
      simp [hasScheme]
  | cons c first ih =>
    rw [List.mem_cons, not_or] at hfirst
    rw [List.mem_cons]
    by_cases hc : c = ':'
    · subst hc
      simp [hasScheme]
    · have hskip : hasScheme (c :: first ++ rest) = hasScheme (first ++ rest) := by
        unfold hasScheme
        rw [List.cons_append, List.dropWhile_cons_of_pos]
        simpa [hc] using Ne.symm hfirst.1
      rw [hskip, ih hfirst.2]
      simp [Ne.symm hc]

theorem splitPackage_eq (cs : List Char) : splitPackage cs =
    (joined ((segments cs).take (packagePieces cs)),
      joined ((segments cs).drop (packagePieces cs))) := by
  have hone : ∀ s, joined [s] = s := fun s => by simp [joined]
  have hcut := segments_of_cut? cs
  unfold splitPackage packagePieces
  dsimp only
  cases hfirst : cut? ['/'] cs with
  | none =>
    rw [hfirst] at hcut
    dsimp only
    rw [hcut]
    by_cases hscope : cs.head? = some '@'
    · rw [if_pos hscope]
      exact Prod.ext (hone cs).symm rfl
    · rw [if_neg hscope]
      exact Prod.ext (hone cs).symm rfl
  | some parts =>
    obtain ⟨first, rest⟩ := parts
    rw [hfirst] at hcut
    obtain ⟨hsegments, hcs⟩ := hcut
    dsimp only
    rw [hsegments]
    by_cases hscope : cs.head? = some '@'
    · rw [if_pos (beq_iff_eq.2 hscope), if_pos hscope]
      have htwo : ∀ s, joined [first, s] = first ++ '/' :: s := fun s => by simp [joined]
      have hrest := segments_of_cut? rest
      cases hname : cut? ['/'] rest with
      | none =>
        rw [hname] at hrest
        rw [hrest]
        exact Prod.ext (hcs.trans (htwo rest).symm) rfl
      | some parts =>
        obtain ⟨name, subpath⟩ := parts
        rw [hname] at hrest
        rw [hrest.1]
        exact Prod.ext (htwo name).symm (joined_segments subpath).symm
    · rw [if_neg (by simpa using hscope), if_neg hscope]
      exact Prod.ext (hone first).symm (joined_segments rest).symm

theorem isRelative_iff (text : String) :
    (text.startsWith "./" || text.startsWith "../" || text == "." || text == "..") = true ↔
      (segments text.toList).head? = some ['.'] ∨
        (segments text.toList).head? = some ['.', '.'] := by
  have hhere : text = "." ↔ text.toList = ['.'] := by
    rw [← String.toList_inj]
    rfl
  have hup : text = ".." ↔ text.toList = ['.', '.'] := by
    rw [← String.toList_inj]
    rfl
  rw [head?_segments_iff (by decide), head?_segments_iff (by decide)]
  simp only [Bool.or_eq_true, String.startsWith_string_iff, beq_iff_eq, hhere, hup,
    String.reduceToList, List.cons_append, List.nil_append]
  tauto

section

variable {text : String} {first : List Char} {others : List (List Char)}
  (h : segments text.toList = first :: others)

include h

theorem startsWith_slash_iff : text.startsWith "/" = true ↔ first = [] ∧ others ≠ [] := by
  rw [String.startsWith_string_iff]
  obtain ⟨hfirst, ⟨htext, rfl⟩ | ⟨rest, htext, hne⟩⟩ := cases_of_segments_eq h
  · rw [htext]
    refine ⟨fun hslash => absurd ?_ hfirst, fun hnil => absurd rfl hnil.2⟩
    exact hslash.subset List.mem_cons_self
  · rw [htext, and_iff_left hne]
    cases first with
    | nil => exact ⟨fun _ => rfl, fun _ => List.prefix_append ['/'] rest⟩
    | cons c first =>
      refine ⟨fun hslash => ?_, nofun⟩
      obtain rfl := (List.cons_prefix_cons.1 hslash).1
      exact absurd List.mem_cons_self hfirst

theorem hasScheme_iff : hasScheme text.toList = true ↔ ':' ∈ first := by
  obtain ⟨hfirst, ⟨htext, -⟩ | ⟨rest, htext, -⟩⟩ := cases_of_segments_eq h
  · have hwhole : hasScheme (first ++ []) = true ↔ ':' ∈ first := hasScheme_append hfirst nofun
    rw [htext]
    rwa [List.append_nil] at hwhole
  · rw [htext]
    exact hasScheme_append hfirst fun c hc => (Option.some.inj hc).symm

end

/-- What a text names is told by its pieces. -/
theorem ofText_eq_byPieces (text : String) : ofText text = byPieces text := by
  obtain ⟨first, others, hpieces⟩ := List.exists_cons_of_ne_nil (segments_ne_nil text.toList)
  have hrelative := isRelative_iff text
  rw [hpieces, List.head?_cons, Option.some.injEq, Option.some.injEq] at hrelative
  have habsolute := startsWith_slash_iff hpieces
  have hscheme := hasScheme_iff hpieces
  unfold ofText byPieces
  rw [splitPackage_eq, hpieces]
  dsimp only
  by_cases hpath : first = ['.'] ∨ first = ['.', '.']
  · rw [if_pos (hrelative.2 hpath), if_pos hpath]
  · rw [if_neg (mt hrelative.1 hpath), if_neg hpath]
    by_cases hroot : first = [] ∧ others ≠ []
    · rw [if_pos (habsolute.2 hroot), if_pos hroot]
    · rw [if_neg (mt habsolute.1 hroot), if_neg hroot]
      by_cases hcolon : ':' ∈ first
      · rw [if_pos (hscheme.2 hcolon), if_pos hcolon]
      · rw [if_neg (mt hscheme.1 hcolon), if_neg hcolon]
        simp only [List.isEmpty_iff]

/-! ## Names of packages -/

section

variable {text name : String} {subpath : Option String}

/-- What names a package starts neither with a slash nor with a step up. -/
theorem not_prefix_of_package (h : ofText text = .package name subpath) :
    ¬ ['/'] <+: text.toList ∧ text.toList ≠ ['.', '.'] ∧ ¬ ['.', '.', '/'] <+: text.toList ∧
      name.toList = (splitPackage text.toList).1 := by
  unfold ofText at h
  split at h
  · cases h
  · rename_i hrelative
    split at h
    · cases h
    · rename_i hslash
      split at h
      · cases h
      · dsimp only at h
        simp only [Bool.or_eq_true, not_or, String.startsWith_string_iff, beq_iff_eq] at hrelative
        rw [String.startsWith_string_iff] at hslash
        injection h with hname
        refine ⟨hslash, fun hup => hrelative.2 (String.toList_injective hup), hrelative.1.1.2, ?_⟩
        rw [← hname, String.toList_ofList]

/-- A package is named by what comes before the first slash, or before the second one if it starts
with the name of a scope. -/
theorem splitPackage_cases (cs : List Char) :
    ('/' ∉ cs ∧ (splitPackage cs).1 = cs) ∨
    (∃ name subpath, '/' ∉ name ∧ cs = name ++ '/' :: subpath ∧ (splitPackage cs).1 = name) ∨
    ∃ scope name, scope.head? = some '@' ∧ '/' ∉ scope ∧ '/' ∉ name ∧
      (splitPackage cs).1 = scope ++ '/' :: name ∧ scope ++ '/' :: name <+: cs := by
  unfold splitPackage
  dsimp only
  cases hcut : cut? ['/'] cs with
  | none => exact .inl ⟨not_mem_of_cut?_eq_none hcut, rfl⟩
  | some parts =>
    obtain ⟨front, rest⟩ := parts
    have hfront := not_mem_of_cut? hcut
    have hcs : cs = front ++ '/' :: rest := eq_of_cut? hcut
    dsimp only
    split
    · rename_i hscope
      have hhead : front.head? = some '@' := by
        cases front with
        | nil =>
          rw [hcs] at hscope
          cases hscope
        | cons c front =>
          rw [hcs] at hscope
          simpa using hscope
      right; right
      cases hcut' : cut? ['/'] rest with
      | none =>
        exact ⟨front, rest, hhead, hfront, not_mem_of_cut?_eq_none hcut', hcs, hcs ▸ List.prefix_rfl⟩
      | some parts' =>
        obtain ⟨name, subpath⟩ := parts'
        have hrest : rest = name ++ '/' :: subpath := eq_of_cut? hcut'
        refine ⟨front, name, hhead, hfront, not_mem_of_cut? hcut', rfl, '/' :: subpath, ?_⟩
        rw [hcs, hrest, List.append_assoc, List.cons_append]
    · exact .inr (.inl ⟨front, rest, hfront, hcs, rfl⟩)

theorem splitPackage_isPrefix (cs : List Char) : (splitPackage cs).1 <+: cs := by
  rcases splitPackage_cases cs with
    ⟨-, heq⟩ | ⟨front, rest, -, hcs, heq⟩ | ⟨scope, front, -, -, -, heq, hfront⟩
  · rw [heq]
  · rw [heq]
    exact hcs ▸ List.prefix_append front _
  · rw [heq]
    exact hfront

theorem isName_of_head? {scope : List Char} (h : scope.head? = some '@') : IsName scope := by
  refine ⟨?_, ?_, ?_⟩
  all_goals
    rintro rfl
    simp at h

/-- The name of a package has `..` in it only behind the name of a scope. -/
theorem of_package (h : ofText text = .package name subpath) :
    (Path.mk name).isAbsolute = false ∧ (['.', '.'] ∈ segments name.toList →
      ∃ s ∈ segments text.toList, IsName s ∧ segments name.toList = [s, ['.', '.']]) := by
  obtain ⟨hslash, hup, hclimb, hname⟩ := not_prefix_of_package h
  refine ⟨?_, fun hmem => ?_⟩
  · rw [Path.isAbsolute, Bool.eq_false_iff]
    intro habsolute
    obtain ⟨cs, hcs⟩ := Path.exists_chars_eq_of_isAbsolute habsolute
    have hstart : ['/'] <+: name.toList := ⟨cs, hcs.symm⟩
    exact hslash (hstart.trans (hname ▸ splitPackage_isPrefix text.toList))
  · rw [hname] at hmem ⊢
    rcases splitPackage_cases text.toList with
      ⟨hnone, heq⟩ | ⟨front, rest, hfront, htext, heq⟩ |
      ⟨scope, front, hscope, hslash', hfront, heq, rest, htext⟩
    · rw [heq, segments_of_slash_not_mem hnone, List.mem_singleton] at hmem
      exact absurd hmem.symm hup
    · rw [heq, segments_of_slash_not_mem hfront, List.mem_singleton] at hmem
      rw [← hmem] at htext
      exact absurd ⟨rest, htext.symm⟩ hclimb
    · have hname := isName_of_head? hscope
      have hparts : segments (scope ++ '/' :: front) = [scope, front] := by
        rw [segments_append_slash, segments_of_slash_not_mem hslash',
          segments_of_slash_not_mem hfront]
        rfl
      rw [heq, hparts] at hmem ⊢
      obtain rfl : front = ['.', '.'] := by
        rcases List.mem_cons.1 hmem with hmem | hmem
        · exact absurd hmem.symm hname.2.2
        · exact (List.mem_singleton.1 hmem).symm
      refine ⟨scope, ?_, hname, rfl⟩
      rw [← htext, List.append_assoc, List.cons_append, segments_append_slash,
        segments_of_slash_not_mem hslash']
      exact List.mem_append_left _ (List.mem_singleton_self scope)

/-- A package is named by the name of a scope and `..`, so that its directory is the one above the
scope. -/
def GoesUpFrom (text : String) (s : List Char) : Prop :=
  ∃ name, ofText text = .package name none ∧ IsName s ∧ segments name.toList = [s, ['.', '.']]

theorem GoesUpFrom.mem_segments {s : List Char} (h : GoesUpFrom text s) :
    s ∈ segments text.toList := by
  obtain ⟨name, hpackage, -, hname⟩ := h
  obtain ⟨t, ht, -, hparts⟩ := (of_package hpackage).2 (hname ▸ List.mem_cons_of_mem _
    (List.mem_singleton_self _))
  obtain ⟨rfl, -⟩ := List.cons.inj (hname.symm.trans hparts)
  exact ht

end

end Specifier

end ModuleWorkers
