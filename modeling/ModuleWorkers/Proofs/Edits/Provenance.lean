import Mathlib.Data.List.DropRight
import ModuleWorkers.Edits.Provenance
import ModuleWorkers.Proofs.Edits.Kept
import ModuleWorkers.Proofs.SourceMap.Segments

/-!
# Edited texts, their offsets and their maps agree

`TextPosition.behind` is the line and column of the end of a text, and walking through a text leads
there (`TextPosition.pastAll_behind`). The segments of an edited text come in their order, no two at
one place (`EditBuffer.pairwise_pieceMappings`), and each character that was kept has one
(`EditBuffer.link_mem_pieceMappings`). `EditBuffer.edits_agree` puts together what is said of a
character: where it is in the edited text, where its offset leads, and what the map says of its
place.
-/

namespace ModuleWorkers

open Text

/-! ## Positions -/

theorem Text.units16_pos (c : Char) : 0 < units16 c := by
  unfold units16
  split <;> omega

theorem Text.unitLength_concat (cs : List Char) (c : Char) :
    unitLength (cs ++ [c]) = unitLength cs + units16 c := by
  rw [unitLength, List.foldl_append]
  rfl

namespace TextPosition

/-- The position behind a text: how many line feeds it has, and the length of what follows the last
one. -/
def behind (cs : List Char) : TextPosition :=
  ⟨cs.count '\n', unitLength (cs.rtakeWhile (· != '\n'))⟩

theorem past_behind (cs : List Char) (c : Char) : (behind cs).past c = behind (cs ++ [c]) := by
  unfold behind past
  by_cases hc : c = '\n'
  · subst hc
    rw [if_pos rfl, List.count_append, List.rtakeWhile_concat_neg _ _ _ (by simp)]
    rfl
  · rw [if_neg hc, List.count_append, List.count_singleton, List.rtakeWhile_concat_pos _ _ _
      (by simpa using hc), unitLength_concat]
    simp [hc]

theorem pastAll_behind (cs ds : List Char) : (behind cs).pastAll ds = behind (cs ++ ds) := by
  induction ds generalizing cs with
  | nil => simp [pastAll]
  | cons d ds ih =>
    have := ih (cs ++ [d])
    rw [← past_behind] at this
    simpa [pastAll] using this

/-- Whether a position comes in front of another one. -/
def Before (p q : TextPosition) : Prop := p.line < q.line ∨ p.line = q.line ∧ p.column < q.column

theorem before_past (p : TextPosition) (c : Char) : p.Before (p.past c) := by
  have := units16_pos c
  unfold past
  split
  · exact .inl (Nat.lt_succ_self p.line)
  · exact .inr ⟨rfl, Nat.lt_add_of_pos_right this⟩

theorem not_pastAll_before (p : TextPosition) (cs : List Char) : ¬ (p.pastAll cs).Before p := by
  induction cs generalizing p with
  | nil =>
    change ¬ p.Before p
    unfold Before
    omega
  | cons c cs ih =>
    have hc := before_past p c
    have hcs := ih (p.past c)
    change ¬ ((p.past c).pastAll cs).Before p
    unfold Before at hc hcs ⊢
    omega

theorem before_pastAll (p : TextPosition) {cs : List Char} (h : cs ≠ []) :
    p.Before (p.pastAll cs) := by
  cases cs with
  | nil => exact absurd rfl h
  | cons c cs =>
    have hc := before_past p c
    have hcs := not_pastAll_before (p.past c) cs
    change p.Before ((p.past c).pastAll cs)
    unfold Before at hc hcs ⊢
    omega

theorem pastAll_append (p : TextPosition) (cs ds : List Char) :
    p.pastAll (cs ++ ds) = (p.pastAll cs).pastAll ds := List.foldl_append

end TextPosition

/-- Where a segment starts. -/
def Mapping.position (s : Mapping) : TextPosition := ⟨s.line, s.column⟩

namespace EditBuffer

/-! ## Segments in their order -/

/-- The segments of a text lie in it. -/
theorem position_of_mem_keptMappings {new old : TextPosition} {cs : List Char} {s : Mapping}
    (h : s ∈ keptMappings new old cs) :
    ¬ s.position.Before new ∧ s.position.Before (new.pastAll cs) := by
  induction cs generalizing new old with
  | nil => cases h
  | cons c cs ih =>
    have hpast := new.before_past c
    have hend := (new.past c).not_pastAll_before cs
    have hrest : s ∈ keptMappings (new.past c) (old.past c) cs →
        ¬ s.position.Before new ∧ s.position.Before (new.pastAll (c :: cs)) := by
      intro hs
      obtain ⟨hlow, hhigh⟩ := ih hs
      refine ⟨?_, hhigh⟩
      unfold TextPosition.Before at hlow hpast ⊢
      omega
    rw [keptMappings] at h
    split at h
    · exact hrest h
    · rcases List.mem_cons.1 h with rfl | h
      · change ¬ new.Before new ∧ new.Before ((new.past c).pastAll cs)
        unfold TextPosition.Before at hpast hend ⊢
        omega
      · exact hrest h

theorem pairwise_keptMappings (new old : TextPosition) (cs : List Char) :
    (keptMappings new old cs).Pairwise Mapping.Before := by
  induction cs generalizing new old with
  | nil => exact List.Pairwise.nil
  | cons c cs ih =>
    rw [keptMappings]
    split
    · exact ih _ _
    · refine List.pairwise_cons.2 ⟨fun s hs => ?_, ih _ _⟩
      have hpast := new.before_past c
      have hlow := (position_of_mem_keptMappings hs).1
      change new.Before s.position
      unfold TextPosition.Before at hpast hlow ⊢
      omega

theorem position_of_mem_pieceMappings {new old : TextPosition} {ps : List Piece} {s : Mapping}
    (h : s ∈ pieceMappings new old ps) : ¬ s.position.Before new := by
  induction ps generalizing new old with
  | nil => cases h
  | cons p ps ih =>
    cases p with
    | kept text =>
      rcases List.mem_append.1 h with h | h
      · exact (position_of_mem_keptMappings h).1
      · have hlow := ih h
        have hend := new.not_pastAll_before text
        unfold TextPosition.Before at hlow hend ⊢
        omega
    | edited before after =>
      have hrest : s ∈ pieceMappings (new.pastAll after) (old.pastAll before) ps →
          ¬ s.position.Before new := by
        intro hs
        have hlow := ih hs
        have hend := new.not_pastAll_before after
        unfold TextPosition.Before at hlow hend ⊢
        omega
      rw [pieceMappings] at h
      split at h
      · exact hrest h
      · rcases List.mem_cons.1 h with rfl | h
        · exact new.not_pastAll_before []
        · exact hrest h

/-- No two segments start at one place. -/
theorem pairwise_pieceMappings (new old : TextPosition) (ps : List Piece) :
    (pieceMappings new old ps).Pairwise Mapping.Before := by
  induction ps generalizing new old with
  | nil => exact List.Pairwise.nil
  | cons p ps ih =>
    cases p with
    | kept text =>
      refine List.pairwise_append.2 ⟨pairwise_keptMappings new old text, ih _ _, ?_⟩
      intro s hs t ht
      have hhigh := (position_of_mem_keptMappings hs).2
      have hlow := position_of_mem_pieceMappings ht
      change s.position.Before t.position
      unfold TextPosition.Before at hhigh hlow ⊢
      omega
    | edited before after =>
      rw [pieceMappings]
      split
      · exact ih _ _
      · rename_i hafter
        refine List.pairwise_cons.2 ⟨fun s hs => ?_, ih _ _⟩
        have hend : new.Before (new.pastAll after) := new.before_pastAll (by simpa using hafter)
        have hlow := position_of_mem_pieceMappings hs
        change new.Before s.position
        unfold TextPosition.Before at hend hlow ⊢
        omega

/-! ## Segments of characters that were kept -/

theorem link_mem_keptMappings (new old : TextPosition) (as : List Char) {c : Char} (hc : c ≠ '\n')
    (bs : List Char) :
    link (new.pastAll as) (old.pastAll as) ∈ keptMappings new old (as ++ c :: bs) := by
  induction as generalizing new old with
  | nil =>
    rw [List.nil_append, keptMappings]
    simp only [if_neg hc]
    exact List.mem_cons_self
  | cons a as ih =>
    rw [List.cons_append, keptMappings]
    split
    · exact ih _ _
    · exact List.mem_cons_of_mem _ (ih _ _)

theorem link_mem_pieceMappings (new old : TextPosition) (before : List Piece) (as : List Char)
    {c : Char} (hc : c ≠ '\n') (bs : List Char) (behind : List Piece) :
    link (new.pastAll (before.flatMap Piece.new ++ as))
        (old.pastAll (before.flatMap Piece.old ++ as)) ∈
      pieceMappings new old (before ++ .kept (as ++ c :: bs) :: behind) := by
  induction before generalizing new old with
  | nil => exact List.mem_append_left _ (link_mem_keptMappings new old as hc bs)
  | cons p before ih =>
    rw [List.flatMap_cons, List.flatMap_cons, List.append_assoc p.new, List.append_assoc p.old,
      TextPosition.pastAll_append new, TextPosition.pastAll_append old]
    cases p with
    | kept text => exact List.mem_append_right _ (ih _ _)
    | edited text after =>
      rw [List.cons_append, pieceMappings]
      split
      · exact ih _ _
      · exact List.mem_cons_of_mem _ (ih _ _)

/-! ## The map -/

/-- The map of a text that is a source, before it has segments. -/
def sourceTable (b : EditBuffer) (root : Path) (source : String) (withContent : Bool) : SourceMap :=
  { root, sources := [⟨Source.relativePath root source, if withContent then b.base else ""⟩] }

theorem sourceMap_eq (b : EditBuffer) (root : Path) (source : String) (withContent : Bool) :
    b.sourceMap root source withContent =
      (b.sourceTable root source withContent).addAll (pieceMappings {} {} b.pieces) := by
  cases withContent <;> rfl

/-- A character that was kept has a place in the edited text, and a segment for it. -/
theorem WF.exists_link {b : EditBuffer} (h : b.WF) {front back : List Char} {c : Char}
    (hbase : b.base.toList = front ++ c :: back) (hkept : ¬ b.Replaces (byteLength front)) :
    ∃ newFront newBack, b.text.toList = newFront ++ c :: newBack ∧
      byteLength newFront = b.newOffset (byteLength front) ∧
      (c ≠ '\n' → link (.behind newFront) (.behind front) ∈ pieceMappings {} {} b.pieces) := by
  obtain ⟨before, as, bs, behind, hpieces, rfl⟩ := h.exists_pieces_eq hbase hkept
  refine ⟨before.flatMap Piece.new ++ as, bs ++ behind.flatMap Piece.new, ?_,
    (newOffset_eq hpieces).symm, ?_⟩
  · rw [text, String.toList_ofList, hpieces]
    simp [Piece.new]
  · intro hc
    have hlink := link_mem_pieceMappings {} {} before as hc bs behind
    have hbehind : ∀ cs, ({} : TextPosition).pastAll cs = .behind cs :=
      fun cs => TextPosition.pastAll_behind [] cs
    rwa [hbehind, hbehind, ← hpieces] at hlink

/-- The map leads from each character that was kept to itself, and the offset of the character leads
to it, too. No segment of the map stands in the way of another one. -/
theorem edits_agree (base : String) (calls : List EditCall) (root : Path) (source : String)
    (withContent : Bool) :
    let b := after base calls
    let m := b.sourceMap root source withContent
    m.mappings.Pairwise Mapping.Before ∧
      ∀ front c back, base.toList = front ++ c :: back → ¬ b.Replaces (byteLength front) →
        ∃ newFront newBack, b.text.toList = newFront ++ c :: newBack ∧
          byteLength newFront = b.newOffset (byteLength front) ∧
          (c ≠ '\n' →
            let new := TextPosition.behind newFront
            let old := TextPosition.behind front
            let s : Mapping := ⟨new.line, new.column, some ⟨0, old.line, old.column, none⟩⟩
            s ∈ m.mappings ∧ m.closest? new.line new.column = some s ∧
              (m.source 0).map (·.path) = .ok (Source.relativePath root source)) := by
  intro b m
  have hm : m = (b.sourceTable root source withContent).addAll (pieceMappings {} {} b.pieces) :=
    sourceMap_eq b root source withContent
  have hordered := pairwise_pieceMappings {} {} b.pieces
  rw [hm]
  refine ⟨SourceMap.pairwise_mappings_addAll rfl hordered, ?_⟩
  intro front c back hfront hkept
  rw [← base_after base calls] at hfront
  obtain ⟨newFront, newBack, htext, hoffset, hlink⟩ :=
    (wf_after base calls).exists_link hfront hkept
  refine ⟨newFront, newBack, htext, hoffset, fun hc => ?_⟩
  refine ⟨(SourceMap.mem_mappings_addAll rfl).2 (hlink hc),
    SourceMap.closest?_addAll rfl hordered (hlink hc), ?_⟩
  rw [SourceMap.addAll_eq]
  rfl

/-- The last letter of two lines that become one, behind a line that is put in front. -/
theorem edits_agree_lines :
    let b := after "a\nb😀c" [.overwrite 1 3 "-", .overwrite 0 0 "x\n", .append "!"]
    ¬ b.Replaces 7 ∧ b.text = "x\na-😀c!" ∧ b.newOffset 7 = 8 ∧
      (b.sourceMap ⟨"/app"⟩ "/app/a.js" true).closest? 1 4 = some ⟨1, 4, some ⟨0, 1, 3, none⟩⟩ := by
  intro b
  have hkept : ¬ b.Replaces 7 := by decide +kernel
  have htext : b.text = "x\na-😀c!" := by decide +kernel
  have hoffset : b.newOffset 7 = 8 := by decide +kernel
  obtain ⟨newFront, newBack, hnew, hlength, hmap⟩ :=
    (edits_agree "a\nb😀c" [.overwrite 1 3 "-", .overwrite 0 0 "x\n", .append "!"] ⟨"/app"⟩
      "/app/a.js" true).2 "a\nb😀".toList 'c' [] (by decide +kernel) hkept
  have hsplit : newFront ++ 'c' :: newBack = "x\na-😀".toList ++ 'c' :: ['!'] := by
    rw [← hnew, show after _ _ = b from rfl, htext]
    decide +kernel
  obtain ⟨rfl, -⟩ := append_inj_of_byteLength_eq hsplit (hlength.trans hoffset)
  exact ⟨hkept, htext, hoffset, (hmap (by decide)).2.1⟩

end EditBuffer

end ModuleWorkers
