import ModuleWorkers.Edits.Provenance
import ModuleWorkers.Proofs.Edits.Reverted
import ModuleWorkers.Proofs.Outcome

/-!
# The order of edits

Whether all of some calls are taken depends on their edits alone: each must be a stretch of the text,
and no two may clash (`EditBuffer.exists_answerAll_iff`). What becomes of them does not depend on
their order either, except that insertions at one place stay in the order in which they were made
(`EditBuffer.filter_insert`). Lists of edits that are ordered, have the same members and list the
insertions at each place alike are the same (`Edit.eq_of_perm`), so calls can be reordered as long as
these insertions are not (`EditBuffer.exists_answerAll_of_reorders`).
-/

namespace ModuleWorkers

open Text

namespace Edit

/-- Whether an edit inserts at an offset. -/
def insertsAt (offset : Nat) (e : Edit) : Bool := e.isInsertion && e.start == offset

theorem insertsAt_iff {offset : Nat} {e : Edit} :
    e.insertsAt offset ↔ e.start = e.stop ∧ e.start = offset := by
  rw [insertsAt, isInsertion, Bool.and_eq_true, beq_iff_eq, beq_iff_eq]

theorem Clashes.symm {a b : Edit} (h : a.Clashes b) : b.Clashes a := by
  rcases h with ⟨i, ha, hb⟩ | h | h
  · exact .inl ⟨i, hb, ha⟩
  · exact .inr (.inr h)
  · exact .inr (.inl h)

/-- There is one way to put edits in order that keeps the order of insertions at one place: of two
other edits the one that ends first comes first. -/
theorem eq_of_perm {es es' : List Edit} (hperm : es.Perm es')
    (horder : es.Pairwise fun a c => a.stop ≤ c.start)
    (horder' : es'.Pairwise fun a c => a.stop ≤ c.start) (hle : ∀ e ∈ es, e.start ≤ e.stop)
    (hinserts : ∀ offset, es.filter (insertsAt offset) = es'.filter (insertsAt offset)) :
    es = es' := by
  induction es generalizing es' with
  | nil => exact hperm.nil_eq
  | cons e es ih =>
    cases es' with
    | nil => exact hperm.eq_nil
    | cons d ds =>
      obtain ⟨he, hes⟩ := List.pairwise_cons.1 horder
      obtain ⟨hd, hds⟩ := List.pairwise_cons.1 horder'
      have hhead : e = d := by
        by_contra hne
        have hde : d ∈ es :=
          (List.mem_cons.1 (hperm.mem_iff.2 List.mem_cons_self)).resolve_left (Ne.symm hne)
        have hed : e ∈ ds :=
          (List.mem_cons.1 (hperm.mem_iff.1 List.mem_cons_self)).resolve_left hne
        have h₁ := he d hde
        have h₂ := hd e hed
        have h₃ := hle e List.mem_cons_self
        have h₄ := hle d (List.mem_cons_of_mem e hde)
        -- Each ends before the other one starts, so both insert at one place, and first.
        have hinserts := hinserts e.start
        rw [List.filter_cons_of_pos (insertsAt_iff.2 ⟨by omega, rfl⟩),
          List.filter_cons_of_pos (insertsAt_iff.2 ⟨by omega, by omega⟩)] at hinserts
        exact hne (List.cons.inj hinserts).1
      subst hhead
      have htail : ∀ offset, es.filter (insertsAt offset) = ds.filter (insertsAt offset) := by
        intro offset
        have := hinserts offset
        rw [List.filter_cons, List.filter_cons] at this
        split at this
        · exact (List.cons.inj this).2
        · exact this
      rw [ih hperm.cons_inv hes hds (fun a ha => hle a (List.mem_cons_of_mem e ha)) htail]

end Edit

namespace EditBuffer

variable {b b' : EditBuffer} {c : EditCall} {calls calls' : List EditCall} {base : String}

/-! ## Calls that are all taken -/

/-- Makes changes, unless one of them is refused. -/
def answerAll (b : EditBuffer) (calls : List EditCall) : Except EditError EditBuffer :=
  calls.foldlM answer b

theorem answerAll_cons (b : EditBuffer) (c : EditCall) (calls : List EditCall) :
    b.answerAll (c :: calls) = b.answer c >>= (·.answerAll calls) := rfl

theorem answer_eq_ok (h : b.answer c = .ok b') :
    b' = { b with edits := insert (c.edit b.base) b.edits } := by
  rw [answer_eq_overwrite] at h
  exact (overwrite_eq_ok h).2.2

/-- Calls are all taken exactly if each is for a stretch of the text and no two clash. -/
theorem exists_answerAll_iff (h : b.WF) : (∃ b', b.answerAll calls = .ok b') ↔
    (∀ c ∈ calls, (c.edit b.base).IsStretch b.base.toList) ∧
      (∀ c ∈ calls, ∀ d ∈ b.edits, ¬ (c.edit b.base).Clashes d) ∧
      (calls.map (·.edit b.base)).Pairwise fun a d => ¬ a.Clashes d := by
  induction calls generalizing b with
  | nil => exact iff_of_true ⟨b, rfl⟩ ⟨nofun, nofun, .nil⟩
  | cons c calls ih =>
    have hrefused := h.exists_answer_eq_error_iff c
    rw [answerAll_cons]
    cases hc : b.answer c with
    | error error =>
      refine iff_of_false (fun ⟨b', hb'⟩ => nomatch hb') ?_
      rintro ⟨hstretch, hclash, -⟩
      rcases hrefused.1 ⟨error, hc⟩ with hnot | ⟨d, hd, hcd⟩
      · exact hnot (hstretch c List.mem_cons_self)
      · exact hclash c List.mem_cons_self d hd hcd
    | ok b₁ =>
      have htaken : ¬ ∃ error, b.answer c = .error error := by
        rw [hc]
        exact fun ⟨_, h⟩ => nomatch h
      rw [hrefused, not_or, Classical.not_not] at htaken
      obtain ⟨hstretch, hclash⟩ := htaken
      have hwf : b₁.WF := by
        have := h.call c
        rwa [call, hc] at this
      obtain rfl := answer_eq_ok hc
      refine (ih hwf).trans ?_
      simp only [mem_insert, List.map_cons, List.pairwise_cons, List.forall_mem_cons,
        List.forall_mem_map, forall_eq_or_imp]
      constructor
      · rintro ⟨hall, hnone, hpairs⟩
        exact ⟨⟨hstretch, hall⟩, ⟨fun d hd hcd => hclash ⟨d, hd, hcd⟩, fun a ha => (hnone a ha).2⟩,
          fun a ha hca => (hnone a ha).1 hca.symm, hpairs⟩
      · rintro ⟨⟨-, hall⟩, ⟨-, hnone⟩, hfirst, hpairs⟩
        exact ⟨hall, fun a ha => ⟨fun hac => hfirst a ha hac.symm, hnone a ha⟩, hpairs⟩

/-- Behind an insertion there is none at its place: the first edit behind is none, and so are the
others. -/
theorem filter_dropWhile_le {e : Edit} {edits : List Edit} {offset : Nat}
    (horder : edits.Pairwise fun a c => a.stop ≤ c.start) (hle : ∀ d ∈ edits, d.start ≤ d.stop)
    (he : e.insertsAt offset = true) :
    (edits.dropWhile (·.le e)).filter (Edit.insertsAt offset) = [] := by
  refine List.filter_eq_nil_iff.2 fun d hd hat => ?_
  obtain ⟨hde, hd'⟩ := Edit.insertsAt_iff.1 hat
  obtain ⟨he, he'⟩ := Edit.insertsAt_iff.1 he
  cases hdrop : edits.dropWhile (·.le e) with
  | nil =>
    rw [hdrop] at hd
    cases hd
  | cons a as =>
    have ha := hle a (List.dropWhile_subset _ (hdrop ▸ List.mem_cons_self))
    have hne : edits.dropWhile (·.le e) ≠ [] := hdrop ▸ List.cons_ne_nil a as
    have hnot : ¬ a.le e := by
      have hhead := List.head_dropWhile_not (fun d : Edit => d.le e) hne
      simpa [hdrop] using hhead
    simp only [Edit.le, Edit.isInsertion, Bool.or_eq_true, Bool.and_eq_true,
      decide_eq_true_eq, beq_iff_eq, Bool.not_eq_true', beq_eq_false_iff_ne] at hnot
    rw [hdrop] at hd
    rcases List.mem_cons.1 hd with rfl | hd
    · omega
    · have hbehind := horder.sublist (List.dropWhile_sublist (·.le e))
      rw [hdrop] at hbehind
      have had := (List.pairwise_cons.1 hbehind).1 d hd
      omega

/-- Insertions at one place are listed in the order in which they were made. -/
theorem filter_insert {edits : List Edit}
    (horder : edits.Pairwise fun a c => a.stop ≤ c.start) (hle : ∀ d ∈ edits, d.start ≤ d.stop)
    (e : Edit) (offset : Nat) : (insert e edits).filter (Edit.insertsAt offset) =
      edits.filter (Edit.insertsAt offset) ++ [e].filter (Edit.insertsAt offset) := by
  have hsplit := List.takeWhile_append_dropWhile (p := (·.le e)) (l := edits)
  have hfilter := congrArg (List.filter (Edit.insertsAt offset)) hsplit
  rw [List.filter_append] at hfilter
  rw [insert, List.filter_append, List.filter_cons, List.filter_singleton, ← hfilter]
  cases he : e.insertsAt offset with
  | false => rw [if_neg Bool.false_ne_true, cond_false, List.append_nil]
  | true => rw [if_pos rfl, cond_true, filter_dropWhile_le horder hle he, List.append_nil]

/-- What calls leave that are all taken: their edits are added, the insertions at one place in the
order of the calls. -/
theorem answerAll_eq_ok (h : b.WF) (hb' : b.answerAll calls = .ok b') :
    b'.WF ∧ b'.base = b.base ∧ b'.edits.Perm (b.edits ++ calls.map (·.edit b.base)) ∧
      ∀ offset, b'.edits.filter (Edit.insertsAt offset) =
        (b.edits ++ calls.map (·.edit b.base)).filter (Edit.insertsAt offset) := by
  induction calls generalizing b with
  | nil =>
    cases hb'
    refine ⟨h, rfl, ?_, fun offset => ?_⟩ <;> rw [List.map_nil, List.append_nil]
  | cons c calls ih =>
    obtain ⟨b₁, hc, hb'⟩ := exists_of_bind_eq_ok hb'
    have hwf : b₁.WF := by
      have := h.call c
      rwa [call, hc] at this
    obtain rfl := answer_eq_ok hc
    obtain ⟨hwf', hbase, hperm, hinserts⟩ := ih hwf hb'
    refine ⟨hwf', hbase, hperm.trans ?_, fun offset => ?_⟩
    · exact ((perm_insert _ _).append_right _).trans List.perm_middle.symm
    · have hle : ∀ d ∈ b.edits, d.start ≤ d.stop := fun d hd => (h.fits d hd).le
      have hfirst := filter_insert h.ordered hle (c.edit b.base) offset
      rw [hinserts offset, List.filter_append, hfirst, List.map_cons, List.append_cons,
        List.filter_append, List.filter_append]

/-! ## Reordering -/

/-- The same calls in another order, in which the insertions at one place stay in theirs. -/
structure Reorders (base : String) (calls calls' : List EditCall) : Prop where
  perm : calls.Perm calls'
  insertions : ∀ offset, calls.filter (fun c => (c.edit base).insertsAt offset) =
    calls'.filter (fun c => (c.edit base).insertsAt offset)

/-- If all calls are taken in one order, they are in another one, too. The edits are then the same,
and so are the edited text, the places of the edits and the map back. -/
theorem exists_answerAll_of_reorders (h : Reorders base calls calls')
    (hb : answerAll { base } calls = .ok b) : ∃ b', answerAll { base } calls' = .ok b' ∧
      b'.edits = b.edits ∧ b'.text = b.text ∧ b'.spans = b.spans ∧
      ∀ root source withContent,
        b'.sourceMap root source withContent = b.sourceMap root source withContent := by
  have hwf := WF.nil base
  have hedits : (calls.map (·.edit base)).Perm (calls'.map (·.edit base)) := h.perm.map _
  obtain ⟨b', hb'⟩ : ∃ b', answerAll { base } calls' = .ok b' := by
    obtain ⟨hstretch, -, hpairs⟩ := (exists_answerAll_iff hwf).1 ⟨b, hb⟩
    refine (exists_answerAll_iff hwf).2 ⟨fun c hc => hstretch c (h.perm.mem_iff.2 hc), nofun, ?_⟩
    exact (hedits.pairwise_iff fun hnot hclash => hnot hclash.symm).1 hpairs
  obtain ⟨hwfb, hbase, hperm, hinserts⟩ := answerAll_eq_ok hwf hb
  obtain ⟨hwfb', hbase', hperm', hinserts'⟩ := answerAll_eq_ok hwf hb'
  have hsame : b'.edits = b.edits := by
    refine Edit.eq_of_perm (hperm'.trans (hedits.symm.trans hperm.symm)) hwfb'.ordered hwfb.ordered
      (fun e he => (hwfb'.fits e he).le) fun offset => ?_
    have hcalls := congrArg (List.map (·.edit base)) (h.insertions offset)
    rw [hinserts' offset, hinserts offset, List.nil_append, List.nil_append, List.filter_map,
      List.filter_map]
    exact hcalls.symm
  obtain rfl : b' = b := by
    cases b
    cases b'
    cases hbase
    cases hbase'
    cases hsame
    rfl
  exact ⟨b', hb', rfl, rfl, rfl, fun _ _ _ => rfl⟩

/-- Two insertions in front of a stretch that is replaced, and what is added at the end. -/
theorem exists_answerAll_of_reorders_inserts :
    let calls := [.overwrite 1 2 "B", .overwrite 1 1 "1", .overwrite 1 1 "2", .append "!"]
    let calls' := [.append "!", .overwrite 1 1 "1", .overwrite 1 2 "B", .overwrite 1 1 "2"]
    Reorders "abc" calls calls' ∧
      ∃ b, answerAll ⟨"abc", []⟩ calls' = .ok b ∧ b.text = "a12Bc!" := by
  intro calls calls'
  have hreorders : Reorders "abc" calls calls' := by
    refine ⟨by decide, fun offset => ?_⟩
    match offset with
    | 0 | 1 | 2 | 3 => decide
    | n + 4 => rfl
  have hb : answerAll ⟨"abc", []⟩ calls = .ok ⟨"abc",
      [⟨1, 1, "1"⟩, ⟨1, 1, "2"⟩, ⟨1, 2, "B"⟩, ⟨3, 3, "!"⟩]⟩ := by decide +kernel
  obtain ⟨b', hb', -, htext, -⟩ := exists_answerAll_of_reorders hreorders hb
  exact ⟨hreorders, b', hb', htext.trans (by decide +kernel)⟩

end EditBuffer

end ModuleWorkers
