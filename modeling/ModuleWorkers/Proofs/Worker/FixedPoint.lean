import ModuleWorkers.Proofs.Worker.Ordered
import ModuleWorkers.Proofs.Worker.Rewritten

/-!
# Rewritten scripts stay as they are

Making the constructions of a script canonical leaves nothing to be made canonical
(`CanonicalScript.ofText_text_eq_none`). A construction of a rewritten script that could be
rewritten starts in what was kept, since no word starts in canonical arguments
(`Rewritten.exists_place`), and its argument list was kept, too, up to its options
(`Rewritten.exists_front`). If an edit were made in these, they could not be read, so the
construction stood in the script before, and was rewritten (`Rewritten.exists_call`).

This takes that comments in options end alike for the reader of scripts, which takes them up to a
line feed, and for the reader of options, which takes them up to any line terminator. Otherwise a
comment may hide from the one what the other one sees (`ofText_text_eq_some_lineComment`).
-/

namespace ModuleWorkers

open Text Masked MaskedCursor Masking Construction

variable {es : List Edit} {offset : Nat} {l l' : List Masked}

/-! ## Places of rewritten scripts -/

theorem byteLength_brackets :
    '('.utf8Size = 1 ∧ ')'.utf8Size = 1 ∧ '{'.utf8Size = 1 ∧ '}'.utf8Size = 1 := by decide

namespace Rewritten

/-- A word starts in what was kept, behind the same character. -/
theorem exists_place (h : Rewritten es offset l l') {p' q' : List Masked} {m : Masked}
    (hl' : l' = p' ++ m :: q') (hm : m.visible = 'n') :
    ∃ es₁ es₂ p q, es = es₁ ++ es₂ ∧ l = p ++ m :: q ∧ p.getLast? = p'.getLast? ∧
      (∀ e ∈ es₁, e.stop ≤ offset + MaskedCursor.byteLength p) ∧
        Rewritten es₂ (offset + MaskedCursor.byteLength p) (m :: q) (m :: q') := by
  induction h generalizing p' with
  | kept offset l => exact ⟨[], [], p', q', rfl, hl', rfl, by simp, .kept _ _⟩
  | @edited e es offset p a b l l' hstart hstop ha hbalanced hb hcontent h ih =>
    have hblock : p ++ ((⟨'(', false⟩ :: (b ++ [⟨')', false⟩])) ++ l') = p' ++ m :: q' := by
      simpa using hl'
    rcases cases_of_append_eq hblock with ⟨u, rfl, rfl⟩ | ⟨u, rfl, hu⟩
    · refine ⟨[], e :: es, p', u ++ ⟨'(', false⟩ :: (a ++ ⟨')', false⟩ :: l), rfl, by simp, rfl,
        by simp, ?_⟩
      have : Rewritten (e :: es) (offset + MaskedCursor.byteLength p') _ _ :=
        .edited (m :: u) ?_ hstop ha hbalanced hb hcontent h
      · simpa using this
      · rw [hstart]
        simp only [MaskedCursor.byteLength_append]
        omega
    · rcases cases_of_append_eq hu with ⟨v, hv, -⟩ | ⟨v, rfl, hv⟩
      · -- No word starts in canonical arguments.
        have hmem : m ∈ (⟨'(', false⟩ :: (b ++ [⟨')', false⟩]) : List Masked) := by rw [hv]; simp
        rcases List.mem_cons.1 hmem with rfl | hmem
        · exact absurd hm (by decide)
        rcases List.mem_append.1 hmem with hmem | hmem
        · exact absurd hm (hb.visible_ne m hmem)
        · cases List.mem_singleton.1 hmem
          exact absurd hm (by decide)
      · obtain ⟨es₁, es₂, p₁, q, rfl, rfl, hlast, hbefore, hrest⟩ := ih hv
        have hlength : offset +
            MaskedCursor.byteLength (p ++ ⟨'(', false⟩ :: (a ++ ⟨')', false⟩ :: p₁)) = e.stop + 1 + MaskedCursor.byteLength p₁ := by
          rw [hstop, hstart]
          simp only [MaskedCursor.byteLength_append, MaskedCursor.byteLength_cons,
            byteLength_brackets]
          omega
        refine ⟨e :: es₁, es₂, p ++ ⟨'(', false⟩ :: (a ++ ⟨')', false⟩ :: p₁), q, rfl, by simp, ?_,
          ?_, hlength ▸ hrest⟩
        · have hlast' (c v : List Masked) :
              (p ++ ⟨'(', false⟩ :: (c ++ ⟨')', false⟩ :: v)).getLast? = some (v.getLast?.getD ⟨')', false⟩) := by
            rw [← List.cons_append, ← List.append_assoc,
              List.getLast?_append_of_ne_nil _ (List.cons_ne_nil _ v), List.getLast?_cons]
          have := (hlast' a p₁).trans (hlast ▸ (hlast' b v).symm)
          simpa using this
        · rw [hlength]
          refine List.forall_mem_cons.2 ⟨by omega, hbefore⟩

/-- An object in a rewritten script was kept, or it was one before an edit in it was made. -/
theorem exists_object (h : Rewritten es offset l l') {inner' tail' : List Masked} {depth : Nat}
    (hl' : l' = inner' ++ ⟨'}', false⟩ :: tail') (hdepth : 1 ≤ depth)
    (hlevel : level? depth inner' = some 1) :
    ∃ inner tail es' offset', l = inner ++ ⟨'}', false⟩ :: tail ∧ level? depth inner = some 1 ∧
      Rewritten es' offset' tail tail' ∧
        ((inner = inner' ∧ es' = es ∧ offset' = offset + (MaskedCursor.byteLength inner + 1)) ∨
          ∃ u v v', inner = u ++ ⟨'(', false⟩ :: v ∧ inner' = u ++ ⟨'(', false⟩ :: v') := by
  induction h generalizing inner' depth with
  | kept offset l => exact ⟨inner', tail', [], _, hl', hlevel, .kept _ _, .inl ⟨rfl, rfl, rfl⟩⟩
  | @edited e es offset p a b l l' hstart hstop ha hbalanced hb hcontent h ih =>
    have hblock : p ++ ((⟨'(', false⟩ :: (b ++ [⟨')', false⟩])) ++ l') =
        inner' ++ ⟨'}', false⟩ :: tail' := by
      simpa using hl'
    rcases cases_of_append_eq hblock with ⟨u, rfl, rfl⟩ | ⟨u, rfl, hu⟩
    · refine ⟨inner', u ++ ⟨'(', false⟩ :: (a ++ ⟨')', false⟩ :: l), e :: es, _, by simp, hlevel,
        ?_, .inl ⟨rfl, rfl, rfl⟩⟩
      have : Rewritten (e :: es) (offset + (MaskedCursor.byteLength inner' + 1)) _ _ :=
        .edited u ?_ hstop ha hbalanced hb hcontent h
      · simpa using this
      · rw [hstart]
        simp only [MaskedCursor.byteLength_append, MaskedCursor.byteLength_cons,
          byteLength_brackets]
        omega
    · rw [level?_append] at hlevel
      obtain ⟨depth', hp, hlevel⟩ := Option.bind_eq_some_iff.1 hlevel
      have hdepth' := level?_pos hp hdepth
      have hparens {c : List Masked} (hc : Balanced c) :
          Balanced (⟨'(', false⟩ :: (c ++ [⟨')', false⟩])) :=
        .cons (by decide) (hc.append (.cons (by decide) fun _ _ => rfl))
      rcases cases_of_append_eq hu with ⟨v, hv, -⟩ | ⟨v, rfl, hv⟩
      · -- The object cannot end in canonical arguments, where more braces are open.
        have := hparens hb.balanced depth' hdepth'
        rw [hv, level?_append, hlevel, Option.bind_some, level?, if_neg (by decide),
          if_pos (by decide), if_pos (Nat.le_refl 1)] at this
        cases this
      · rw [level?_append, hparens hb.balanced depth' hdepth', Option.bind_some] at hlevel
        obtain ⟨inner, tail, es', offset', rfl, hinner, hrest, -⟩ := ih hv hdepth' hlevel
        refine ⟨p ++ ((⟨'(', false⟩ :: (a ++ [⟨')', false⟩])) ++ inner), tail, es', offset',
          by simp, ?_, hrest, .inr ⟨p, a ++ ⟨')', false⟩ :: inner, b ++ ⟨')', false⟩ :: v, by simp, by simp⟩⟩
        rw [level?_append, hp, Option.bind_some, level?_append, hparens hbalanced depth' hdepth',
          Option.bind_some, hinner]

theorem eq_of_firstBracket {x x' y y' : List Masked} {m m' : Masked} (hx : HasNoBrackets x)
    (hx' : HasNoBrackets x') (hm : m.visible ∈ ['(', ')', '{', '}'])
    (hm' : m'.visible ∈ ['(', ')', '{', '}']) (h : x ++ m :: y = x' ++ m' :: y') : m = m' := by
  rcases cases_of_append_eq h with ⟨u, rfl, -⟩ | ⟨u, rfl, hu⟩
  · exact absurd hm' (hx m' (by simp))
  · cases u with
    | nil => exact (List.cons.inj hu).1
    | cons n u =>
      obtain ⟨rfl, -⟩ := List.cons.inj hu
      exact absurd hm (hx' m (by simp))

/-- What stands in front of an object was kept: only an argument list with an object is edited. -/
theorem exists_front {front tail' : List Masked}
    (h : Rewritten es offset l (front ++ ⟨'{', false⟩ :: tail')) (hfront : Paired front) :
    ∃ tail, l = front ++ ⟨'{', false⟩ :: tail ∧
      Rewritten es (offset + (MaskedCursor.byteLength front + 1)) tail tail' := by
  have hbrackets {ms : List Masked} (hms : HasNoBrackets ms) : ∀ m ∈ ms, m.visible ≠ '(' :=
    hms.visible_ne (by decide)
  cases hfront with
  | plain hms =>
    obtain ⟨tail, _, rfl, heq, h⟩ := h.exists_append (u := front ++ [⟨'{', false⟩])
      (List.forall_mem_append.2 ⟨hbrackets hms, by decide⟩) (.inr (by simp))
    obtain rfl : tail' = _ := by simpa using heq
    refine ⟨tail, by simp, ?_⟩
    simpa [byteLength_brackets] using h
  | @call x y z hx hy hz =>
    simp only [List.append_assoc, List.cons_append] at h
    obtain ⟨r, _, rfl, heq, h⟩ := h.exists_append (hbrackets hx) (.inr (List.prefix_append _ _))
    rw [← List.append_cancel_left heq] at h
    generalize hr : ⟨'(', false⟩ :: (y ++ ⟨')', false⟩ :: (z ++ ⟨'{', false⟩ :: tail')) = r' at h
    cases h.head with
    | nil => cases hr
    | kept m hnext =>
      obtain ⟨rfl, rfl⟩ := List.cons.inj hr
      obtain ⟨tail, _, rfl, heq, htail⟩ := hnext.exists_append
        (u := y ++ ⟨')', false⟩ :: (z ++ [⟨'{', false⟩])) (List.forall_mem_append.2 ⟨hbrackets hy, List.forall_mem_cons.2 ⟨by decide,
          List.forall_mem_append.2 ⟨hbrackets hz, by decide⟩⟩⟩) (.inr (by simp))
      obtain rfl : tail' = _ := by simpa using heq
      refine ⟨tail, by simp, ?_⟩
      have hlength :
          offset + (MaskedCursor.byteLength (x ++ ⟨'(', false⟩ :: (y ++ ⟨')', false⟩ :: z)) + 1) =
            offset + MaskedCursor.byteLength x + '('.utf8Size +
            MaskedCursor.byteLength (y ++ ⟨')', false⟩ :: (z ++ [⟨'{', false⟩])) := by
        simp [byteLength_brackets]
        omega
      exact hlength ▸ htail
    | edited _ _ _ hb _ =>
      -- The first bracket of canonical arguments is no parenthesis.
      obtain ⟨f, t, rfl, hf⟩ := hb.exists_brace
      have hfirst := (List.cons.inj hr).2
      rw [List.append_assoc, List.cons_append] at hfirst
      cases eq_of_firstBracket hy hf (by decide) (by decide) hfirst

end Rewritten

/-! ## Constructions of rewritten scripts -/

open Json.Relaxed

/-- The options of a known worker are made of pieces. -/
theorem KnownWorker.exists_pieces {servedPath : String} {c : Construction}
    (h : (ofConstruction? servedPath c).isSome) :
    ∃ options, c.options = some options ∧ Pieces options.toList := by
  obtain ⟨w, hw⟩ := Option.isSome_iff_exists.1 h
  unfold ofConstruction? at hw
  simp only [Option.bind_eq_bind, Option.bind_eq_some_iff] at hw
  obtain ⟨_, hoptions, -⟩ := hw
  obtain ⟨hoptions, -⟩ := Option.filter_eq_some_iff.1 hoptions
  obtain ⟨text, htext, hread⟩ := Option.bind_eq_some_iff.1 hoptions
  obtain ⟨_, hparse, -⟩ := Option.bind_eq_some_iff.1 hread
  obtain ⟨_, hscan, -⟩ := Option.bind_eq_some_iff.1 hparse
  exact ⟨text, htext, pieces_of_scan? hscan⟩

/-- The masked characters of an object are made of pieces if its text is. -/
theorem pieces_of_objectText {inner : List Masked} (h : Pieces (objectText inner).toList) :
    Pieces (source inner ++ ['}']) := by
  rw [objectText, String.toList_ofList] at h
  exact h.of_cons (by decide)

theorem commentsEndAlike_of_objectText {inner : List Masked}
    (h : CommentsEndAlike (objectText inner).toList) :
    CommentsEndAlike (source inner ++ ['}']) := by
  rw [objectText, String.toList_ofList, List.cons_append, ← List.singleton_append] at h
  exact h.of_append

/-- A parenthesis that the reader of scripts sees in an object can be seen by the reader of options,
unless comments in front of it end in different places for the two. -/
theorem not_commentsEndAlike_of_openParen {s s' : State} {cs cs' : List Char}
    {u v v' rest : List Masked}
    (hp : Passes s cs (⟨'{', false⟩ :: ((u ++ ⟨'(', false⟩ :: v') ++ rest)) s' cs')
    (hwf : s.nesting.WF) (hlevel : level? 1 (u ++ ⟨'(', false⟩ :: v') = some 1)
    (hpieces : Pieces (objectText (u ++ ⟨'(', false⟩ :: v')).toList) :
    ¬ CommentsEndAlike (objectText (u ++ ⟨'(', false⟩ :: v)).toList := by
  intro hcomments
  have hpieces := pieces_of_objectText hpieces
  have hcomments := commentsEndAlike_of_objectText hcomments
  have hsource (w : List Masked) : source (u ++ ⟨'(', false⟩ :: w) ++ ['}'] =
      source u ++ '(' :: (source w ++ ['}']) := by simp [source]
  rw [hsource] at hpieces hcomments
  obtain ⟨s₁, cs₁, -, hp, hs₁⟩ := hp.openBrace
  rw [List.append_assoc, List.cons_append] at hp
  obtain ⟨s₂, cs₂, hu, -⟩ := hp.split_at (by decide)
  rw [level?_append] at hlevel
  obtain ⟨depth, hdepth, -⟩ := Option.bind_eq_some_iff.1 hlevel
  have hhead (cs : List Char) : ('(' :: cs).head? = ('(' :: cs₂).head? := rfl
  -- The pieces of the options go up to the parenthesis, which starts none.
  obtain ⟨hparen, -⟩ := hu.pieces (by rw [hs₁]) (Nat.le_refl 1) (by rw [hs₁]; exact hwf.le_depth)
    hdepth (hhead _) (hhead _) hcomments hpieces
  exact Pieces.not_cons (by decide) hparen

/-- A known construction of a rewritten script is one of the script that it was, in front of all
edits, unless comments end in different places for the two readers. -/
theorem Rewritten.exists_call (h : Rewritten es offset l l') {offset' : Nat} {c' : Construction}
    (hcall : Call offset' l' c') {servedPath : String}
    (hknown : (KnownWorker.ofConstruction? servedPath c').isSome)
    (hreader : ∀ p rest, l' = p ++ ⟨'(', false⟩ :: rest →
      ∃ s cs s', s.nesting.WF ∧ Passes s cs rest s' []) :
    ∃ c, Call offset l c ∧ c.target = c'.target ∧
      ((c.options = c'.options ∧ ∀ e ∈ es, c.stop ≤ e.start) ∨
        ∃ options, c.options = some options ∧ ¬ CommentsEndAlike options.toList) := by
  obtain ⟨word, front, inner', closing, rest', rfl, hword, hfront, hlevel, hclosing, -, hstop,
    hoptions⟩ := hcall
  obtain ⟨s, cs, s', hwf, hp⟩ := hreader word _ rfl
  have hwordBrackets := (hword.hasNoBrackets (by decide)).visible_ne (c := '(') (by decide)
  obtain ⟨r, _, rfl, heq, h⟩ := h.exists_append hwordBrackets (.inr (List.prefix_append word _))
  rw [← List.append_cancel_left heq] at h
  generalize hr : ⟨'(', false⟩ :: (argumentList front inner' closing ++ rest') = r' at h
  cases h.head with
  | nil => cases hr
  | edited _ _ _ hb _ =>
    -- The construction was rewritten: its path is not relative.
    have hread := arguments?_eq_some hfront hlevel hclosing hstop hoptions rest'
    rw [(List.cons.inj hr).2] at hread
    rw [hb.ofConstruction?_eq_none hread] at hknown
    cases hknown
  | kept m hkept =>
    obtain ⟨rfl, rfl⟩ := List.cons.inj hr
    simp only [argumentList, List.append_assoc, List.cons_append] at hp hkept
    obtain ⟨hpaired, s₁, cs₁, -, hs₁, hp⟩ := hfront.exists_passes hp
    obtain ⟨_, rfl, hobject⟩ := hkept.exists_front hpaired
    obtain ⟨inner, _, es', offset₁, rfl, hinner, htail, hedits⟩ :=
      hobject.exists_object rfl (Nat.le_refl 1) hlevel
    have hclosingBrackets : ∀ m ∈ closing, m.visible ≠ '(' := by
      obtain ⟨z, hz, rfl⟩ := hclosing.exists_eq
      exact List.forall_mem_append.2 ⟨hz.visible_ne (by decide), by decide⟩
    obtain ⟨tail, _, rfl, heq', hrest⟩ := htail.exists_append hclosingBrackets
      (.inr (List.prefix_append closing rest'))
    have hlength := byteLength_argumentList_pos front inner closing
    let c : Construction := ⟨offset + (MaskedCursor.byteLength word + 1),
      offset + (MaskedCursor.byteLength word + 1) +
        MaskedCursor.byteLength (argumentList front inner closing) - 1, c'.target,
      some (objectText inner)⟩
    refine ⟨c, ⟨word, front, inner, closing, tail, by simp [argumentList], hword, hfront, hinner,
      hclosing, rfl, ?_, rfl⟩, rfl, ?_⟩
    · simp only [c]
      omega
    rcases hedits with ⟨rfl, rfl, rfl⟩ | ⟨u, v, v', rfl, rfl⟩
    · refine .inl ⟨hoptions.symm, fun e he => ?_⟩
      have := hrest.offset_lt e he
      simp only [c, argumentList, MaskedCursor.byteLength_append, MaskedCursor.byteLength_cons,
        byteLength_brackets] at this ⊢
      omega
    · refine .inr ⟨_, rfl, ?_⟩
      obtain ⟨options, hoptions', hpieces⟩ := KnownWorker.exists_pieces hknown
      rw [hoptions, Option.some.injEq] at hoptions'
      exact not_commentsEndAlike_of_openParen hp (hs₁ ▸ hwf) hlevel (hoptions' ▸ hpieces)

/-! ## Edits of known constructions -/

theorem KnownWorker.isSome_ofConstruction? {servedPath : String} {c c' : Construction}
    (htarget : c.target = c'.target) (hoptions : c.options = c'.options)
    (h : (ofConstruction? servedPath c').isSome) : (ofConstruction? servedPath c).isSome := by
  unfold ofConstruction? moduleOptions? at h ⊢
  rw [htarget, hoptions]
  simp only [Option.bind_eq_bind, Option.isSome_bind] at h ⊢
  exact h

theorem KnownWorker.span_eq {servedPath : String} {c : Construction} {w : KnownWorker}
    (h : ofConstruction? servedPath c = some w) : w.start = c.start ∧ w.stop = c.stop := by
  unfold ofConstruction? at h
  simp only [Option.bind_eq_bind, Option.bind_eq_some_iff, Option.pure_def, Option.some.injEq] at h
  obtain ⟨options, -, ⟨sourceFile, requestedPath⟩, -, rfl⟩ := h
  exact ⟨rfl, rfl⟩

/-- The edit of a known construction puts canonical arguments in the place of its argument list. -/
theorem KnownWorker.site {cs : List Char} {ms : List Masked} (hmask : maskCharacters cs = .ok ms)
    {c : Construction} (hc : c ∈ findFrom [] none 0 ms) {path : String} {w : KnownWorker}
    (hw : ofConstruction? (UrlPath.normalize path) c = some w)
    (hcomments : ∀ options ∈ c.options, CommentsEndAlike options.toList) :
    Site 0 ms w.edit := by
  obtain ⟨options, hoptions, hpieces⟩ := exists_pieces (c := c) (by rw [hw]; rfl)
  rcases mem_findFrom.1 hc with hc | ⟨p, m, q, rfl, hhere⟩
  · cases hc
  obtain ⟨-, word, front, inner, closing, rest, hq, hword, hfront, hinner, hclosing, hstart, hstop,
    hobject⟩ := here?_eq_some_iff.1 ⟨hhere, by rw [hoptions]; rfl⟩
  obtain ⟨z, hz, rfl⟩ := hclosing.exists_eq
  obtain ⟨b, hb, hcontent⟩ := exists_canonical hw
  obtain ⟨hwstart, hwstop⟩ := span_eq hw
  rw [hoptions, Option.some.injEq] at hobject
  have ha : Accepted (front ++ ⟨'{', false⟩ :: (inner ++ ⟨'}', false⟩ :: z)) :=
    .mk hfront hinner hz (pieces_of_objectText (hobject ▸ hpieces))
      (commentsEndAlike_of_objectText (hobject ▸ hcomments options hoptions))
  have hms : p ++ m :: q = (p ++ word) ++ ⟨'(', false⟩ ::
      ((front ++ ⟨'{', false⟩ :: (inner ++ ⟨'}', false⟩ :: z)) ++ ⟨')', false⟩ :: rest) := by
    rw [hq]
    simp [argumentList]
  obtain ⟨s, cs', s', hwf, hp⟩ := exists_passes_behind (hms ▸ hmask)
  obtain ⟨hbalanced, -⟩ := ha.exists_passes hp hwf
  refine ⟨p ++ word, _, b, rest, hms, ?_, ?_, ha, hbalanced, hb, hcontent⟩
  · change w.start = _
    rw [hwstart, hstart, MaskedCursor.byteLength_append]
    omega
  · change w.stop = w.start + _
    simp only [argumentList, MaskedCursor.byteLength_append, MaskedCursor.byteLength_cons,
      MaskedCursor.byteLength_nil, byteLength_brackets] at hstop ⊢
    omega

/-- An argument list that is edited is a stretch of the script, and not empty. -/
theorem Site.fits {e : Edit} (h : Site 0 l e) : e.start < e.stop ∧ e.Fits (source l) := by
  obtain ⟨p, a, b, rest, hl, hstart, hstop, ha, -, -, -⟩ := h
  have hlength : 0 < MaskedCursor.byteLength a := by
    obtain ⟨-, -, -, -⟩ := ha
    simp only [MaskedCursor.byteLength_append, MaskedCursor.byteLength_cons, byteLength_brackets]
    omega
  exact ⟨by omega, Construction.fits_between hl (by omega) hstop⟩

theorem Edit.not_conflicts {d e : Edit} (he : e.start < e.stop) (hd : d.start ≤ d.stop)
    (h : d.stop ≤ e.start ∨ e.stop ≤ d.start) : ¬ e.conflicts d := by
  simp only [conflicts, isInsertion, beq_iff_eq]
  split_ifs <;> simp only [Bool.and_eq_true, decide_eq_true_eq] <;> omega

/-! ## Rewriting twice -/

namespace CanonicalScript

/-- All constructions of a rewritten script are unknown. -/
theorem ofConstruction?_eq_none_of_rewritten {ms ms' : List Masked} (h : Rewritten es 0 ms ms')
    {cs : List Char} (hmask : maskCharacters cs = .ok ms') {servedPath : String}
    (hcomments : ∀ c ∈ findFrom [] none 0 ms, ∀ options ∈ c.options,
      CommentsEndAlike options.toList)
    (hedits : ∀ c ∈ findFrom [] none 0 ms, (KnownWorker.ofConstruction? servedPath c).isSome →
      ∃ e ∈ es, ¬ (e.stop ≤ c.start ∨ c.stop ≤ e.start)) :
    ∀ c ∈ findFrom [] none 0 ms', KnownWorker.ofConstruction? servedPath c = none := by
  intro c' hc'
  by_contra hknown
  have hknown : (KnownWorker.ofConstruction? servedPath c').isSome :=
    Option.isSome_iff_ne_none.2 hknown
  obtain ⟨options, hoptions, -⟩ := KnownWorker.exists_pieces hknown
  rcases mem_findFrom.1 hc' with hc' | ⟨p', m, q', hms', hhere⟩
  · cases hc'
  obtain ⟨hprevious, hcall⟩ := here?_eq_some_iff.1 ⟨hhere, by rw [hoptions]; rfl⟩
  obtain ⟨es₁, es₂, p, q, rfl, rfl, hlast, hbefore, hrest⟩ := h.exists_place hms' hcall.visible_eq
  obtain ⟨c, hcall, htarget, hcases⟩ := hrest.exists_call hcall hknown fun p₁ rest hq => by
    have hsplit : ms' = (p' ++ p₁) ++ ⟨'(', false⟩ :: rest := by rw [hms', hq, List.append_assoc]
    exact exists_passes_behind (hsplit ▸ hmask)
  have hfound : c ∈ findFrom [] none 0 (p ++ m :: q) := by
    refine mem_findFrom.2 (.inr ⟨p, m, q, rfl, (here?_eq_some_iff.2 ⟨?_, hcall⟩).1⟩)
    rwa [hlast]
  rcases hcases with ⟨hoptions', hbehind⟩ | ⟨options', hoptions', hnot⟩
  · obtain ⟨e, he, hoverlap⟩ :=
      hedits c hfound (KnownWorker.isSome_ofConstruction? htarget hoptions' hknown)
    rcases List.mem_append.1 he with he | he
    · exact hoverlap (.inl ((hbefore e he).trans hcall.offset_le))
    · exact hoverlap (.inr (hbehind e he))
  · exact hnot (hcomments c hfound options' hoptions')

theorem exists_maskCharacters {text : String} {found : List Construction}
    (h : findConstructions text = .ok found) :
    ∃ ms, maskCharacters text.toList = .ok ms ∧ found = findFrom [] none 0 ms := by
  unfold findConstructions at h
  cases hmask : maskCharacters text.toList with
  | error e =>
    rw [hmask] at h
    cases h
  | ok ms =>
    rw [hmask] at h
    exact ⟨ms, rfl, (Except.ok.inj h).symm⟩

/-- A script without known constructions has nothing to make canonical. -/
theorem ofText_eq_none {text path : String} {ms : List Masked}
    (hmask : maskCharacters text.toList = .ok ms)
    (h : ∀ c ∈ findFrom [] none 0 ms, KnownWorker.ofConstruction? (UrlPath.normalize path) c = none)
    (registry : WorkerRegistry) : ofText text path registry = .ok none := by
  unfold ofText findConstructions
  rw [hmask]
  simp only [bind, Except.bind, pure, Except.pure]
  rw [List.filterMap_eq_nil_iff.2 h]
  rfl

/-- A rewritten script is not rewritten again, if in the options of constructions all comments to
the end of the line end there, whatever ends a line. -/
theorem ofText_text_eq_none {text path : String} {registry : WorkerRegistry}
    {script : CanonicalScript} (h : ofText text path registry = .ok (some script))
    {found : List Construction} (hfound : findConstructions text = .ok found)
    (hcomments : ∀ c ∈ found, ∀ options ∈ c.options, CommentsEndAlike options.toList) :
    ofText script.buffer.text path script.registry = .ok none ∧
      script.registry.addScript (script.buffer.text, path) = script.registry := by
  obtain ⟨found', hfound', hrewrites⟩ := rewrites_ofText h
  obtain rfl : found = found' := Except.ok.inj (hfound.symm.trans hfound')
  obtain ⟨ms, hmask, rfl⟩ := exists_maskCharacters hfound
  have hsource : source ms = text.toList := map_char_maskCharacters hmask
  have hsite : ∀ c ∈ findFrom [] none 0 ms, ∀ w : KnownWorker,
      KnownWorker.ofConstruction? (UrlPath.normalize path) c = some w → Site 0 ms w.edit :=
    fun c hc w hw => KnownWorker.site hmask hc hw (hcomments c hc)
  have hsites : ∀ e ∈ script.buffer.edits, Site 0 ms e := by
    intro e he
    obtain ⟨w, hw, rfl⟩ := hrewrites.exists_of_mem e he
    obtain ⟨c, hc, hcw⟩ := List.mem_filterMap.1 hw
    exact hsite c hc w hcw
  obtain ⟨ms', hr⟩ := exists_rewritten hsites hrewrites.wf.ordered
  have htext : script.buffer.text.toList = source ms' := by
    rw [EditBuffer.text, String.toList_ofList, EditBuffer.pieces, hrewrites.base_eq, ← hsource,
      hr.flatMap_new_cut]
  have hmask' : maskCharacters script.buffer.text.toList = .ok ms' :=
    htext ▸ maskCharacters_eq_of_rewritten hmask hr
  -- What could be edited was edited, or an edit was in its way.
  have hedits : ∀ c ∈ findFrom [] none 0 ms,
      (KnownWorker.ofConstruction? (UrlPath.normalize path) c).isSome →
        ∃ e ∈ script.buffer.edits, ¬ (e.stop ≤ c.start ∨ c.stop ≤ e.start) := by
    intro c hc hknown
    obtain ⟨w, hw⟩ := Option.isSome_iff_exists.1 hknown
    obtain ⟨hlt, hfits⟩ := (hsite c hc w hw).fits
    obtain ⟨e, he, hconflicts⟩ := hrewrites.exists_conflicts w
      (List.mem_filterMap.2 ⟨c, hc, hw⟩) hlt (hsource ▸ hfits)
    obtain ⟨hstart, hstop⟩ := KnownWorker.span_eq hw
    refine ⟨e, he, fun hapart => ?_⟩
    rw [← hstart, ← hstop] at hapart
    exact Edit.not_conflicts (e := w.edit) hlt (hrewrites.wf.fits e he).le hapart hconflicts
  have hnone := ofText_eq_none hmask'
    (ofConstruction?_eq_none_of_rewritten hr hmask' hcomments hedits) script.registry
  refine ⟨hnone, ?_⟩
  unfold WorkerRegistry.addScript
  rw [hnone]

/-- A comment that ends with a carriage return and a line feed ends there for both readers. -/
theorem ofText_text_eq_none_lineComment :
    ∃ text script found,
      text = "new Worker('./a.js', \x7btype: 'module', // one\r\n name: 'a'\x7d)" ∧
      ofText text "/m.js" {} = .ok (some script) ∧ findConstructions text = .ok found ∧
        (∀ c ∈ found, ∀ options ∈ c.options, CommentsEndAlike options.toList) ∧
          ofText script.buffer.text "/m.js" script.registry = .ok none ∧
            script.registry.addScript (script.buffer.text, "/m.js") = script.registry := by
  obtain ⟨text, htext⟩ : ∃ text, text =
      "new Worker('./a.js', \x7btype: 'module', // one\r\n name: 'a'\x7d)" := ⟨_, rfl⟩
  have hsome : ∃ script ∈ (ofText text "/m.js" {}).toOption.join,
      script.workers = ["/a.js"] := by
    rw [htext]
    decide +kernel
  have hcomments : ∃ found ∈ (findConstructions text).toOption, ∀ c ∈ found, ∀ options ∈ c.options,
      CommentsEndAlike options.toList := by
    rw [htext]
    decide +kernel
  obtain ⟨script, hscript, -⟩ := exists_ofText_eq_some hsome
  obtain ⟨found, hfound, -⟩ := rewrites_ofText hscript
  rw [hfound] at hcomments
  obtain ⟨_, heq, hcomments⟩ := hcomments
  obtain rfl := Option.some.inj heq
  obtain ⟨hnone, hregistry⟩ := ofText_text_eq_none hscript hfound hcomments
  exact ⟨text, script, found, htext, hscript, hfound, hcomments, hnone, hregistry⟩

/-- A comment that ends with a carriage return for one reader only hides a parenthesis and a comment
that the other one sees. Once it is gone, what looked like a regular expression is a division, and a
construction in it is found. -/
theorem ofText_text_eq_some_lineComment :
    ∃ script again,
      ofText ("new Worker('./a.js', \x7btype: 'module', //\r/*\nif(\n//\r*/\n\x7d) / " ++
        "[new Worker('./b.js', \x7btype: 'module'\x7d)] / 1") "/m.js" {} = .ok (some script) ∧
      ofText script.buffer.text "/m.js" script.registry = .ok (some again) ∧
        script.workers = ["/a.js"] ∧ again.workers = ["/b.js"] ∧
          script.registry.addScript (script.buffer.text, "/m.js") ≠ script.registry := by
  have hsome : ∃ script ∈ (ofText
      ("new Worker('./a.js', \x7btype: 'module', //\r/*\nif(\n//\r*/\n\x7d) / " ++
      "[new Worker('./b.js', \x7btype: 'module'\x7d)] / 1") "/m.js" {}).toOption.join,
        script.workers = ["/a.js"] ∧
          ∃ again ∈ (ofText script.buffer.text "/m.js" script.registry).toOption.join,
            again.workers = ["/b.js"] ∧
              again.registry.entries.length ≠ script.registry.entries.length := by decide +kernel
  obtain ⟨script, hscript, hworkers, hagain⟩ := exists_ofText_eq_some hsome
  obtain ⟨again, hagain, hworkers', hlength⟩ := exists_ofText_eq_some hagain
  refine ⟨script, again, hscript, hagain, hworkers, hworkers', fun hsame => hlength ?_⟩
  unfold WorkerRegistry.addScript at hsame
  rw [hagain] at hsame
  exact congrArg (List.length ·.entries) hsame

end CanonicalScript

end ModuleWorkers
