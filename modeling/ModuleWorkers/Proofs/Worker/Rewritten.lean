import ModuleWorkers.Proofs.Worker.Written

/-!
# Masks of rewritten scripts

A script whose argument lists are replaced by canonical ones is masked like the script it was
(`maskCharacters_eq_of_rewritten`): each argument list leaves the parentheses, templates and braces
around as they were, and the parenthesis behind it hides from the reader what stands in front.
-/

namespace ModuleWorkers

open Text Masked MaskedCursor Masking Construction

/-! ## Parentheses -/

namespace Masking.State

/-- Behind an opening parenthesis. -/
def opened (s : State) : State :=
  { (s.keep ['(']).before true with parens := s.afterControlWord :: s.parens }

/-- Behind a closing parenthesis. -/
def closed (s : State) : State :=
  { (s.keep [')']).before (s.parens.headD false) with parens := s.parens.tail }

theorem next_openParen (s : State) (cs : List Char) : s.next '(' cs = .ok (s.opened, cs) := rfl

theorem next_closeParen (s : State) (cs : List Char) : s.next ')' cs = .ok (s.closed, cs) := rfl

theorem wf_opened {s : State} (h : s.nesting.WF) : s.opened.nesting.WF := h

theorem Alike.refl (s : State) : s.Alike s := ⟨rfl, rfl, rfl, rfl, .inl rfl⟩

theorem Alike.wf {s t : State} (h : s.Alike t) (hs : s.nesting.WF) : t.nesting.WF := by
  have hlist : s.nesting.depth :: s.nesting.templates.map Prod.fst =
      t.nesting.depth :: t.nesting.templates.map Prod.fst := congrArg₂ _ h.depth h.templates
  rwa [Nesting.WF, ← hlist]

theorem Alike.opened {s t : State} (h : s.Alike t) : s.opened.Alike t.opened :=
  ⟨congrArg₂ _ h.afterControlWord_eq h.parens, h.templates, h.depth, rfl, h.done.append [_]⟩

/-- Behind a closing parenthesis only what is around counts. -/
theorem alike_closed {s t : State} (hparens : s.parens = t.parens)
    (htemplates : s.templates.map Prod.fst = t.templates.map Prod.fst)
    (hdepth : s.depth = t.depth) :
    s.closed.Alike t.closed :=
  ⟨congrArg List.tail hparens, htemplates, hdepth, congrArg (List.headD · false) hparens,
    .inr ⟨[], _, _, rfl, rfl⟩⟩

end Masking.State

/-- Goes on behind a character that is a token. -/
theorem Masking.Passes.of_next {s s₁ s' : State} {c : Char} {cs cs₁ cs' : List Char}
    {ms : List Masked} (h : Passes s (c :: cs) (⟨c, false⟩ :: ms) s' cs')
    (hnext : s.next c cs = .ok (s₁, cs₁)) (hdone : s₁.done = ⟨c, false⟩ :: s.done) :
    Passes s₁ cs₁ ms s' cs' := by
  generalize hms : ⟨c, false⟩ :: ms = all at h
  cases h with
  | refl => cases hms
  | @step _ s₂ _ _ _ cs₂ _ t ms' hnext' ht h =>
    obtain ⟨rfl, rfl⟩ := Prod.mk.inj (Except.ok.inj (hnext.symm.trans hnext'))
    have ht : t = [⟨c, false⟩] :=
      List.reverse_injective (List.append_cancel_right (ht.symm.trans hdone))
    subst ht
    rwa [(List.cons.inj hms).2]

/-! ## Rewritten scripts -/

/-- Whether masked characters come of other ones by edits, from an offset on: each edit puts
canonical arguments in the place of an argument list that leaves alone what is around. -/
inductive Rewritten : List Edit → Nat → List Masked → List Masked → Prop
  | kept (offset : Nat) (l : List Masked) : Rewritten [] offset l l
  | edited {e : Edit} {es : List Edit} {offset : Nat} (p : List Masked) {a b l l' : List Masked} :
      e.start = offset + (MaskedCursor.byteLength p + 1) →
      e.stop = e.start + MaskedCursor.byteLength a → Accepted a → Balanced a →
      Canonical b → source b = e.content.toList → Rewritten es (e.stop + 1) l l' →
      Rewritten (e :: es) offset (p ++ ⟨'(', false⟩ :: (a ++ ⟨')', false⟩ :: l))
        (p ++ ⟨'(', false⟩ :: (b ++ ⟨')', false⟩ :: l'))

variable {es : List Edit} {offset : Nat} {l l' : List Masked}

namespace Rewritten

/-- All edits start behind the offset. -/
theorem offset_lt (h : Rewritten es offset l l') : ∀ e ∈ es, offset < e.start := by
  induction h with
  | kept => simp
  | edited p hstart hstop _ _ _ _ _ ih =>
    refine List.forall_mem_cons.2 ⟨by omega, fun d hd => ?_⟩
    have := ih d hd
    omega

theorem flatMap_new_cut_cons (offset : Nat) {c : Char}
    (hstart : ∀ e ∈ es.head?, offset + c.utf8Size ≤ e.start)
    (cs : List Char) :
    (EditBuffer.cut offset (c :: cs) es).flatMap Piece.new =
      c :: (EditBuffer.cut (offset + c.utf8Size) cs es).flatMap Piece.new := by
  cases es with
  | nil => simp [EditBuffer.cut, Piece.new]
  | cons e es =>
    have hle : offset + c.utf8Size ≤ e.start := hstart e rfl
    have := c.utf8Size_pos
    obtain ⟨n, hn⟩ : ∃ n, e.start - offset = n + 1 := ⟨e.start - offset - 1, by omega⟩
    rw [EditBuffer.cut, hn, splitBytes, EditBuffer.cut,
      show n + 1 - c.utf8Size = e.start - (offset + c.utf8Size) by omega]
    simp [Piece.new]

/-- Edits make the text that they are said to make. -/
theorem flatMap_new_cut (h : Rewritten es offset l l') :
    (EditBuffer.cut offset (source l) es).flatMap Piece.new = source l' := by
  induction h with
  | kept offset l => simp [EditBuffer.cut, Piece.new]
  | @edited e es offset p a b l l' hstart hstop _ _ _ hb hrest ih =>
    have h₁ : e.start - offset = Text.byteLength (source p ++ ['(']) := by
      rw [hstart, Text.byteLength_append, ← MaskedCursor.byteLength_eq]
      simp
      rfl
    have h₂ : e.stop - e.start = Text.byteLength (source a) := by
      rw [hstop, ← MaskedCursor.byteLength_eq]
      omega
    have hsource : source (p ++ ⟨'(', false⟩ :: (a ++ ⟨')', false⟩ :: l)) =
        (source p ++ ['(']) ++ (source a ++ ')' :: source l) := by simp [source]
    have hclose := flatMap_new_cut_cons e.stop (c := ')')
      (fun d hd => Nat.le_of_lt (hrest.offset_lt d (List.mem_of_mem_head? hd))) (source l)
    rw [hsource, EditBuffer.cut, h₁, splitBytes_byteLength]
    simp only
    rw [h₂, splitBytes_byteLength]
    simp only [List.flatMap_cons, Piece.new]
    rw [hclose, show ')'.utf8Size = 1 from rfl, ih, ← hb]
    simp [source]

/-- What rewritten masks start with. -/
inductive Head : List Edit → Nat → List Masked → List Masked → Prop
  | nil (es : List Edit) (offset : Nat) : Head es offset [] []
  | kept {es : List Edit} {offset : Nat} (m : Masked) {l l' : List Masked} :
      Rewritten es (offset + m.char.utf8Size) l l' → Head es offset (m :: l) (m :: l')
  | edited {e : Edit} {es : List Edit} {offset : Nat} {a b l l' : List Masked} :
      e.start = offset + 1 → e.stop = e.start + MaskedCursor.byteLength a → Balanced a →
      Canonical b → Rewritten es (e.stop + 1) l l' →
      Head (e :: es) offset (⟨'(', false⟩ :: (a ++ ⟨')', false⟩ :: l))
        (⟨'(', false⟩ :: (b ++ ⟨')', false⟩ :: l'))

theorem head (h : Rewritten es offset l l') : Head es offset l l' := by
  cases h with
  | kept =>
    cases l with
    | nil => exact .nil [] offset
    | cons m l => exact .kept m (.kept _ l)
  | edited p hstart hstop ha hbalanced hb hsource h =>
    cases p with
    | nil => exact .edited hstart hstop hbalanced hb h
    | cons m p =>
      refine .kept m (.edited p ?_ hstop ha hbalanced hb hsource h)
      rw [hstart, MaskedCursor.byteLength_cons]
      omega

/-- A stretch without opening parentheses stays. -/
theorem exists_append (h : Rewritten es offset l l') {u : List Masked}
    (hu : ∀ m ∈ u, m.visible ≠ '(') (hl : u <+: l ∨ u <+: l') :
    ∃ r r', l = u ++ r ∧ l' = u ++ r' ∧
      Rewritten es (offset + MaskedCursor.byteLength u) r r' := by
  induction u generalizing offset l l' with
  | nil => exact ⟨l, l', rfl, rfl, h⟩
  | cons m u ih =>
    cases h.head with
    | nil => rcases hl with hl | hl <;> exact absurd (List.prefix_nil.1 hl) (List.cons_ne_nil m u)
    | @kept _ _ m' k k' hnext =>
      have hm : m = m' ∧ (u <+: k ∨ u <+: k') := by
        rcases hl with hl | hl
        · exact ⟨(List.cons_prefix_cons.1 hl).1, .inl (List.cons_prefix_cons.1 hl).2⟩
        · exact ⟨(List.cons_prefix_cons.1 hl).1, .inr (List.cons_prefix_cons.1 hl).2⟩
      obtain ⟨rfl, htail⟩ := hm
      obtain ⟨r, r', rfl, rfl, hr⟩ := ih hnext (fun n hn => hu n (List.mem_cons_of_mem m hn)) htail
      refine ⟨r, r', rfl, rfl, ?_⟩
      rwa [MaskedCursor.byteLength_cons, ← Nat.add_assoc]
    | edited =>
      have hm : m = ⟨'(', false⟩ := by
        rcases hl with hl | hl <;> exact (List.cons_prefix_cons.1 hl).1
      exact absurd rfl (hu ⟨'(', false⟩ (hm ▸ List.mem_cons_self))

theorem head?_eq (h : Rewritten es offset l l') : l'.head? = l.head? := by
  cases h.head <;> rfl

/-- The reader gets over rewritten masks from alike places. -/
theorem exists_passes (h : Rewritten es offset l l') {s t s' : State}
    (hp : Passes s (source l) l s' []) (hs : s.nesting.WF) (hst : s.Alike t) :
    ∃ t', Passes t (source l') l' t' [] ∧ s'.Alike t' := by
  induction h generalizing s t with
  | kept offset l =>
    rw [← List.append_nil (source l)] at hp ⊢
    exact hp.alike hst rfl
  | @edited e es offset p a b l l' _ _ ha _ hb _ _ ih =>
    obtain ⟨s₁, cs₁, hp₁, hp⟩ := hp.split_at (by decide)
    rw [hp₁.text_eq] at hp₁
    obtain ⟨t₁, ht₁, halike⟩ : ∃ t₁, Passes t (p.map Masked.char ++ '(' ::
        (source b ++ ')' :: source l')) p t₁ ('(' :: (source b ++ ')' :: source l')) ∧ s₁.Alike t₁ :=
      hp₁.alike hst rfl
    have hs₁ : s₁.opened.nesting.WF := State.wf_opened (hp₁.wf hs)
    have ht₁' : t₁.opened.nesting.WF := halike.opened.wf hs₁
    -- Behind the arguments, what is around is what was around in front of them.
    obtain ⟨-, s₂, cs₂, -, hs₂, hp⟩ := ha.exists_passes (hp.of_next (s₁.next_openParen cs₁) rfl) hs₁
    obtain ⟨t₂, ht₂, hnesting⟩ := hb.exists_passes ht₁' (')' :: source l')
    have hp := hp.of_next (s₂.next_closeParen cs₂) rfl
    have hclosed : s₂.closed.Alike t₂.closed := by
      refine State.alike_closed ?_ ?_ ?_
      · exact (congrArg Nesting.parens hs₂).trans
          (halike.opened.parens.trans (congrArg Nesting.parens hnesting).symm)
      · exact (congrArg (fun n : Nesting => n.templates.map Prod.fst) hs₂).trans
          (halike.opened.templates.trans
            (congrArg (fun n : Nesting => n.templates.map Prod.fst) hnesting).symm)
      · exact (congrArg Nesting.depth hs₂).trans
          (halike.opened.depth.trans (congrArg Nesting.depth hnesting).symm)
    have hwf : s₂.closed.nesting.WF := by
      have : s₂.nesting.WF := hs₂ ▸ hs₁
      exact this
    obtain rfl : cs₂ = source l := by
      rw [hp.text_eq, List.append_nil]
      rfl
    obtain ⟨t', ht', hend⟩ := ih hp hwf hclosed
    refine ⟨t', ?_, hend⟩
    have hopen : Passes t₁ ('(' :: (source b ++ ')' :: source l')) [⟨'(', false⟩] t₁.opened _ :=
      .single (t₁.next_openParen _) rfl
    have hclose : Passes t₂ (')' :: source l') [⟨')', false⟩] t₂.closed _ :=
      .single (t₂.next_closeParen _) rfl
    have := (((ht₁.trans hopen).trans ht₂).trans hclose).trans ht'
    simpa [source] using this

end Rewritten

/-- A stretch that reads the same is no stretch of an edit, if no parenthesis is in it. -/
theorem Rewritten.prefix_source (h : Rewritten es offset l l') {cs : List Char}
    (hcs : '(' ∉ cs) (hl' : cs <+: source l') : cs <+: source l := by
  obtain ⟨tail, htail⟩ := hl'
  obtain ⟨u, r, rfl, rfl, rfl⟩ := List.map_eq_append_iff.1 htail.symm
  have hu : ∀ m ∈ u, m.visible ≠ '(' := by
    intro m hm hvisible
    obtain rfl := eq_shown_of_visible hvisible (by decide)
    exact hcs (List.mem_map_of_mem hm)
  obtain ⟨r, -, rfl, -, -⟩ := h.exists_append hu (.inr (List.prefix_append u r))
  exact ⟨source r, by simp [source]⟩

/-! ## Edits of argument lists -/

/-- No argument list ends with an opening parenthesis. -/
theorem Construction.Accepted.append_ne {a : List Masked} (h : Accepted a) (x y : List Masked) :
    x ++ a ≠ y ++ [⟨'(', false⟩] := by
  cases h with
  | @mk front inner z _ _ _ hz _ _ =>
    intro hall
    have hlast := congrArg List.getLast? hall
    rw [List.getLast?_append_of_ne_nil _ (by simp), List.getLast?_append_of_ne_nil _ (by simp),
      ← List.cons_append, List.getLast?_append_of_ne_nil _ (by simp), List.getLast?_concat] at hlast
    have hmem : ⟨'(', false⟩ ∈ (⟨'}', false⟩ :: z : List Masked) := List.mem_of_getLast? hlast
    rcases List.mem_cons.1 hmem with heq | hmem
    · cases heq
    · exact hz _ hmem (by decide)

/-- An edit that puts canonical arguments in the place of an argument list. -/
inductive Site (offset : Nat) (l : List Masked) (e : Edit) : Prop
  | mk (p a b rest : List Masked) : l = p ++ ⟨'(', false⟩ :: (a ++ ⟨')', false⟩ :: rest) →
      e.start = offset + (MaskedCursor.byteLength p + 1) →
      e.stop = e.start + MaskedCursor.byteLength a → Accepted a → Balanced a →
      Canonical b → source b = e.content.toList → Site offset l e

/-- What stands behind an argument list does not depend on it. -/
theorem Site.behind {p a rest : List Masked} {e d : Edit} (ha : Accepted a)
    (hstart : e.start = offset + (MaskedCursor.byteLength p + 1))
    (hstop : e.stop = e.start + MaskedCursor.byteLength a) (hle : e.stop ≤ d.start)
    (h : Site offset (p ++ ⟨'(', false⟩ :: (a ++ ⟨')', false⟩ :: rest)) d) :
    Site (e.stop + 1) rest d := by
  obtain ⟨q, a', b, behind, hall, hdstart, hdstop, ha', hbalanced, hb, hcontent⟩ := h
  rw [← List.cons_append, ← List.append_assoc] at hall
  have hparen : (⟨')', false⟩ : Masked) ≠ ⟨'(', false⟩ := by decide
  have hopen : '('.utf8Size = 1 := rfl
  have hclose : ')'.utf8Size = 1 := rfl
  rcases List.append_eq_append_iff.1 hall with ⟨u, rfl, hu⟩ | ⟨u, hp, hu⟩
  · cases u with
    | nil => exact absurd (List.cons.inj hu).1 hparen
    | cons m u =>
      obtain ⟨rfl, rfl⟩ := List.cons.inj hu
      refine ⟨u, a', b, behind, rfl, ?_, hdstop, ha', hbalanced, hb, hcontent⟩
      rw [hdstart, hstop, hstart]
      simp only [MaskedCursor.byteLength_append, MaskedCursor.byteLength_cons, hopen, hclose]
      omega
  · cases u with
    | nil => exact absurd (List.cons.inj hu).1.symm hparen
    | cons m u =>
      obtain ⟨rfl, -⟩ := List.cons.inj hu
      have hlength := congrArg MaskedCursor.byteLength hp
      simp only [MaskedCursor.byteLength_append, MaskedCursor.byteLength_cons] at hlength
      cases u with
      | nil => exact absurd (by simpa using hp) (ha.append_ne (p ++ [⟨'(', false⟩]) q)
      | cons m u =>
        have := m.char.utf8Size_pos
        rw [MaskedCursor.byteLength_cons] at hlength
        omega

/-- Edits of argument lists, one behind the other, make a rewritten script. -/
theorem exists_rewritten (hsites : ∀ e ∈ es, Site offset l e)
    (hordered : es.Pairwise fun d e => d.stop ≤ e.start) : ∃ l', Rewritten es offset l l' := by
  induction es generalizing offset l with
  | nil => exact ⟨l, .kept offset l⟩
  | cons e es ih =>
    obtain ⟨hnext, hordered⟩ := List.pairwise_cons.1 hordered
    obtain ⟨p, a, b, rest, rfl, hstart, hstop, ha, hbalanced, hb, hcontent⟩ :=
      hsites e List.mem_cons_self
    obtain ⟨l', hl'⟩ := ih (fun d hd =>
      (hsites d (List.mem_cons_of_mem e hd)).behind ha hstart hstop
      (hnext d hd)) hordered
    exact ⟨_, .edited p hstart hstop ha hbalanced hb hcontent hl'⟩

/-! ## Whole scripts -/

/-- The interpreter line of a script, which may be empty, depends on nothing behind it. -/
theorem Masking.exists_start (cs : List Char) :
    ∃ line rest, start cs = (State.hide {} line, rest) ∧
      ∀ rest' : List Char, rest'.head? = rest.head? →
        (['#', '!'] <+: rest' → ['#', '!'] <+: rest) →
          start (line ++ rest') = (State.hide {} line, rest') := by
  by_cases hprefix : ['#', '!'] <+: cs
  · obtain ⟨tail, rfl⟩ := hprefix
    have hline (tail : List Char) : start ('#' :: '!' :: tail) =
        (State.hide {} ('#' :: '!' :: tail.takeWhile (· != '\n')), tail.dropWhile (· != '\n')) :=
      rfl
    refine ⟨_, _, hline tail, fun rest' hhead _ => ?_⟩
    have hne : ∀ c ∈ tail.takeWhile (· != '\n'), (c != '\n') = true :=
      fun c hc => List.mem_takeWhile_imp (p := (· != '\n')) hc
    have hend : ∀ c ∈ rest'.head?, ¬ (c != '\n') = true :=
      fun c hc => not_of_mem_head?_dropWhile (p := (· != '\n')) (l := tail) (hhead ▸ hc)
    obtain ⟨htake, hdrop⟩ := takeWhile_append_of_head hne hend
    rw [List.cons_append, List.cons_append, hline, htake, hdrop]
  · exact ⟨[], cs, start_eq_self hprefix, fun rest' _ hrest' =>
      start_eq_self fun h => hprefix (hrest' h)⟩

/-- A script is masked by going over it behind its interpreter line. -/
theorem exists_passes_of_maskCharacters {cs : List Char} {ms : List Masked}
    (h : maskCharacters cs = .ok ms) :
    ∃ line l s, ms = veiled line ++ l ∧ Passes (State.hide {} line) (source l) l s [] ∧
      s.templates = [] ∧ ∀ rest : List Char, rest.head? = (source l).head? →
        (['#', '!'] <+: rest → ['#', '!'] <+: source l) →
          start (line ++ rest) = (State.hide {} line, rest) := by
  obtain ⟨line, rest, hstart, hrest⟩ := exists_start cs
  unfold maskCharacters at h
  rw [hstart] at h
  cases hrun : (State.hide {} line).run rest with
  | error e =>
    simp only [hrun] at h
    cases h
  | ok s =>
    simp only [hrun, bind, Except.bind] at h
    split at h
    · cases h
    · rename_i htemplates
      obtain ⟨l, hl⟩ := exists_passes_of_run hrun
      obtain rfl := Except.ok.inj h
      obtain rfl : rest = source l := hl.text_eq.trans (List.append_nil _)
      refine ⟨line, l, s, ?_, hl, List.getLast?_eq_none_iff.1 htemplates, hrest⟩
      rw [hl.done_eq, State.done_hide]
      simp

theorem visible_ne_of_mem_veiled {cs : List Char} {m : Masked} (hm : m ∈ veiled cs) :
    m.visible ≠ '(' := by
  intro hvisible
  have hblank := areBlank_veiled m hm
  rw [hvisible] at hblank
  exact absurd hblank (by decide)

/-- The reader stands behind each parenthesis. -/
theorem exists_passes_behind {cs : List Char} {p rest : List Masked}
    (h : maskCharacters cs = .ok (p ++ ⟨'(', false⟩ :: rest)) :
    ∃ s cs' s', s.nesting.WF ∧ Passes s cs' rest s' [] := by
  obtain ⟨line, l, s', hl, hp, -, -⟩ := exists_passes_of_maskCharacters h
  obtain ⟨u, rfl⟩ : ∃ u, l = u ++ ⟨'(', false⟩ :: rest := by
    rcases List.append_eq_append_iff.1 hl with ⟨u, hu, hrest⟩ | ⟨u, rfl, hrest⟩
    · cases u with
      | nil => exact ⟨[], hrest.symm⟩
      | cons m u =>
        obtain ⟨rfl, -⟩ := List.cons.inj hrest
        have hmem : ⟨'(', false⟩ ∈ veiled line := by simp [hu]
        exact absurd rfl (visible_ne_of_mem_veiled hmem)
    · exact ⟨u, hrest⟩
  obtain ⟨s₁, cs₁, hp₁, hp⟩ := hp.split_at (by decide)
  have hwf : s₁.nesting.WF := hp₁.wf (List.pairwise_singleton _ _)
  exact ⟨s₁.opened, cs₁, s', State.wf_opened hwf, hp.of_next (s₁.next_openParen cs₁) rfl⟩

/-- A rewritten script is masked like the script it was. -/
theorem maskCharacters_eq_of_rewritten {cs : List Char} {ms ms' : List Masked}
    (h : maskCharacters cs = .ok ms) (hr : Rewritten es 0 ms ms') :
    maskCharacters (source ms') = .ok ms' := by
  obtain ⟨line, l, s, rfl, hl, htemplates, hstart⟩ := exists_passes_of_maskCharacters h
  obtain ⟨_, l', hl₁, rfl, hr⟩ := hr.exists_append (fun m hm => visible_ne_of_mem_veiled hm)
    (.inl (List.prefix_append _ _))
  obtain rfl := List.append_cancel_left hl₁
  obtain ⟨t, ht, halike⟩ := hr.exists_passes hl (List.pairwise_singleton _ _) (.refl _)
  have hsource : source (veiled line ++ l') = line ++ source l' := by simp [source]
  have hhead : (source l').head? = (source l).head? := by
    rw [source, source, List.head?_map, List.head?_map, hr.head?_eq]
  have htemplates' : t.templates = [] := by
    have := halike.templates
    rw [htemplates, List.map_nil] at this
    exact List.map_eq_nil_iff.1 this.symm
  rw [hsource]
  exact ht.maskCharacters_eq (hstart (source l') hhead (hr.prefix_source (by decide))) htemplates'

end ModuleWorkers
