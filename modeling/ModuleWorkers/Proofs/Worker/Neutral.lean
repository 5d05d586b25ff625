import ModuleWorkers.Proofs.Json.Pieces
import ModuleWorkers.Proofs.Worker.Arguments

/-!
# Argument lists leave alone what is around

Behind an argument list with options that can be read as relaxed JSON, the reader of scripts is in
the same parentheses, templates and braces as in front of it (`Masking.Passes.exists_closing`).
-/

namespace ModuleWorkers

open Text Masked MaskedCursor Masking

namespace Construction

/-! ## Fronts -/

/-- Whether a search sees no brackets, or one pair of parentheses and no brackets else. -/
inductive Paired : List Masked → Prop
  | plain {ms : List Masked} : HasNoBrackets ms → Paired ms
  | call {x y z : List Masked} : HasNoBrackets x → HasNoBrackets y → HasNoBrackets z →
      Paired (x ++ ⟨'(', false⟩ :: (y ++ ⟨')', false⟩ :: z))

theorem Paired.append {ms ns : List Masked} (h : Paired ms) (hns : HasNoBrackets ns) :
    Paired (ms ++ ns) := by
  cases h with
  | plain hms => exact .plain (hasNoBrackets_append.2 ⟨hms, hns⟩)
  | call hx hy hz =>
    simp only [List.append_assoc, List.cons_append]
    exact .call hx hy (hasNoBrackets_append.2 ⟨hz, hns⟩)

variable {s s' : State} {cs cs' : List Char} {ms rest : List Masked}

theorem Paired.nesting_eq (h : Paired ms) (hp : Passes s cs ms s' cs') :
    s'.nesting = s.nesting := by
  cases h with
  | plain hms => exact hp.nesting_eq hms
  | call hx hy hz =>
    obtain ⟨s₁, cs₁, hp₁, hp⟩ := hp.split_at (by decide)
    obtain ⟨s₂, cs₂, head, -, hp, hs₂⟩ := hp.openParen
    obtain ⟨s₃, cs₃, hp₃, hp⟩ := hp.split_at (by decide)
    obtain ⟨s₄, cs₄, -, hp, hs₄⟩ := hp.closeParen
    rw [hp.nesting_eq hz, hs₄, hp₃.nesting_eq hy, hs₂, hp₁.nesting_eq hx]
    rfl

theorem areBlank_veiled {cs : List Char} : AreBlank (veiled cs) := by
  intro m hm
  obtain ⟨c, -, rfl⟩ := List.mem_map.1 hm
  exact isAsciiBlank_visible rfl

/-- A literal that is seen from a token on hides its body. -/
theorem Literal.hasNoBrackets {text : String} (h : Literal ms text)
    (hp : Passes s cs (ms ++ rest) s' cs') : HasNoBrackets ms := by
  cases h with
  | @mk bs body m m' hbs hquote hclose hbody hsubstitution =>
  rw [List.append_assoc, List.cons_append] at hp
  obtain ⟨s₁, cs₁, -, -, hp⟩ := hp.blanks hbs (not_isAsciiBlank_of_quote hquote)
  obtain ⟨q, hq⟩ : ∃ q, m.visible = q := ⟨_, rfl⟩
  rw [hq] at hquote hclose hbody hsubstitution
  have hblank := not_isAsciiBlank_of_quote hquote
  obtain rfl := eq_shown_of_visible hq hblank
  obtain rfl := eq_shown_of_visible hclose hblank
  have hveiled : ∀ body : List Char, ∀ b ∈ veiled body, b.visible ≠ q := by
    rintro body b hb rfl
    obtain ⟨c, -, rfl⟩ := List.mem_map.1 hb
    exact hblank (isAsciiBlank_visible rfl)
  rw [List.append_assoc, List.singleton_append] at hp
  rcases hp.literal hquote with ⟨body', ms', s₂, cs₂, hbody', -⟩ | ⟨rfl, body', ms', hbody'⟩
  · -- Both ways the body goes up to the first quote.
    obtain ⟨htake, -⟩ := takeWhile_append_of_head (p := fun n : Masked => n.visible != q)
      (l := body) (r := ⟨q, false⟩ :: rest) (by simpa using hbody) (by simp)
    obtain ⟨htake', -⟩ := takeWhile_append_of_head (p := fun n : Masked => n.visible != q)
      (l := veiled body') (r := ⟨q, false⟩ :: ms') (by simpa using hveiled body') (by simp)
    obtain rfl : body = veiled body' := by rw [← htake, hbody', htake']
    refine hasNoBrackets_append.2 ⟨hbs.hasNoBrackets, fun n hn => ?_⟩
    have hq : q ∉ ['(', ')', '{', '}'] := by rcases hquote with rfl | rfl | rfl <;> decide
    rcases List.mem_cons.1 hn with rfl | hn
    · exact hq
    · rcases List.mem_append.1 hn with hn | hn
      · exact areBlank_veiled.hasNoBrackets n hn
      · cases List.mem_singleton.1 hn
        exact hq
  · -- The substitution stands in front of the quote that ends the literal.
    refine absurd ⟨rfl, ?_⟩ hsubstitution
    rcases List.append_eq_append_iff.1 hbody' with ⟨e, he, hrest⟩ | ⟨e, rfl, hrest⟩
    · cases e with
      | nil => cases (List.cons.inj hrest).1
      | cons n e =>
        obtain ⟨rfl, -⟩ := List.cons.inj hrest
        exact absurd rfl (hveiled body' ⟨'`', false⟩ (he ▸ by simp))
    · match e, hrest with
      | [], hrest => cases (List.cons.inj hrest).1
      | [_], hrest => cases (List.cons.inj (List.cons.inj hrest).2).1
      | a :: b :: e, hrest =>
        obtain ⟨rfl, htail⟩ := List.cons.inj hrest
        obtain ⟨rfl, -⟩ := List.cons.inj htail
        have := isSome_cut? ['$', '{'] ((veiled body').map Masked.visible) (e.map Masked.visible)
        simpa [hasSubstitution] using this

/-! ### What says what to run -/

theorem Closing.exists_eq {closing : List Masked} (h : Closing closing) :
    ∃ front, HasNoBrackets front ∧ closing = front ++ [⟨')', false⟩] := by
  cases h with
  | plain hbs => exact ⟨_, hbs.hasNoBrackets, rfl⟩
  | @comma bs bs' hbs hbs' =>
    refine ⟨bs ++ ⟨',', false⟩ :: bs', ?_, by simp⟩
    exact hasNoBrackets_append.2
      ⟨hbs.hasNoBrackets, hasNoBrackets_cons (by decide) hbs'.hasNoBrackets⟩

theorem hasNoBrackets_callUrl {ahead : Option Char} (h : Matches (callFront "URL") ms ahead) :
    HasNoBrackets ms :=
  h.hasNoBrackets (by decide)

theorem hasNoBrackets_importMetaUrl {ahead : Option Char} (h : Matches importMetaUrl ms ahead) :
    HasNoBrackets ms :=
  h.hasNoBrackets (by decide)

theorem Target.paired {target : WorkerTarget} {ahead : Option Char} (h : Target ms target ahead)
    (hp : Passes s cs (ms ++ rest) s' cs') : Paired ms := by
  cases h with
  | self hbs hms =>
    exact .plain (hasNoBrackets_append.2 ⟨hbs.hasNoBrackets, hasNoBrackets_importMetaUrl hms⟩)
  | text htext => exact .plain (htext.hasNoBrackets hp)
  | @url bs front lit bs₁ bs₂ base closing _ _ hbs hfront hlit hbs₁ hbs₂ hbase hclosing =>
    obtain ⟨z, hz, rfl⟩ := hclosing.exists_eq
    have hx := hasNoBrackets_append.2 ⟨hbs.hasNoBrackets, hasNoBrackets_callUrl hfront⟩
    simp only [List.append_assoc, List.cons_append] at hp
    rw [← List.append_assoc] at hp
    obtain ⟨s₁, cs₁, -, hp⟩ := hp.split_at (by decide)
    obtain ⟨s₂, cs₂, head, -, hp, -⟩ := hp.openParen
    have hlit := hlit.hasNoBrackets hp
    have hy : HasNoBrackets (lit ++ (bs₁ ++ ⟨',', false⟩ :: (bs₂ ++ (base ++ z)))) := by
      simp only [hasNoBrackets_append]
      refine ⟨hlit, hbs₁.hasNoBrackets, hasNoBrackets_cons (by decide) ?_⟩
      simp only [hasNoBrackets_append]
      exact ⟨hbs₂.hasNoBrackets, hasNoBrackets_importMetaUrl hbase, hz⟩
    have := Paired.call hx hy (z := []) hasNoBrackets_nil
    simpa using this

/-- The front of an argument list ends at the brace of the options. -/
theorem Front.exists_passes {front : List Masked} {target : WorkerTarget} (h : Front front target)
    (hp : Passes s cs (front ++ ⟨'{', false⟩ :: rest) s' cs') :
    Paired front ∧ ∃ s₁ cs₁, Passes s cs front s₁ cs₁ ∧ s₁.nesting = s.nesting ∧
      Passes s₁ cs₁ (⟨'{', false⟩ :: rest) s' cs' := by
  cases h with
  | @mk ms bs bs' _ hbs hbs' htarget =>
    simp only [List.append_assoc, List.cons_append] at hp
    have hms := htarget.paired hp
    rw [← List.append_assoc] at hp
    obtain ⟨s₁, cs₁, hp₁, hp⟩ := hp.split_at (by decide)
    obtain ⟨s₂, cs₂, hp₂, hp, hs₂⟩ := hp.comma
    obtain ⟨s₃, cs₃, hp₃, hs₃, hp⟩ := hp.blanks hbs' (by decide)
    have hfront := hms.append hbs.hasNoBrackets
    refine ⟨?_, s₃, cs₃, ?_, ?_, hp⟩
    · have := hfront.append (hasNoBrackets_cons (m := ⟨',', false⟩) (by decide) hbs'.hasNoBrackets)
      rwa [List.append_assoc] at this
    · have := (hp₁.trans hp₂).trans hp₃
      simpa using this
    · rw [hs₃, hs₂, hfront.nesting_eq hp₁]

end Construction

/-! ## Objects -/

namespace Masking

open Construction Json.Relaxed

/-- In an object, the reader of scripts takes the pieces that the reader of relaxed JSON takes, and
knows of as many open braces as a search counts. -/
theorem Token.pieces {n n' : Nesting} {t : List Masked} {rest : List Char} (h : Token n rest t n')
    {base depth depth' : Nat} (hdepth : n.depth = base + depth) (hpos : 1 ≤ depth)
    (htemplates : ∀ t ∈ n.templates.head?, t.1 ≤ base) (hlevel : level? depth t = some depth')
    {cs cs₀ : List Char} (hhead : cs.head? = rest.head?) (hhead₀ : cs₀.head? = rest.head?)
    (hcomments : CommentsEndAlike (source t ++ cs₀)) (hp : Pieces (source t ++ cs)) :
    Pieces cs ∧ n' = { n with depth := base + depth' } := by
  have hsame : HasNoBrackets t → n' = { n with depth := base + depth' } := by
    intro ht
    rw [level?_of_hasNoBrackets ht] at hlevel
    obtain rfl := Option.some.inj hlevel
    rw [h.nesting_eq ht, ← hdepth]
  have hhidden (body : List Char) : HasNoBrackets (veiled body) := areBlank_veiled.hasNoBrackets
  cases h with
  | @lineComment line hline hrest =>
    simp only [source, map_char_veiled, List.cons_append] at hcomments hp
    have hends := hcomments [] (line ++ cs₀) rfl
    rw [(takeWhile_append_of_head (p := (· != '\n'))
      (fun c hc => by simpa using fun h : c = '\n' => hline (h ▸ hc))
      (fun c hc => by simpa using hrest c (hhead₀ ▸ hc))).1] at hends
    exact ⟨.of_lineComment hends hline (fun c hc => hrest c (hhead ▸ hc)) hp, hsame (hhidden _)⟩
  | @blockComment body hcut =>
    obtain ⟨front, -, hfront, hcut⟩ := exists_front_of_cut? hcut
    have hcut := hcut cs
    rw [show front = body ++ ['*', '/'] from List.append_cancel_right (by simpa using hfront.symm)]
      at hcut
    simp only [source, map_char_veiled, List.cons_append] at hp
    exact ⟨hp.of_blockComment hcut, hsame (hhidden _)⟩
  | @string quote body hquote hbody =>
    obtain ⟨front, hfront, hbody⟩ := exists_front_of_stringBody hbody
    have hbody := hbody cs
    rw [show front = body ++ [quote] from List.append_cancel_right (by simpa using hfront.symm)]
      at hbody
    refine ⟨.of_string hquote hbody (by simpa [source] using hp), hsame ?_⟩
    have hq : (⟨quote, false⟩ : Masked).visible ∉ ['(', ')', '{', '}'] := by
      rcases hquote with rfl | rfl <;> decide
    refine hasNoBrackets_cons hq (hasNoBrackets_append.2 ⟨hhidden _, ?_⟩)
    exact hasNoBrackets_cons hq hasNoBrackets_nil
  | @regex c body hslash hstar =>
    rcases hp.exists_comment with hhead | ⟨_, _, _, hhead, -⟩
    · exact absurd (Option.some.inj hhead) hslash
    · exact absurd (List.cons.inj hhead).1 hstar
  | division hslash hstar =>
    rcases hp.exists_comment with hslash' | ⟨cs', _, _, rfl, -⟩
    · exact absurd (hhead ▸ hslash') hslash
    · exact absurd (hhead.symm) hstar
  | template => exact absurd hp (Pieces.not_cons (by decide))
  | @templateTail start outer _ _ htail =>
    have := htemplates (n.depth, start) (by rw [htail]; rfl)
    simp only at this
    omega
  | closeBrace =>
    rw [level?, if_neg (by decide), if_pos (by decide)] at hlevel
    split at hlevel
    · cases hlevel
    · rw [level?, Option.some.injEq] at hlevel
      refine ⟨hp.of_cons (by decide), ?_⟩
      rw [← hlevel, hdepth, Nat.add_sub_assoc hpos]
  | openBrace =>
    rw [level?, if_pos (by decide), level?, Option.some.injEq] at hlevel
    refine ⟨hp.of_cons (by decide), ?_⟩
    rw [← hlevel, hdepth, Nat.add_assoc]
  | openParen | closeParen => exact absurd hp (Pieces.not_cons (by decide))
  | @word c cs' hword =>
    have hplain {d : Char} (hd : d ∈ c :: cs') : d ∉ excluded :=
      not_mem_excluded (by decide) (hword d hd)
    have hbrackets : ∀ d ∈ ['(', ')', '{', '}'], ¬ isWordPart d :=
      List.all_iff_forall_prop.1 (by decide)
    rw [source, map_char_shown] at hp
    refine ⟨.of_append (fun d => hplain) hp, hsame fun m hm hb => ?_⟩
    obtain ⟨d, hd, rfl⟩ := List.mem_map.1 hm
    exact hbrackets d hb (hword d hd)
  | @sign c hc _ =>
    have hsigns : ∀ d ∈ excluded ++ ['(', ')', '{', '}'],
        d ∈ ['/', '\'', '"', '`', '(', ')', '{', '}'] := by simp [excluded]
    refine ⟨hp.of_cons fun hmem => hc (hsigns c (List.mem_append_left _ hmem)),
      hsame (hasNoBrackets_cons (fun hmem => hc ?_) hasNoBrackets_nil)⟩
    exact hsigns c (List.mem_append_right _ hmem)
  | @twice c hc =>
    have hplain : ∀ d ∈ [c, c], d ∉ excluded ∧ d ∉ ['(', ')', '{', '}'] :=
      List.all_iff_forall_prop.1 (by rcases hc with rfl | rfl <;> decide)
    refine ⟨.of_append (fun d hd => (hplain d hd).1) (by simpa [source] using hp), hsame ?_⟩
    obtain ⟨-, hbracket⟩ := hplain c List.mem_cons_self
    exact hasNoBrackets_cons hbracket (hasNoBrackets_cons hbracket hasNoBrackets_nil)

/-- The pieces of a front of an object are whole tokens. -/
theorem Passes.pieces {s s' : State} {cs cs' : List Char} {u : List Masked}
    (h : Passes s cs u s' cs') {base depth depth' : Nat} (hdepth : s.nesting.depth = base + depth)
    (hpos : 1 ≤ depth) (htemplates : ∀ t ∈ s.nesting.templates.head?, t.1 ≤ base)
    (hlevel : level? depth u = some depth') {x x₀ : List Char} (hhead : x.head? = cs'.head?)
    (hhead₀ : x₀.head? = cs'.head?) (hcomments : CommentsEndAlike (source u ++ x₀))
    (hp : Pieces (source u ++ x)) :
    Pieces x ∧ s'.nesting = { s.nesting with depth := base + depth' } := by
  induction h generalizing depth with
  | refl =>
    obtain rfl := Option.some.inj hlevel
    exact ⟨hp, by rw [← hdepth]⟩
  | @step s s₁ s₂ c cs cs₁ cs₂ t ms hnext ht h ih =>
    rw [level?_append] at hlevel
    obtain ⟨depth₁, hlevel₁, hlevel⟩ := Option.bind_eq_some_iff.1 hlevel
    have hsource : source (t ++ ms) = source t ++ source ms := List.map_append
    rw [hsource, List.append_assoc] at hp hcomments
    have htext : cs₁ = source ms ++ cs₂ := h.text_eq
    have hheads {y : List Char} (hy : y.head? = cs₂.head?) :
        (source ms ++ y).head? = cs₁.head? := by
      rw [htext, List.head?_append, List.head?_append, hy]
    obtain ⟨hp, hnesting⟩ := (State.token_of_next hnext ht).1.pieces hdepth hpos htemplates hlevel₁
      (hheads hhead) (hheads hhead₀) hcomments hp
    obtain ⟨hp, hnesting'⟩ := ih (by rw [hnesting]) (level?_pos hlevel₁ hpos)
      (by rw [hnesting]; exact htemplates) hlevel hhead hhead₀ hcomments.of_append hp
    exact ⟨hp, by rw [hnesting', hnesting]⟩

end Masking

namespace Construction

open Json.Relaxed

variable {s s' : State} {cs cs' : List Char} {ms rest : List Masked}

/-! ## Argument lists -/

/-- Whether all braces that are closed in masked characters are opened there, and the other way
round. -/
def Balanced (ms : List Masked) : Prop := ∀ depth, 1 ≤ depth → level? depth ms = some depth

theorem balanced_of_hasNoBrackets (h : HasNoBrackets ms) : Balanced ms :=
  fun depth _ => level?_of_hasNoBrackets h depth

theorem Balanced.append {ns : List Masked} (h : Balanced ms) (hns : Balanced ns) :
    Balanced (ms ++ ns) := by
  intro depth hdepth
  rw [level?_append, h depth hdepth, Option.bind_some, hns depth hdepth]

theorem balanced_object {inner : List Masked} (h : level? 1 inner = some 1) :
    Balanced (⟨'{', false⟩ :: (inner ++ [⟨'}', false⟩])) := by
  intro depth hdepth
  have hinner := level?_add h depth
  rw [level?, if_pos (by decide), level?_append, Nat.add_comm depth, hinner, Option.bind_some,
    level?, if_neg (by decide), if_pos (by decide), if_neg (by omega), level?]
  exact congrArg some (by omega)

theorem Balanced.cons {m : Masked} (hm : m.visible ∉ ['{', '}']) (h : Balanced ms) :
    Balanced (m :: ms) := by
  intro depth hdepth
  simp only [List.mem_cons, List.not_mem_nil, or_false, not_or] at hm
  rw [level?, if_neg hm.1, if_neg hm.2, h depth hdepth]

theorem Paired.balanced (h : Paired ms) : Balanced ms := by
  cases h with
  | plain hms => exact balanced_of_hasNoBrackets hms
  | call hx hy hz =>
    refine (balanced_of_hasNoBrackets hx).append (.cons (by decide) ?_)
    exact (balanced_of_hasNoBrackets hy).append (.cons (by decide) (balanced_of_hasNoBrackets hz))

/-- An argument list, without its parenthesis, with an object that is made of pieces for both
readers. -/
inductive Accepted : List Masked → Prop
  | mk {front inner z : List Masked} {target : WorkerTarget} : Front front target →
      level? 1 inner = some 1 → HasNoBrackets z → Pieces (source inner ++ ['}']) →
      CommentsEndAlike (source inner ++ ['}']) →
      Accepted (front ++ ⟨'{', false⟩ :: (inner ++ ⟨'}', false⟩ :: z))

/-- Behind an argument list, its parenthesis comes, and what is around is what was around in front
of it. -/
theorem Accepted.exists_passes (h : Accepted ms)
    (hp : Passes s cs (ms ++ ⟨')', false⟩ :: rest) s' cs') (hs : s.nesting.WF) :
    Balanced ms ∧ ∃ s₁ cs₁, Passes s cs ms s₁ (')' :: cs₁) ∧ s₁.nesting = s.nesting ∧
      Passes s₁ (')' :: cs₁) (⟨')', false⟩ :: rest) s' cs' := by
  cases h with
  | @mk front inner z _ hfront hinner hz hpieces hcomments =>
    simp only [List.append_assoc, List.cons_append] at hp
    obtain ⟨hpaired, s₁, cs₁, hp₁, hs₁, hp⟩ := hfront.exists_passes hp
    obtain ⟨s₂, cs₂, hp₂, hp, hs₂⟩ := hp.openBrace
    obtain ⟨s₃, cs₃, hp₃, hp⟩ := hp.split_at (by decide)
    -- The braces around are no deeper than the templates, so none of these ends in the object.
    have htemplates : ∀ t ∈ s₂.nesting.templates.head?, t.1 ≤ s.nesting.depth := by
      intro t ht
      rw [hs₂, hs₁] at ht
      exact hs.le_depth t ht
    have hdepth : s₂.nesting.depth = s.nesting.depth + 1 := by rw [hs₂, hs₁]
    have hend : ['}'].head? = ('}' :: cs₃).head? := rfl
    obtain ⟨-, hs₃⟩ :=
      hp₃.pieces hdepth (Nat.le_refl 1) htemplates hinner hend hend hcomments hpieces
    obtain ⟨s₄, cs₄, hp₄, hp, hs₄⟩ := hp.closeBrace fun t ht => by
      rw [hs₃] at ht ⊢
      have := htemplates t ht
      simp only
      omega
    obtain ⟨s₅, cs₅, hp₅, hp⟩ := hp.split_at (by decide)
    refine ⟨?_, s₅, cs₅, ?_, ?_, hp⟩
    · have hobject := hpaired.balanced.append (balanced_object hinner)
      have := hobject.append (balanced_of_hasNoBrackets hz)
      simpa using this
    · have := (((hp₁.trans hp₂).trans hp₃).trans hp₄).trans hp₅
      simpa using this
    · rw [hp₅.nesting_eq hz, hs₄, hs₃, hs₂, hs₁]
      rfl

end Construction

end ModuleWorkers
