import ModuleWorkers.Json.Parser

/-!
# Written texts read back

Texts are put together from pieces that are cut into tokens whatever follows them
(`Json.Scans`), and tokens from stretches that make up a value wherever one is expected
(`Json.Builds`). Quoted strings (`Json.scans_quote`), lists of them (`Json.scans_texts`,
`Json.builds_texts`) and objects (`Json.builds_object`) are such.
-/

namespace ModuleWorkers.Json

/-! ## Tokens -/

/-- Whether a text is cut into tokens, whatever follows it. -/
def Scans (cs : List Char) (ts : List Token) : Prop :=
  ∀ rest, scan? (cs ++ rest) = (scan? rest).map (ts ++ ·)

theorem Scans.append {as bs : List Char} {ts us : List Token} (h : Scans as ts) (h' : Scans bs us) :
    Scans (as ++ bs) (ts ++ us) := by
  intro rest
  rw [List.append_assoc, h, h', Option.map_map]
  refine congrArg (Option.map · _) (funext fun vs => ?_)
  exact (List.append_assoc ts us vs).symm

theorem Scans.scan?_eq {cs : List Char} {ts : List Token} (h : Scans cs ts) :
    scan? cs = some ts := by
  have := h []
  rwa [List.append_nil, scan?, Option.map_some, List.append_nil] at this

theorem scans_nil : Scans [] [] := by
  intro rest
  cases h : scan? rest <;> simp [h]

theorem scans_punctuation {c : Char} {t : Token} (h : Token.punctuation? c = some t) :
    Scans [c] [t] := by
  intro rest
  have hblank : Token.isBlank c = false := by
    unfold Token.punctuation? at h
    split at h <;> first | rfl | cases h
  rw [List.singleton_append, scan?, hblank, if_neg Bool.false_ne_true, h]
  rfl

theorem scans_quote (text : String) : Scans (Quoted.quote text).toList [.str (some text)] := by
  intro rest
  have hdecode := Quoted.decode?_encode text.toList rest
  rw [Quoted.quote, String.toList_ofList]
  unfold Quoted.encode at hdecode ⊢
  rw [List.cons_append, List.cons_append] at hdecode ⊢
  rw [scan?, if_neg (by decide), show Token.punctuation? '"' = none from rfl]
  simp only [if_true]
  split
  · rename_i hnone
    cases hnone.symm.trans hdecode
  · rename_i read rest' hsome
    cases hsome.symm.trans hdecode
    rw [Option.map_some, String.ofList_toList]
    rfl

/-- The number of a version ends in front of a comma. -/
theorem scans_three : Scans ['3', ','] [.num "3", .comma] := by
  intro rest
  have hcomma : scan? (',' :: rest) = (scan? rest).map ([.comma] ++ ·) :=
    scans_punctuation (c := ',') rfl rest
  have htake : (',' :: rest).takeWhile Number.isPart = [] :=
    List.takeWhile_cons_of_neg (by decide)
  have hdrop : (',' :: rest).dropWhile Number.isPart = ',' :: rest :=
    List.dropWhile_cons_of_neg (by decide)
  rw [List.cons_append, List.singleton_append, scan?, if_neg (by decide),
    show Token.punctuation? '3' = none from rfl]
  simp only
  rw [if_neg (by decide), if_pos (by decide), htake, hdrop, if_pos (by decide), hcomma,
    Option.map_map]
  rfl

/-- Texts between brackets, with commas between them. -/
def textTokens : List String → List Token
  | [] => [.openArray, .closeArray]
  | t :: ts => .openArray :: .str (some t) :: ts.flatMap (fun u => [.comma, .str (some u)]) ++
    [.closeArray]

theorem scans_quotes (texts : List String) :
    Scans (texts.flatMap fun t => ',' :: (Quoted.quote t).toList)
      (texts.flatMap fun t => [.comma, .str (some t)]) := by
  induction texts with
  | nil => exact scans_nil
  | cons t ts ih =>
    have hcomma : Scans [','] [.comma] := scans_punctuation rfl
    exact (hcomma.append (scans_quote t)).append ih

theorem intercalate_cons (x : List Char) (xs : List (List Char)) :
    [','].intercalate (x :: xs) = x ++ xs.flatMap (',' :: ·) := by
  induction xs generalizing x with
  | nil => simp
  | cons y ys ih =>
    rw [List.intercalate_cons_cons, ih]
    simp

theorem scans_texts (texts : List String) :
    Scans ("[" ++ String.intercalate "," (texts.map Quoted.quote) ++ "]").toList
      (textTokens texts) := by
  have hopen : Scans ['['] [.openArray] := scans_punctuation rfl
  have hclose : Scans [']'] [.closeArray] := scans_punctuation rfl
  rw [String.toList_append, String.toList_append, String.toList_intercalate, List.map_map]
  cases texts with
  | nil => exact hopen.append hclose
  | cons t ts =>
    have htexts := (hopen.append ((scans_quote t).append (scans_quotes ts))).append hclose
    rw [List.map_cons]
    change Scans (['['] ++ [','].intercalate (_ :: _) ++ [']']) _
    rw [intercalate_cons, List.flatMap_map]
    exact htexts

/-! ## Values -/

/-- Whether tokens make up a value wherever one is expected. -/
def Builds (ts : List Token) (v : Value) : Prop :=
  ∀ frames, ts.foldlM (Builder.take .strict) ⟨frames, .value⟩ = Builder.add frames v

theorem Builds.build?_eq {ts : List Token} {v : Value} (h : Builds ts v) :
    Form.strict.build? ts = some v := by
  rw [Form.build?, h []]
  rfl

theorem builds_num (literal : String) : Builds [.num literal] (.num literal) := by
  intro frames
  exact bind_pure (Builder.add frames (.num literal))

theorem builds_str (text : String) : Builds [.str (some text)] (.str (some text)) := by
  intro frames
  exact bind_pure (Builder.add frames (.str (some text)))

/-- The items of an array behind those that were read. -/
theorem foldlM_texts (frames : List Frame) (items : List Value) (texts : List String) :
    (texts.flatMap (fun u => [Token.comma, .str (some u)]) ++ [Token.closeArray]).foldlM
        (Builder.take .strict) ⟨.array items :: frames, .next⟩ =
      Builder.add frames (.arr (items.reverse ++ texts.map fun u => .str (some u))) := by
  induction texts generalizing items with
  | nil =>
    rw [List.map_nil, List.append_nil]
    exact bind_pure (Builder.add frames (.arr items.reverse))
  | cons t ts ih =>
    have hitems := ih (.str (some t) :: items)
    rw [List.reverse_cons, List.append_assoc] at hitems
    exact hitems

theorem builds_texts (texts : List String) :
    Builds (textTokens texts) (.arr (texts.map fun u => .str (some u))) := by
  intro frames
  cases texts with
  | nil => exact bind_pure (Builder.add frames (.arr []))
  | cons t ts => exact foldlM_texts frames [.str (some t)] ts

/-- A member of an object, with the tokens of its value. -/
structure Member where
  key : String
  tokens : List Token
  value : Value

def Member.allTokens (m : Member) : List Token := .str (some m.key) :: .colon :: m.tokens

theorem foldlM_member {m : Member} (h : Builds m.tokens m.value) (frames : List Frame)
    (members : List (Option String × Value)) {e : Expectation} (he : e = .key ∨ e = .keyOrEnd) :
    m.allTokens.foldlM (Builder.take .strict) ⟨.object members none :: frames, e⟩ =
      some ⟨.object ((some m.key, m.value) :: members) none :: frames, .next⟩ := by
  have hvalue := h (.object members (some (some m.key)) :: frames)
  rcases he with rfl | rfl <;> exact hvalue

theorem foldlM_members {rest : List Member} (h : ∀ m ∈ rest, Builds m.tokens m.value)
    (frames : List Frame) (members : List (Option String × Value)) :
    (rest.flatMap (fun m => Token.comma :: m.allTokens) ++ [Token.closeObject]).foldlM
        (Builder.take .strict) ⟨.object members none :: frames, .next⟩ =
      Builder.add frames (.obj (members.reverse ++ rest.map fun m => (some m.key, m.value))) := by
  induction rest generalizing members with
  | nil =>
    rw [List.map_nil, List.append_nil]
    exact bind_pure (Builder.add frames (.obj members.reverse))
  | cons m rest ih =>
    have hm := foldlM_member (h m List.mem_cons_self) frames members (.inl rfl)
    have hrest := ih (fun n hn => h n (List.mem_cons_of_mem m hn))
      ((some m.key, m.value) :: members)
    rw [List.reverse_cons, List.append_assoc] at hrest
    rw [List.flatMap_cons, List.append_assoc, List.foldlM_append]
    change (m.allTokens.foldlM (Builder.take .strict) ⟨.object members none :: frames, .key⟩ >>= _) =
      _
    rw [hm]
    exact hrest

theorem builds_object {first : Member} {rest : List Member}
    (h : ∀ m ∈ first :: rest, Builds m.tokens m.value) :
    Builds (.openObject :: first.allTokens ++
        (rest.flatMap (fun m => Token.comma :: m.allTokens) ++ [Token.closeObject]))
      (.obj ((first :: rest).map fun m => (some m.key, m.value))) := by
  intro frames
  have hfirst := foldlM_member (h first List.mem_cons_self) frames [] (.inr rfl)
  have hrest := foldlM_members (fun m hm => h m (List.mem_cons_of_mem first hm)) frames
    [(some first.key, first.value)]
  rw [List.foldlM_append]
  change (first.allTokens.foldlM (Builder.take .strict)
    ⟨.object [] none :: frames, .keyOrEnd⟩ >>= _) = _
  rw [hfirst]
  exact hrest

end ModuleWorkers.Json
