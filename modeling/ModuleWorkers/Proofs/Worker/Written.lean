import ModuleWorkers.Proofs.Worker.EntryFile
import ModuleWorkers.Proofs.Worker.Neutral

/-!
# How canonical arguments are read

Canonical arguments are quoted strings with signs between them (`Construction.Canonical`,
`KnownWorker.exists_canonical`). The reader of scripts takes them wherever it stands and comes out
where it went in (`Construction.Canonical.exists_passes`). The path in them is not relative to any
script, so a construction with canonical arguments is that of no known worker
(`Construction.Canonical.ofConstruction?_eq_none`).
-/

namespace ModuleWorkers

open Text Masked MaskedCursor Masking

namespace Masking

/-! ## Strings -/

/-- A quoted text, masked. -/
def quoted (cs : List Char) : List Masked :=
  ⟨'"', false⟩ :: (veiled (cs.flatMap Json.Quoted.encodeChar) ++ [⟨'"', false⟩])

@[simp] theorem source_quoted (cs : List Char) : source (quoted cs) = Json.Quoted.encode cs := by
  simp [quoted, source, veiled, Json.Quoted.encode, Function.comp_def]

/-- The reader of scripts goes over an encoded character. -/
theorem stringBody_encodeChar (c : Char) (read rest : List Char) :
    stringBody '"' read (Json.Quoted.encodeChar c ++ rest) =
      stringBody '"' ((Json.Quoted.encodeChar c).reverse ++ read) rest := by
  have hdigit {n : Nat} (hn : n < 16) (read rest : List Char) :=
    Json.Relaxed.stringBody_of_hexValue? (.inr rfl) (Json.Quoted.hexValue?_hexDigit hn) read rest
  unfold Json.Quoted.encodeChar
  split
  · exact stringBody_escape '"' read _ rest
  · rename_i hletter
    obtain ⟨hquote, hescape⟩ := Json.Quoted.ne_of_escapeLetter?_eq_none hletter
    split
    · simp only [List.cons_append, List.nil_append, List.reverse_cons, List.reverse_nil]
      rw [stringBody_escape, stringBody_cons (by decide), if_neg (by decide), if_neg (by decide),
        stringBody_cons (by decide), if_neg (by decide), if_neg (by decide), hdigit (by omega),
        hdigit (by omega)]
    · rename_i hcontrol
      have hline : c ≠ '\n' := by
        rintro rfl
        exact hcontrol (by decide)
      exact (stringBody_cons hescape _ _ _).trans (by rw [if_neg hline, if_neg hquote]; rfl)

theorem stringBody_encode (cs rest : List Char) :
    stringBody '"' [] (cs.flatMap Json.Quoted.encodeChar ++ '"' :: rest) =
      some (cs.flatMap Json.Quoted.encodeChar, rest) := by
  suffices h : ∀ read, stringBody '"' read (cs.flatMap Json.Quoted.encodeChar ++ '"' :: rest) =
      some (read.reverse ++ cs.flatMap Json.Quoted.encodeChar, rest) from h []
  induction cs with
  | nil =>
    intro read
    rw [List.flatMap_nil, List.nil_append, stringBody_cons (by decide), if_neg (by decide),
      if_pos rfl, List.append_nil]
  | cons c cs ih =>
    intro read
    rw [List.flatMap_cons, List.append_assoc, stringBody_encodeChar, ih]
    simp

/-! ## Braces -/

theorem exists_passes_openBrace (s : State) (rest : List Char) :
    ∃ s', Passes s ('{' :: rest) [⟨'{', false⟩] s' rest ∧
      s'.nesting = { s.nesting with depth := s.nesting.depth + 1 } :=
  ⟨_, .step (t := [⟨'{', false⟩]) rfl rfl (.refl _ rest), rfl⟩

/-- A closing brace that does not end a substitution. -/
theorem next_closeBrace {s : State} (rest : List Char)
    (hs : ∀ t ∈ s.nesting.templates.head?, t.1 ≠ s.nesting.depth) :
    s.next '}' rest = .ok ({ (s.keep ['}']).before true with depth := s.depth - 1 }, rest) := by
  change s.closeBrace rest = _
  unfold State.closeBrace
  split
  · rename_i depth start outer htemplates
    exact if_neg (hs (depth, start) (by simp [State.nesting, htemplates]))
  · rfl

theorem exists_passes_closeBrace {s : State} (rest : List Char)
    (hs : ∀ t ∈ s.nesting.templates.head?, t.1 ≠ s.nesting.depth) :
    ∃ s', Passes s ('}' :: rest) [⟨'}', false⟩] s' rest ∧
      s'.nesting = { s.nesting with depth := s.nesting.depth - 1 } :=
  ⟨_, .step (t := [⟨'}', false⟩]) (next_closeBrace rest hs) rfl (.refl _ rest), rfl⟩

/-! ## Strings and signs -/

/-- Quoted texts and signs between them, masked. -/
inductive Plain : List Masked → Prop
  | nil : Plain []
  | quoted (cs : List Char) {ms : List Masked} : Plain ms → Plain (Masking.quoted cs ++ ms)
  | sign {c : Char} {ms : List Masked} : c = ',' ∨ c = ' ' ∨ c = ':' → Plain ms →
      Plain (⟨c, false⟩ :: ms)

namespace Plain

variable {ms : List Masked}

theorem append {ns : List Masked} (h : Plain ms) (hns : Plain ns) : Plain (ms ++ ns) := by
  induction h with
  | nil => exact hns
  | quoted cs _ ih =>
    rw [List.append_assoc]
    exact .quoted cs ih
  | sign hc _ ih => exact .sign hc ih

/-- A search sees blanks, quotes and signs. -/
theorem isBlank_or (h : Plain ms) :
    ∀ m ∈ ms, isAsciiBlank m.visible ∨ m.visible ∈ ['"', ',', ':'] := by
  induction h with
  | nil => simp
  | @quoted cs ms _ ih =>
    intro m hm
    rcases List.mem_append.1 hm with hm | hm
    · rcases List.mem_cons.1 hm with rfl | hm
      · exact .inr (by decide)
      · rcases List.mem_append.1 hm with hm | hm
        · exact .inl (Construction.areBlank_veiled m hm)
        · cases List.mem_singleton.1 hm
          exact .inr (by decide)
    · exact ih m hm
  | sign hc _ ih =>
    refine List.forall_mem_cons.2 ⟨?_, ih⟩
    rcases hc with rfl | rfl | rfl <;> decide

theorem visible_ne (h : Plain ms) {c : Char} (hc : ¬ isAsciiBlank c ∧ c ∉ ['"', ',', ':']) :
    ∀ m ∈ ms, m.visible ≠ c := by
  rintro m hm rfl
  rcases h.isBlank_or m hm with hblank | hsign
  · exact hc.1 hblank
  · exact hc.2 hsign

theorem hasNoBrackets (h : Plain ms) : HasNoBrackets ms := by
  intro m hm hbracket
  have hbrackets : ∀ c ∈ ['(', ')', '{', '}'], ¬ isAsciiBlank c ∧ c ∉ ['"', ',', ':'] :=
    List.all_iff_forall_prop.1 (by decide)
  exact h.visible_ne (hbrackets _ hbracket) m hm rfl

/-- The reader of scripts takes quoted texts and signs wherever it stands. -/
theorem exists_passes (h : Plain ms) (s : State) (rest : List Char) :
    ∃ s', Passes s (source ms ++ rest) ms s' rest := by
  induction h generalizing s with
  | nil => exact ⟨s, .refl s rest⟩
  | @quoted cs ms _ ih =>
    obtain ⟨s', hs'⟩ := ih ((((s.keep ['"']).hide (cs.flatMap Json.Quoted.encodeChar)).keep
      ['"']).before false)
    refine ⟨s', ?_⟩
    have hsource : source (Masking.quoted cs ++ ms) ++ rest =
        '"' :: (cs.flatMap Json.Quoted.encodeChar ++ '"' :: (source ms ++ rest)) := by
      rw [source, List.map_append, ← source, source_quoted, Json.Quoted.encode]
      simp [source]
    rw [hsource]
    refine .step (t := Masking.quoted cs) ?_ ?_ hs'
    · rw [State.next, if_neg (by decide), if_pos (.inr rfl), State.string, stringBody_encode]
    · simp [Masking.quoted, shown]
  | @sign c ms hc _ ih =>
    obtain ⟨s', hs'⟩ := ih (s.sign c (source ms ++ rest)).1
    have hnext : s.next c (source ms ++ rest) =
        .ok ((s.sign c (source ms ++ rest)).1, source ms ++ rest) := by
      rcases hc with rfl | rfl | rfl <;> rfl
    refine ⟨s', .step (t := [⟨c, false⟩]) hnext ?_ hs'⟩
    rcases hc with rfl | rfl | rfl <;> rfl

end Plain

end Masking

namespace Construction

/-- The masked characters of canonical arguments: a path, and an object without objects in it. -/
inductive Canonical : List Masked → Prop
  | mk (path : List Char) {fields : List Masked} : Plain fields →
      Canonical (quoted ('/' :: path) ++
        (shown [',', ' '] ++ ⟨'{', false⟩ :: (fields ++ [⟨'}', false⟩])))

namespace Canonical

variable {ms : List Masked}

theorem plain_front (path : List Char) : Plain (quoted ('/' :: path) ++ shown [',', ' ']) :=
  .quoted _ (.sign (.inl rfl) (.sign (.inr (.inl rfl)) .nil))

theorem balanced (h : Canonical ms) : Balanced ms := by
  cases h with
  | mk path hfields =>
    have hobject := balanced_object (level?_of_hasNoBrackets hfields.hasNoBrackets 1)
    rw [← List.append_assoc]
    exact (balanced_of_hasNoBrackets (plain_front path).hasNoBrackets).append hobject

/-- The first bracket is that of the object. -/
theorem exists_brace (h : Canonical ms) :
    ∃ front tail, ms = front ++ ⟨'{', false⟩ :: tail ∧ HasNoBrackets front := by
  cases h with
  | mk path hfields =>
    exact ⟨_, _, (List.append_assoc _ _ _).symm, (plain_front path).hasNoBrackets⟩

/-- The reader of scripts takes canonical arguments wherever it stands, and what is around stays. -/
theorem exists_passes (h : Canonical ms) {s : State} (hs : s.nesting.WF) (rest : List Char) :
    ∃ s', Passes s (source ms ++ rest) ms s' rest ∧ s'.nesting = s.nesting := by
  cases h with
  | @mk path fields hfields =>
    have hfront := plain_front path
    obtain ⟨s₁, hp₁⟩ := hfront.exists_passes s ('{' :: (source fields ++ '}' :: rest))
    obtain ⟨s₂, hp₂, hs₂⟩ := exists_passes_openBrace s₁ (source fields ++ '}' :: rest)
    obtain ⟨s₃, hp₃⟩ := hfields.exists_passes s₂ ('}' :: rest)
    have hs₁ := hp₁.nesting_eq hfront.hasNoBrackets
    have hs₃ := hp₃.nesting_eq hfields.hasNoBrackets
    obtain ⟨s₄, hp₄, hs₄⟩ := exists_passes_closeBrace (s := s₃) rest fun t ht => by
      rw [hs₃, hs₂, hs₁] at ht ⊢
      exact Nat.ne_of_lt (Nat.lt_succ_of_le (hs.le_depth t ht))
    refine ⟨s₄, ?_, ?_⟩
    · have := ((hp₁.trans hp₂).trans hp₃).trans hp₄
      simpa [source] using this
    · rw [hs₄, hs₃, hs₂, hs₁]
      rfl

/-- No word starts in canonical arguments. -/
theorem visible_ne (h : Canonical ms) : ∀ m ∈ ms, m.visible ≠ 'n' := by
  cases h with
  | @mk path fields hfields =>
    have hn : ¬ isAsciiBlank 'n' ∧ 'n' ∉ ['"', ',', ':'] := by decide
    intro m hm
    rw [← List.append_assoc] at hm
    rcases List.mem_append.1 hm with hm | hm
    · exact (plain_front path).visible_ne hn m hm
    rcases List.mem_cons.1 hm with rfl | hm
    · decide
    rcases List.mem_append.1 hm with hm | hm
    · exact hfields.visible_ne hn m hm
    · cases List.mem_singleton.1 hm
      decide

theorem literal_quoted (cs : List Char) :
    Literal (quoted cs) (.ofList (unescape (cs.flatMap Json.Quoted.encodeChar))) := by
  have := @Literal.mk [] (veiled (cs.flatMap Json.Quoted.encodeChar)) ⟨'"', false⟩ ⟨'"', false⟩
    (by simp [AreBlank]) (.inr (.inl rfl)) rfl
    (fun b hb hq => absurd (areBlank_veiled b hb) (by rw [hq]; decide)) (by simp)
  simpa [quoted, source] using this

/-- A path with a slash in front is not relative. -/
theorem resolve?_eq_none (servedPath : String) (cs : List Char) :
    UrlPath.resolve? servedPath (.ofList ('/' :: cs)) = none := by
  have hstarts (pattern : List Char) :
      (String.ofList ('/' :: cs)).startsWith (String.ofList ('.' :: pattern)) = false := by
    rw [Bool.eq_false_iff]
    intro h
    obtain ⟨tail, htail⟩ := String.startsWith_string_iff.1 h
    rw [String.toList_ofList, String.toList_ofList] at htail
    cases (List.cons.inj htail).1
  exact if_neg (by rw [UrlPath.isRelative, hstarts ['/'], hstarts ['.', '/']]; decide)

/-- The path in canonical arguments is not relative to any script. -/
theorem ofConstruction?_eq_none (h : Canonical ms) {rest : List Masked} {offset : Nat}
    {w : Construction} (hw : arguments? ⟨ms ++ rest, offset⟩ = some w) (servedPath : String) :
    KnownWorker.ofConstruction? servedPath w = none := by
  cases h with
  | @mk path fields _ =>
    have hread := target?_eq ((shown [',', ' '] ++ ⟨'{', false⟩ ::
      (fields ++ [⟨'}', false⟩])) ++ rest) (.text (literal_quoted ('/' :: path))) offset
    rw [← List.append_assoc] at hread
    unfold arguments? at hw
    rw [hread] at hw
    simp only [Option.bind_eq_bind, Option.bind_some, Option.bind_eq_some_iff, Option.pure_def,
      Option.some.injEq] at hw
    obtain ⟨⟨options, c⟩, -, close, -, rfl⟩ := hw
    have hlocate : KnownWorker.locate? servedPath (.specifier (.ofList
        (unescape (('/' :: path).flatMap Json.Quoted.encodeChar)))) = none := by
      have htext : ('/' :: path).flatMap Json.Quoted.encodeChar =
          '/' :: path.flatMap Json.Quoted.encodeChar := rfl
      rw [KnownWorker.locate?, htext, unescape, resolve?_eq_none]
      · rfl
      · exact fun _ _ h => absurd h (by decide)
      · exact fun h => absurd h (by decide)
    unfold KnownWorker.ofConstruction?
    simp only [hlocate]
    cases KnownWorker.moduleOptions? _ <;> rfl

end Canonical

end Construction

/-! ## Arguments of known workers -/

theorem WorkerOptions.exists_plain_literalField (key : String)
    (hkey : key.toList.flatMap Json.Quoted.encodeChar = key.toList) (value : Option String) :
    ∃ ms, Plain ms ∧ source ms = (WorkerOptions.literalField key value).toList := by
  cases value with
  | none => exact ⟨[], .nil, rfl⟩
  | some value =>
    refine ⟨⟨',', false⟩ :: (quoted key.toList ++ ⟨':', false⟩ :: (quoted value.toList ++ [])),
      .sign (.inl rfl) (.quoted _ (.sign (.inr (.inr rfl)) (.quoted _ .nil))), ?_⟩
    have hsource : source (⟨',', false⟩ :: (quoted key.toList ++ ⟨':', false⟩ ::
        (quoted value.toList ++ []))) = ',' :: (Json.Quoted.encode key.toList ++ ':' ::
          Json.Quoted.encode value.toList) := by
      rw [← source_quoted, ← source_quoted]
      simp [source]
    rw [hsource, Json.Quoted.encode, hkey]
    simp [WorkerOptions.literalField, Json.Quoted.quote]

theorem WorkerOptions.exists_plain_literal (o : WorkerOptions) :
    ∃ fields, Plain fields ∧ o.literal.toList = '{' :: (source fields ++ ['}']) := by
  obtain ⟨name, hname, hnameText⟩ := exists_plain_literalField "name" (by decide) o.name
  obtain ⟨credentials, hcredentials, hcredentialsText⟩ :=
    exists_plain_literalField "credentials" (by decide) o.credentials
  refine ⟨quoted "type".toList ++
    ⟨':', false⟩ :: (quoted o.type.text.toList ++ (name ++ credentials)),
    .quoted _ (.sign (.inr (.inr rfl)) (.quoted _ (hname.append hcredentials))), ?_⟩
  have hsource : source (quoted "type".toList ++ ⟨':', false⟩ :: (quoted o.type.text.toList ++
      (name ++ credentials))) = Json.Quoted.encode "type".toList ++ ':' ::
        (Json.Quoted.encode o.type.text.toList ++ (source name ++ source credentials)) := by
    rw [← source_quoted, ← source_quoted]
    simp [source]
  have htype : Json.Quoted.encode "type".toList = '"' :: "type\"".toList := by decide
  rw [hsource, hnameText, hcredentialsText, htype]
  simp [WorkerOptions.literal, Json.Quoted.quote]

/-- What is written for a known worker are canonical arguments. -/
theorem KnownWorker.exists_canonical {path : String} {c : Construction} {w : KnownWorker}
    (h : ofConstruction? (UrlPath.normalize path) c = some w) :
    ∃ ms, Construction.Canonical ms ∧ source ms = w.arguments.toList := by
  obtain ⟨ds, -, -, hpath⟩ := isPlaced_entry h
  obtain ⟨fields, hfields, hliteral⟩ := w.entry.options.exists_plain_literal
  refine ⟨_, .mk (joined (collapse (ds ++ segments w.entry.sourceFile.toList))) hfields, ?_⟩
  rw [KnownWorker.arguments, String.toList_append, String.toList_append, Json.Quoted.quote,
    String.toList_ofList, hpath, hliteral, source, List.map_append, ← source, source_quoted]
  simp [source]

end ModuleWorkers
