import ModuleWorkers.Proofs.Edits.Order
import ModuleWorkers.Proofs.Worker.EntryFile
import ModuleWorkers.Proofs.Worker.FixedPoint
import ModuleWorkers.Proofs.Worker.Ordered
import ModuleWorkers.Proofs.Worker.Registered

/-!
# What becomes of a script

The constructions of module workers whose target is the script itself or is given relative to it are
accepted (`Construction.IsAccepted`), and these are the known ones
(`KnownWorker.isSome_ofConstruction?_iff`). Since constructions are found in their order, each edit
goes behind all edits that were made before, and is refused only for one that it starts inside of
(`CanonicalScript.Writes.add`). So a script is its text with the argument lists of the workers that
it lists replaced, and exactly these are registered, in this order
(`CanonicalScript.writes_ofText`).
-/

namespace ModuleWorkers

open Text Masked MaskedCursor Construction

/-! ## Accepted constructions -/

/-- Whether a construction asks for a module worker, and says what to run in it relative to the
script. -/
structure Construction.IsAccepted (c : Construction) : Prop where
  options : ∃ text options, c.options = some text ∧ WorkerOptions.parse? text = some options ∧
    options.type = .module
  target : c.target = .self ∨ ∃ specifier, c.target = .specifier specifier ∧
    (['.', '/'] <+: specifier.toList ∨ ['.', '.', '/'] <+: specifier.toList)

theorem UrlPath.isRelative_iff {specifier : String} :
    isRelative specifier ↔
      ['.', '/'] <+: specifier.toList ∨ ['.', '.', '/'] <+: specifier.toList := by
  unfold isRelative
  rw [Bool.or_eq_true, String.startsWith_string_iff, String.startsWith_string_iff]
  rfl

namespace KnownWorker

theorem isSome_moduleOptions?_iff {c : Construction} :
    (moduleOptions? c).isSome ↔ ∃ text options, c.options = some text ∧
      WorkerOptions.parse? text = some options ∧ options.type = .module := by
  unfold moduleOptions?
  rw [Option.isSome_iff_exists]
  constructor
  · rintro ⟨options, h⟩
    obtain ⟨h, htype⟩ := Option.filter_eq_some_iff.1 h
    obtain ⟨text, htext, hparse⟩ := Option.bind_eq_some_iff.1 h
    exact ⟨text, options, htext, hparse, by simpa using htype⟩
  · rintro ⟨text, options, htext, hparse, htype⟩
    refine ⟨options, Option.filter_eq_some_iff.2 ⟨?_, by simpa using htype⟩⟩
    rw [htext]
    exact hparse

theorem isSome_locate?_iff {servedPath : String} {target : WorkerTarget} :
    (locate? servedPath target).isSome ↔ target = .self ∨ ∃ specifier,
      target = .specifier specifier ∧
        (['.', '/'] <+: specifier.toList ∨ ['.', '.', '/'] <+: specifier.toList) := by
  cases target with
  | self => simp [locate?]
  | specifier text =>
    simp only [locate?, Option.isSome_map, UrlPath.resolve?, ← UrlPath.isRelative_iff]
    split <;> simp_all

/-- The known constructions are the accepted ones, wherever the script is served. -/
theorem isSome_ofConstruction?_iff {servedPath : String} {c : Construction} :
    (ofConstruction? servedPath c).isSome ↔ c.IsAccepted := by
  have hiff : (ofConstruction? servedPath c).isSome ↔
      (moduleOptions? c).isSome ∧ (locate? servedPath c.target).isSome := by
    unfold ofConstruction?
    cases moduleOptions? c <;> cases locate? servedPath c.target <;> simp
  rw [hiff, isSome_moduleOptions?_iff, isSome_locate?_iff]
  exact ⟨fun h => ⟨h.1, h.2⟩, fun h => ⟨h.options, h.target⟩⟩

theorem mem_among {path : String} {found : List Construction} {w : KnownWorker} :
    w ∈ among path found ↔ ∃ c ∈ found, ofConstruction? (UrlPath.normalize path) c = some w :=
  List.mem_filterMap

/-- The workers of a script are known in the order of their argument lists. -/
theorem pairwise_among {path : String} {found : List Construction}
    (h : found.Pairwise (·.start < ·.start)) : (among path found).Pairwise (·.start < ·.start) := by
  refine List.Pairwise.filterMap _ (fun c d hlt w hw v hv => ?_) h
  rw [(span_eq hw).1, (span_eq hv).1]
  exact hlt

/-- A known worker can be written over its argument list. -/
theorem fits_edit {text path : String} {found : List Construction}
    (hfound : findConstructions text = .ok found) {w : KnownWorker} (hw : w ∈ among path found) :
    w.start < w.stop ∧ w.edit.Fits text.toList := by
  obtain ⟨c, hc, hcw⟩ := mem_among.1 hw
  obtain ⟨ms, hmask, rfl⟩ := CanonicalScript.exists_maskCharacters hfound
  obtain ⟨options, hoptions, -⟩ := exists_pieces (c := c) (by rw [hcw]; rfl)
  obtain ⟨hstart, hstop⟩ := span_eq hcw
  have hfits := Construction.fits hc (by rw [hoptions]; rfl) w.arguments
  rw [← hstart, ← hstop] at hfits
  rw [← map_char_maskCharacters hmask]
  exact hfits

end KnownWorker

/-! ## Written workers -/

namespace CanonicalScript

/-- What a script is that was started with a registry, after its known workers, given those that
were written. -/
structure Writes (r : WorkerRegistry) (known written : List KnownWorker) (s : CanonicalScript) :
    Prop where
  sublist : written.Sublist known
  /-- A worker is left out only if its construction starts inside of one that was written. -/
  exists_overlap : ∀ w ∈ known, w ∉ written → ∃ v ∈ written, v.start < w.start ∧ w.start < v.stop
  edits_eq : s.buffer.edits = written.map KnownWorker.edit
  workers_eq : s.workers = written.map (·.entry.requestedPath)
  registers : r.Registers (written.map (·.entry)) s.registry

namespace Writes

variable {r : WorkerRegistry} {known written : List KnownWorker} {s : CanonicalScript}
  {text : String}

theorem nil (text : String) (r : WorkerRegistry) : Writes r [] [] ⟨{ base := text }, [], r⟩ :=
  ⟨.refl [], by simp, rfl, rfl, .nil r⟩

/-- A construction behind all others is written, unless it starts inside of one. -/
theorem add (h : s.Writes r known written) (hs : s.Rewrites text known) {w : KnownWorker}
    (hlt : w.start < w.stop) (hfits : w.edit.Fits text.toList) (hnew : w.entry.IsNew)
    (hbehind : ∀ v ∈ known, v.start < w.start) :
    ∃ written', (s.add w).Writes r (known ++ [w]) written' := by
  have hstart : ∀ v ∈ written, v.start < w.start := fun v hv => hbehind v (h.sublist.subset hv)
  unfold CanonicalScript.add
  cases hb : s.buffer.overwrite w.start w.stop w.arguments with
  | error error =>
    refine ⟨written, h.sublist.trans (List.sublist_append_left _ _), ?_, h.edits_eq, h.workers_eq,
      h.registers⟩
    intro u hu hnot
    rcases List.mem_append.1 hu with hu | hu
    · exact h.exists_overlap u hu hnot
    · obtain rfl := List.mem_singleton.1 hu
      obtain ⟨d, hd, hconflicts⟩ := EditBuffer.exists_conflicts hb (hs.base_eq ▸ hfits)
      rw [h.edits_eq] at hd
      obtain ⟨v, hv, rfl⟩ := List.mem_map.1 hd
      refine ⟨v, hv, hstart v hv, ?_⟩
      by_contra hstop
      have hstop : v.edit.stop ≤ u.edit.start := Nat.le_of_not_lt hstop
      exact Edit.not_conflicts (e := u.edit) hlt (hs.wf.fits _ (h.edits_eq ▸ hd)).le
        (.inl hstop) hconflicts
  | ok buffer =>
    obtain ⟨-, hconflicts, rfl⟩ := EditBuffer.overwrite_eq_ok hb
    have hle : ∀ d ∈ s.buffer.edits, d.start ≤ d.stop := fun d hd => (hs.wf.fits d hd).le
    have hstop : ∀ d ∈ s.buffer.edits, d.stop ≤ w.edit.start := by
      intro d hd
      rcases Edit.stop_le_or_le_start (e := w.edit) hlt (hconflicts d hd) with hstop | hstop
      · exact hstop
      · rw [h.edits_eq] at hd
        obtain ⟨v, hv, rfl⟩ := List.mem_map.1 hd
        have hlt' : w.start < w.stop := hlt
        have : w.stop ≤ v.start := hstop
        have := hstart v hv
        omega
    refine ⟨written ++ [w], h.sublist.append (.refl _), ?_, ?_, ?_, ?_⟩
    · intro u hu hnot
      rw [List.mem_append, not_or] at hnot
      rcases List.mem_append.1 hu with hu | hu
      · obtain ⟨v, hv, hvu⟩ := h.exists_overlap u hu hnot.1
        exact ⟨v, List.mem_append_left _ hv, hvu⟩
      · exact absurd hu hnot.2
    · change EditBuffer.insert w.edit s.buffer.edits = _
      rw [EditBuffer.insert_of_forall_stop_le hle hstop, h.edits_eq, List.map_append]
      rfl
    · simp only
      rw [h.workers_eq, List.map_append]
      rfl
    · simp only
      rw [List.map_append]
      exact h.registers.register hnew

theorem foldl (h : s.Writes r known written) (hs : s.Rewrites text known) {ws : List KnownWorker}
    (hws : ∀ w ∈ ws, (w.start < w.stop ∧ w.edit.Fits text.toList) ∧ w.entry.IsNew)
    (hordered : (known ++ ws).Pairwise (·.start < ·.start)) :
    ∃ written', (ws.foldl CanonicalScript.add s).Writes r (known ++ ws) written' := by
  induction ws generalizing known written s with
  | nil => exact ⟨written, by simpa using h⟩
  | cons w ws ih =>
    obtain ⟨⟨hlt, hfits⟩, hnew⟩ := hws w List.mem_cons_self
    obtain ⟨written', h'⟩ := h.add hs hlt hfits hnew fun v hv =>
      (List.pairwise_append.1 hordered).2.2 v hv w List.mem_cons_self
    rw [List.append_cons] at hordered ⊢
    exact ih h' (hs.add w) (fun v hv => hws v (List.mem_cons_of_mem w hv)) hordered

/-- The first worker of a script is written. -/
theorem ne_nil (h : s.Writes r known written) (hknown : known ≠ []) : written ≠ [] := by
  rintro rfl
  obtain ⟨w, ws, rfl⟩ := List.exists_cons_of_ne_nil hknown
  obtain ⟨v, hv, -⟩ := h.exists_overlap w List.mem_cons_self List.not_mem_nil
  cases hv

end Writes

theorem addScript_eq_of_forall_ne {text path : String} {r : WorkerRegistry}
    (h : ∀ s, ofText text path r ≠ .ok (some s)) : r.addScript (text, path) = r := by
  unfold WorkerRegistry.addScript
  split
  · rename_i s hs
    exact absurd hs (h s)
  · rfl

/-- A script is rewritten if a worker is written. -/
theorem ofText_eq_foldl {text path : String} {found : List Construction}
    (hfound : findConstructions text = .ok found) {r : WorkerRegistry} {s : CanonicalScript}
    (hs : (KnownWorker.among path found).foldl add ⟨{ base := text }, [], r⟩ = s)
    (hworkers : s.workers ≠ []) : ofText text path r = .ok (some s) := by
  have hempty : s.workers.isEmpty = false := by simpa using hworkers
  unfold ofText
  rw [hfound]
  change Except.ok (if ((KnownWorker.among path found).foldl add
    ⟨{ base := text }, [], r⟩).workers.isEmpty then none else _) = _
  rw [hs, hempty]
  exact congrArg (fun script => Except.ok (some script)) hs

/-- A script that does not lex, or has no accepted construction, is not rewritten, and nothing is
registered. Any other one becomes its text with the argument lists of accepted constructions
replaced by canonical arguments, and nothing else; only constructions that start inside of a
replaced argument list are left out. It lists the paths of the workers that were written, in the
order in which they stand, and these are what is registered. -/
theorem writes_ofText (text path : String) (r : WorkerRegistry) :
    match findConstructions text with
    | .error e => ofText text path r = .error e ∧ r.addScript (text, path) = r
    | .ok found =>
      found.Pairwise (·.start < ·.start) ∧
      (∀ c ∈ found, (KnownWorker.ofConstruction? (UrlPath.normalize path) c).isSome ↔
        c.IsAccepted) ∧
      ((∀ c ∈ found, ¬ c.IsAccepted) →
        ofText text path r = .ok none ∧ r.addScript (text, path) = r) ∧
      ((∃ c ∈ found, c.IsAccepted) →
        ∃ s written, ofText text path r = .ok (some s) ∧ r.addScript (text, path) = s.registry ∧
          s.Writes r (KnownWorker.among path found) written ∧
          Edit.Replaces 0 (written.map KnownWorker.edit) text.toList s.buffer.text.toList) := by
  cases hfound : findConstructions text with
  | error e =>
    have herror : ofText text path r = .error e := by
      unfold ofText
      rw [hfound]
      rfl
    exact ⟨herror, addScript_eq_of_forall_ne fun s hs => by rw [herror] at hs; cases hs⟩
  | ok found =>
    obtain ⟨ms, hmask, rfl⟩ := exists_maskCharacters hfound
    have hordered := pairwise_findFrom none 0 ms
    refine ⟨hordered, fun c _ => KnownWorker.isSome_ofConstruction?_iff, fun hnone => ?_,
      fun hsome => ?_⟩
    · have hnone : ofText text path r = .ok none := by
        refine ofText_eq_none hmask (fun c hc => ?_) r
        by_contra hknown
        exact hnone c hc
          (KnownWorker.isSome_ofConstruction?_iff.1 (Option.isSome_iff_ne_none.2 hknown))
      exact ⟨hnone, addScript_eq_of_forall_ne fun s hs => by rw [hnone] at hs; cases hs⟩
    · obtain ⟨c, hc, hcw⟩ := hsome
      have hcw : (KnownWorker.ofConstruction? (UrlPath.normalize path) c).isSome :=
        KnownWorker.isSome_ofConstruction?_iff.2 hcw
      obtain ⟨w, hw⟩ := Option.isSome_iff_exists.1 hcw
      have hknown := List.ne_nil_of_mem (KnownWorker.mem_among.2 ⟨c, hc, hw⟩)
      have hrewrites := Rewrites.foldl (.nil text r)
        (KnownWorker.among path (findFrom [] none 0 ms))
      have hws : ∀ w ∈ KnownWorker.among path (findFrom [] none 0 ms),
          (w.start < w.stop ∧ w.edit.Fits text.toList) ∧ w.entry.IsNew := by
        intro w hw
        obtain ⟨d, -, hd⟩ := KnownWorker.mem_among.1 hw
        exact ⟨KnownWorker.fits_edit hfound hw, KnownWorker.isNew_entry hd⟩
      obtain ⟨written, hwrites⟩ := Writes.foldl (.nil text r) (.nil text r) hws
        (KnownWorker.pairwise_among hordered)
      rw [List.nil_append] at hrewrites hwrites
      generalize hs : (KnownWorker.among path (findFrom [] none 0 ms)).foldl add
        ⟨{ base := text }, [], r⟩ = s at hrewrites hwrites
      have htext : ofText text path r = .ok (some s) := by
        refine ofText_eq_foldl hfound hs ?_
        rw [hwrites.workers_eq]
        exact fun hmap => hwrites.ne_nil hknown (List.map_eq_nil_iff.1 hmap)
      have hreplaces := hrewrites.wf.replaces
      rw [hwrites.edits_eq, hrewrites.base_eq] at hreplaces
      refine ⟨s, written, htext, ?_, hwrites, hreplaces⟩
      unfold WorkerRegistry.addScript
      rw [htext]

/-- One construction inside of the options of another one, where a comment hides it from the reader
of options: only the outer one is written. -/
theorem writes_ofText_nested :
    ∃ s written found,
      ofText ("new Worker('./a.js', \x7btype: 'module', //\r/*\n" ++
        "new Worker('./b.js', \x7btype: 'module'\x7d) //\r*/\n\x7d); 1") "/m.js" {} = .ok (some s) ∧
      s.buffer.text = "new Worker(\"/a.js\", \x7b\"type\":\"module\"\x7d); 1" ∧
      found.length = 2 ∧ (∀ c ∈ found, c.IsAccepted) ∧
        s.Writes {} (KnownWorker.among "/m.js" found) written ∧ written.length = 1 := by
  obtain ⟨text, htext⟩ : ∃ text, text = ("new Worker('./a.js', \x7btype: 'module', //\r/*\n" ++
    "new Worker('./b.js', \x7btype: 'module'\x7d) //\r*/\n\x7d); 1") := ⟨_, rfl⟩
  have hsome : ∃ s ∈ (ofText text "/m.js" {}).toOption.join, s.workers.length = 1 ∧
      s.buffer.text = "new Worker(\"/a.js\", \x7b\"type\":\"module\"\x7d); 1" := by
    rw [htext]
    decide +kernel
  have htwo : ∃ found ∈ (findConstructions text).toOption, found.length = 2 ∧
      ∀ c ∈ found, (KnownWorker.ofConstruction? "/m.js" c).isSome := by
    rw [htext]
    decide +kernel
  obtain ⟨s, hs, hworkers, hwritten⟩ := exists_ofText_eq_some hsome
  obtain ⟨found, hfound, -⟩ := rewrites_ofText hs
  have hwrites := writes_ofText text "/m.js" {}
  rw [hfound] at htwo hwrites
  obtain ⟨_, heq, htwo, hknown⟩ := htwo
  obtain rfl := Option.some.inj heq
  have haccepted : ∀ c ∈ found, c.IsAccepted := fun c hc =>
    KnownWorker.isSome_ofConstruction?_iff.1 (hknown c hc)
  obtain ⟨c, hc⟩ := List.exists_mem_of_length_pos (l := found) (by omega)
  obtain ⟨s', written, hs', -, hwrites, -⟩ := hwrites.2.2.2 ⟨c, hc, haccepted c hc⟩
  obtain rfl : s = s' := Option.some.inj (Except.ok.inj (hs.symm.trans hs'))
  refine ⟨s, written, found, htext ▸ hs, hwritten, htwo, haccepted, hwrites, ?_⟩
  rw [← hworkers, hwrites.workers_eq, List.length_map]

end CanonicalScript

end ModuleWorkers
