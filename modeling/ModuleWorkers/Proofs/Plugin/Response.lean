import ModuleWorkers.Proofs.Plugin.Changes
import ModuleWorkers.Proofs.SourceMap.Reference

/-!
# What served scripts keep of their texts

A buffer is careful (`EditBuffer.IsCareful`) if it replaces argument lists of workers and stretches
of comments only, and adds at most a line that refers to a map. Scripts with canonical constructions
are, but their references to maps are found without a look at literals, so the one that is replaced
can stand in a string. `PluginState.respond_isCareful_iff` says for every response whether it is
careful: exactly if the reference of the script is harmless (`ServedScript.IsHarmless`).
-/

namespace ModuleWorkers

open Text SourceMap

/-! ## Careful edits -/

/-- The characters of a text from one byte offset to another. -/
def slice (start stop : Nat) (cs : List Char) : List Char :=
  (splitBytes (stop - start) (splitBytes start cs).2).1

/-- Whether a stretch of a script is one of comments: nothing of it is left when it is masked. -/
def IsHidden (text : String) (start stop : Nat) : Prop :=
  start < stop ∧ ∃ masked, mask text = .ok masked ∧ (slice start stop masked.toList).all isBlank

/-- Whether a stretch of a script served at a path is the argument list of a known worker. -/
def IsArguments (path text : String) (start stop : Nat) : Prop :=
  ∃ found, findConstructions text = .ok found ∧
    ∃ w ∈ KnownWorker.among path found, w.start = start ∧ w.stop = stop

/-- Whether an edit adds a line at the end of a text that refers to a map. -/
def Edit.IsMapLine (text : String) (e : Edit) : Prop :=
  e.start = byteLength text.toList ∧ e.stop = byteLength text.toList ∧
    ∃ name, e.content = "\n" ++ "//# sourceMappingURL=" ++ name

/-- Whether the edits of a script served at a path leave its code alone, the argument lists of
workers apart. -/
def EditBuffer.IsCareful (path : String) (b : EditBuffer) : Prop :=
  ∃ edits tail, b.edits = edits ++ tail ∧ tail.length ≤ 1 ∧
    (∀ e ∈ edits, IsArguments path b.base e.start e.stop ∨ IsHidden b.base e.start e.stop) ∧
    ∀ e ∈ tail, e.IsMapLine b.base

theorem EditBuffer.isCareful_of_forall {path : String} {b : EditBuffer}
    (h : ∀ e ∈ b.edits, IsArguments path b.base e.start e.stop ∨ IsHidden b.base e.start e.stop) :
    b.IsCareful path :=
  ⟨b.edits, [], (List.append_nil b.edits).symm, Nat.zero_le 1, h, by simp⟩

namespace ServedScript

/-- Whether a reference of a script stays where it is. -/
def Keeps (s : ServedScript) (fs : FileSystem) (r : Reference) : Prop :=
  (s.loadMap? fs r.url).isSome ∧ (s.keptPath? r.url).isSome

/-- Whether no code can go when a reference of a script is replaced: it stays where it is, the
arguments of a worker that were written are in its way, or it is a comment. -/
def IsHarmless (s : ServedScript) (fs : FileSystem) (b : EditBuffer) (r : Reference) : Prop :=
  s.Keeps fs r ∨ (∃ e ∈ b.edits, Edit.conflicts ⟨r.start, r.stop, ""⟩ e) ∨
    IsHidden b.base r.start r.stop

/-! ## The place of a map -/

/-- What the edits of a script become when its map gets a place. -/
inductive Placed (s : ServedScript) (fs : FileSystem) (b : EditBuffer) : EditBuffer → Prop
  | line {b' : EditBuffer} (find : Reference.find? b.base = none)
    (append : b.append ("\n" ++ comment s.basename) = .ok b') : Placed s fs b b'
  | kept {r : Reference} (find : Reference.find? b.base = some r) (keeps : s.Keeps fs r) :
    Placed s fs b b
  | blocked {r : Reference} {error : EditError} (find : Reference.find? b.base = some r)
    (keeps : ¬ s.Keeps fs r)
    (overwrite : b.overwrite r.start r.stop (comment s.basename) = .error error) : Placed s fs b b
  | replaced {r : Reference} {b' : EditBuffer} (find : Reference.find? b.base = some r)
    (keeps : ¬ s.Keeps fs r)
    (overwrite : b.overwrite r.start r.stop (comment s.basename) = .ok b') : Placed s fs b b'

theorem attachMap_fst (s : ServedScript) (fs : FileSystem) (b : EditBuffer) :
    (s.attachMap fs b).1 = match s.placeMap fs b with
      | .error _ => b
      | .ok p => p.buffer := by
  unfold attachMap
  cases s.placeMap fs b with
  | error error => rfl
  | ok p =>
    dsimp only
    cases s.servedMap p with
    | error error => rfl
    | ok m => rfl

theorem attachMap_of_keeps {s : ServedScript} {fs : FileSystem} {b : EditBuffer} {r : Reference}
    (h : Reference.find? b.base = some r) (hk : s.Keeps fs r) : (s.attachMap fs b).1 = b := by
  obtain ⟨inner, hinner⟩ := Option.isSome_iff_exists.1 hk.1
  obtain ⟨path, hpath⟩ := Option.isSome_iff_exists.1 hk.2
  rw [attachMap_fst, placeMap, h]
  simp only [hinner, hpath]

/-- A reference that does not stay is replaced unless another edit is in the way. -/
theorem attachMap_of_not_keeps {s : ServedScript} {fs : FileSystem} {b : EditBuffer} {r : Reference}
    (h : Reference.find? b.base = some r) (hk : ¬ s.Keeps fs r) :
    (s.attachMap fs b).1 = match b.overwrite r.start r.stop (comment s.basename) with
      | .error _ => b
      | .ok b' => b' := by
  rw [attachMap_fst, placeMap, h]
  simp only
  cases hinner : s.loadMap? fs r.url with
  | none => cases b.overwrite r.start r.stop (comment s.basename) <;> rfl
  | some inner =>
    cases hpath : s.keptPath? r.url with
    | none => cases b.overwrite r.start r.stop (comment s.basename) <;> rfl
    | some path => exact absurd ⟨by rw [hinner]; rfl, by rw [hpath]; rfl⟩ hk

theorem isMapLine_comment (text basename : String) :
    (⟨byteLength text.toList, byteLength text.toList, "\n" ++ comment basename⟩ : Edit).IsMapLine
      text := by
  have hassoc : ∀ a b c d : String, a ++ (b ++ c ++ d) = a ++ b ++ (c ++ d) := by
    intro a b c d
    rw [String.append_assoc, String.append_assoc]
  exact ⟨rfl, rfl, basename ++ ".map", hassoc "\n" "//# sourceMappingURL=" basename ".map"⟩

theorem placed_attachMap {s : ServedScript} {fs : FileSystem} {b : EditBuffer} (hb : b.WF) :
    s.Placed fs b (s.attachMap fs b).1 := by
  cases hfind : Reference.find? b.base with
  | none =>
    have happend := hb.append_eq_ok ("\n" ++ comment s.basename)
    rw [attachMap_fst, placeMap, hfind]
    simp only
    rw [happend]
    exact .line hfind happend
  | some r =>
    by_cases hk : s.Keeps fs r
    · rw [attachMap_of_keeps hfind hk]
      exact .kept hfind hk
    · rw [attachMap_of_not_keeps hfind hk]
      cases hb' : b.overwrite r.start r.stop (comment s.basename) with
      | error error => exact .blocked hfind hk hb'
      | ok b' => exact .replaced hfind hk hb'

namespace Placed

variable {s : ServedScript} {fs : FileSystem} {b b' : EditBuffer}

theorem base_eq (h : s.Placed fs b b') : b'.base = b.base := by
  cases h with
  | line _ append =>
    obtain ⟨-, -, rfl⟩ := EditBuffer.overwrite_eq_ok append
    rfl
  | kept => rfl
  | blocked => rfl
  | replaced _ _ overwrite =>
    obtain ⟨-, -, rfl⟩ := EditBuffer.overwrite_eq_ok overwrite
    rfl

theorem wf (h : s.Placed fs b b') (hb : b.WF) : b'.WF := by
  cases h with
  | line _ append => exact hb.overwrite append
  | kept => exact hb
  | blocked => exact hb
  | replaced _ _ overwrite => exact hb.overwrite overwrite

/-- If the edits in front are argument lists, and all of them that could be, only a replaced
reference can do harm. -/
theorem isCareful_iff {path : String} (h : s.Placed fs b b') (hb : b.WF)
    (harguments : ∀ e ∈ b.edits, IsArguments path b.base e.start e.stop)
    (hall : ∀ e : Edit, e.start < e.stop → e.Fits b.base.toList →
      IsArguments path b.base e.start e.stop → ∃ d ∈ b.edits, e.conflicts d) :
    b'.IsCareful path ↔ ∀ r, Reference.find? b.base = some r → s.IsHarmless fs b r := by
  have hcareful : b.IsCareful path :=
    EditBuffer.isCareful_of_forall fun e he => .inl (harguments e he)
  cases h with
  | line find append =>
    rw [hb.append_eq_ok] at append
    cases append
    refine ⟨fun _ r hr => ?_, fun _ => ?_⟩
    · rw [find] at hr
      cases hr
    · refine ⟨b.edits, [_], rfl, Nat.le_refl 1, fun e he => .inl (harguments e he), ?_⟩
      intro e he
      cases List.mem_singleton.1 he
      exact isMapLine_comment _ _
  | kept find keeps =>
    refine ⟨fun _ r' hr' => ?_, fun _ => hcareful⟩
    cases find.symm.trans hr'
    exact .inl keeps
  | @blocked r error find keeps overwrite =>
    refine ⟨fun _ r' hr' => ?_, fun _ => hcareful⟩
    cases find.symm.trans hr'
    have hconflicts := EditBuffer.exists_conflicts overwrite (Reference.fits_of_find? find _)
    exact .inr (.inl hconflicts)
  | @replaced r _ find keeps overwrite =>
    obtain ⟨hfits, hfree, rfl⟩ := EditBuffer.overwrite_eq_ok overwrite
    have hlt := Reference.start_lt_stop find
    constructor
    · rintro ⟨edits, tail, hsplit, -, hedits, htail⟩ r' hr'
      cases find.symm.trans hr'
      have hmem : (⟨r.start, r.stop, comment s.basename⟩ : Edit) ∈ edits ++ tail :=
        hsplit ▸ EditBuffer.mem_insert.2 (.inl rfl)
      rcases List.mem_append.1 hmem with hmem | hmem
      · rcases hedits _ hmem with hargs | hhidden
        · -- An argument list that is replaced now would have been written before.
          obtain ⟨d, hd, hc⟩ := hall _ hlt hfits hargs
          exact absurd hc (hfree d hd)
        · exact .inr (.inr hhidden)
      · obtain ⟨hstart, hstop, -⟩ := htail _ hmem
        simp only at hstart hstop
        omega
    · intro hharmless
      rcases hharmless r find with hk | ⟨d, hd, hc⟩ | hhidden
      · exact absurd hk keeps
      · exact absurd hc (hfree d hd)
      · refine EditBuffer.isCareful_of_forall fun e he => ?_
        rcases EditBuffer.mem_insert.1 he with rfl | he
        · exact .inr hhidden
        · exact .inl (harguments e he)

end Placed

end ServedScript

/-! ## Responses -/

/-- Whether a response is careful hangs on the reference that its script ends in, if it ends in
one: it must be harmless. -/
theorem PluginState.respond_isCareful_iff {s : PluginState} {fs : FileSystem}
    {path body text : String} {isScript : Bool}
    (h : (s.respond fs path body isScript).1 = some text) :
    ∃ script, CanonicalScript.ofText body path s.registry = .ok (some script) ∧
      ∃ buffer, buffer = ((ServedScript.ofPath s.root path).attachMap fs script.buffer).1 ∧
        buffer.base = body ∧ buffer.text = text ∧ buffer.WF ∧
        (buffer.IsCareful path ↔ ∀ r, Reference.find? body = some r →
          (ServedScript.ofPath s.root path).IsHarmless fs script.buffer r) := by
  unfold respond at h
  rcases s.canonicalize_cases path body isScript with hnone | ⟨script, hscript, hsome⟩
  · rw [hnone] at h
    cases h
  · obtain ⟨found, hfound, hr⟩ := CanonicalScript.rewrites_ofText hscript
    have hplaced : (ServedScript.ofPath s.root path).Placed fs script.buffer _ :=
      ServedScript.placed_attachMap hr.wf
    have harguments : ∀ e ∈ script.buffer.edits,
        IsArguments path script.buffer.base e.start e.stop := by
      intro e he
      obtain ⟨w, hw, rfl⟩ := hr.exists_of_mem e he
      exact ⟨found, hr.base_eq ▸ hfound, w, hw, rfl, rfl⟩
    have hall : ∀ e : Edit, e.start < e.stop → e.Fits script.buffer.base.toList →
        IsArguments path script.buffer.base e.start e.stop →
        ∃ d ∈ script.buffer.edits, e.conflicts d := by
      rintro ⟨start, stop, content⟩ hlt hfits ⟨found', hfound', w, hw, rfl, rfl⟩
      rw [hr.base_eq] at hfound' hfits
      cases hfound.symm.trans hfound'
      exact hr.exists_conflicts w hw hlt ⟨hfits.le, hfits.start, hfits.stop⟩
    refine ⟨script, hscript, _, rfl, hplaced.base_eq.trans hr.base_eq, ?_, hplaced.wf hr.wf, ?_⟩
    · rw [hsome] at h
      simp only at h
      split at h
      · rename_i hattach
        rw [hattach]
        exact Option.some.inj h
      · rename_i hattach
        rw [hattach]
        exact Option.some.inj h
    · have hiff := hplaced.isCareful_iff hr.wf harguments hall
      rw [hr.base_eq] at hiff
      exact hiff

theorem PluginState.respond_isCareful_comment :
    ∃ buffer : EditBuffer,
      buffer.base =
        "new Worker('./w.js', \x7btype: 'module'\x7d); //# sourceMappingURL=missing.map" ∧
      buffer.text =
        "new Worker(\"/w.js\", \x7b\"type\":\"module\"\x7d); //# sourceMappingURL=a.js.map" ∧
      buffer.WF ∧ buffer.IsCareful "/a.js" := by
  let body := "new Worker('./w.js', \x7btype: 'module'\x7d); //# sourceMappingURL=missing.map"
  have hrespond : (respond { root := ⟨"/app"⟩ } {} "/a.js" body true).1 = some
      "new Worker(\"/w.js\", \x7b\"type\":\"module\"\x7d); //# sourceMappingURL=a.js.map" := by
    decide +kernel
  have hfind : Reference.find? body = some ⟨"missing.map", 40, 72⟩ := by decide +kernel
  have hmask : mask body = .ok
      "new Worker('      ', \x7btype: '      '\x7d);                                 " := by
    decide +kernel
  obtain ⟨script, hscript, buffer, -, hbase, htext, hwf, hiff⟩ := respond_isCareful_iff hrespond
  refine ⟨buffer, hbase, htext, hwf, hiff.2 fun r hr => ?_⟩
  cases hfind.symm.trans hr
  obtain ⟨_, -, hr⟩ := CanonicalScript.rewrites_ofText hscript
  refine .inr (.inr ⟨by decide, _, hr.base_eq ▸ hmask, ?_⟩)
  decide +kernel

/-- A script whose last string holds a reference loses the end of the string: no careful edits lead
to its response. -/
theorem PluginState.respond_not_isCareful_string :
    ∃ text, (respond { root := ⟨"/app"⟩ } {} "/a.js"
        "new Worker('./w.js', \x7btype: 'module'\x7d); const s = \"//# sourceMappingURL=x\";"
        true).1 = some text ∧
      ¬ ∃ buffer : EditBuffer,
        buffer.base =
          "new Worker('./w.js', \x7btype: 'module'\x7d); const s = \"//# sourceMappingURL=x\";" ∧
        buffer.text = text ∧ buffer.WF ∧ buffer.IsCareful "/a.js" := by
  let body := "new Worker('./w.js', \x7btype: 'module'\x7d); const s = \"//# sourceMappingURL=x\";"
  let front := "new Worker('./w.js', \x7btype: 'module'\x7d); const s = \"//# sourceMappingURL=x\""
  let masked :=
    "new Worker('      ', \x7btype: '      '\x7d); const s = \"                      \";"
  let found : Construction := ⟨11, 37, .specifier "./w.js", some "\x7btype: 'module'\x7d"⟩
  have hfound : findConstructions body = .ok [found] := by decide +kernel
  have hmask : mask body = .ok masked := by decide +kernel
  have hshown : ∀ start < 75, (slice start 75 masked.toList).all isBlank = false := by
    decide +kernel
  have hwritten : ∀ w ∈ KnownWorker.among "/a.js" [found], w.stop ≤ 74 := by decide +kernel
  have hend : body.toList = front.toList ++ [';'] := by decide +kernel
  have hfront : byteLength front.toList = 74 := by decide +kernel
  have hbody : byteLength body.toList = 75 := by
    rw [hend, byteLength_append, hfront]
    rfl
  let text := "new Worker(\"/w.js\", \x7b\"type\":\"module\"\x7d); " ++
    "const s = \"//# sourceMappingURL=a.js.map"
  refine ⟨text, by decide +kernel, ?_⟩
  rintro ⟨buffer, hbase, htext, hwf, edits, tail, hsplit, -, hedits, htail⟩
  have hline : '\n' ∉ buffer.text.toList := by
    rw [htext]
    decide +kernel
  -- No edit reaches the semicolon at the end, so it would still be there.
  have hstop : ∀ e ∈ buffer.edits, e.stop ≤ byteLength front.toList := by
    intro e he
    have hlength := isBoundary_le (hwf.fits e he).stop
    rw [hbase, hbody] at hlength
    rw [hfront]
    rcases List.mem_append.1 (hsplit ▸ he) with hmem | hmem
    · rcases hedits e hmem with ⟨_, hfound', w, hw, -, hw'⟩ | ⟨hlt, _, hmask', hblank⟩
      · rw [hbase] at hfound'
        cases hfound.symm.trans hfound'
        exact hw' ▸ hwritten w hw
      · rw [hbase] at hmask'
        cases hmask.symm.trans hmask'
        by_contra hgt
        have hlast : e.stop = 75 := by omega
        rw [hlast] at hlt hblank
        rw [hshown e.start hlt] at hblank
        cases hblank
    · obtain ⟨-, -, name, hname⟩ := htail e hmem
      refine absurd (EditBuffer.mem_text_of_mem_content he ?_) hline
      rw [hname, String.append_assoc, String.toList_append]
      exact List.mem_append_left _ (by decide)
  obtain ⟨cs, hcs⟩ := EditBuffer.exists_text_eq hwf front.toList [';']
    (hbase ▸ hend) hstop
  rw [htext] at hcs
  have hlast := congrArg List.getLast? hcs
  rw [List.getLast?_concat] at hlast
  revert hlast
  decide +kernel

end ModuleWorkers
