import ModuleWorkers.Proofs.Path.Order
import ModuleWorkers.Worker.Registry

/-!
# Entries of workers as time passes

`WorkerRegistry.Later` relates a registry to what it becomes while no build begins or ends: entries
stay, with their files and listeners; bundles are at most dropped, and noted changes are not
forgotten. Registrations (`WorkerRegistry.later_register`) and changes of files lead to later
registries.

`WorkerRegistry.watches` lists the entries that have a listener, with the files it waits for. Only
the end of a build changes it.
-/

namespace ModuleWorkers

namespace WorkerEntry

/-- What an entry is before it is built for the first time. -/
structure IsNew (e : WorkerEntry) : Prop where
  bundle : e.bundle = none
  dependencies : e.dependencies = []
  listener : e.listener = none
  changes : e.changes = none

/-- What an entry can become while no build of it begins or ends. -/
structure Later (e e' : WorkerEntry) : Prop where
  requestedPath : e'.requestedPath = e.requestedPath
  dependencies : e'.dependencies = e.dependencies
  listener : e'.listener = e.listener
  bundle : e'.bundle = e.bundle ∨ e'.bundle = none
  idle : e.changes = none → e'.changes = none
  noted : ∀ cs, e.changes = some cs →
    ∃ cs', e'.changes = some cs' ∧ ∀ f, cs.contains f → cs'.contains f

namespace Later

theorem refl (e : WorkerEntry) : e.Later e :=
  ⟨rfl, rfl, rfl, .inl rfl, id, fun cs h => ⟨cs, h, fun _ => id⟩⟩

theorem trans {e e' e'' : WorkerEntry} (h : e.Later e') (h' : e'.Later e'') : e.Later e'' where
  requestedPath := h'.requestedPath.trans h.requestedPath
  dependencies := h'.dependencies.trans h.dependencies
  listener := h'.listener.trans h.listener
  bundle := by
    rcases h'.bundle with hb | hb
    · rw [hb]; exact h.bundle
    · exact .inr hb
  idle hn := h'.idle (h.idle hn)
  noted cs hcs := by
    obtain ⟨cs', hcs', hsub⟩ := h.noted cs hcs
    obtain ⟨cs'', hcs'', hsub'⟩ := h'.noted cs' hcs'
    exact ⟨cs'', hcs'', fun f hf => hsub' f (hsub f hf)⟩

/-- A bundle that is still there was there before. -/
theorem bundle_eq {e e' : WorkerEntry} (h : e.Later e') {b : WorkerBundle}
    (hb : e'.bundle = some b) : e.bundle = some b := by
  rcases h.bundle with he | he
  · rw [← he, hb]
  · rw [he] at hb; cases hb

theorem bundle_none {e e' : WorkerEntry} (h : e.Later e') (hb : e.bundle = none) :
    e'.bundle = none := by
  rcases h.bundle with he | he
  · rw [he, hb]
  · exact he

theorem changes_isSome {e e' : WorkerEntry} (h : e.Later e') :
    e'.changes.isSome = e.changes.isSome := by
  cases hc : e.changes with
  | none => rw [h.idle hc]
  | some cs =>
    obtain ⟨cs', hcs', -⟩ := h.noted cs hc
    rw [hcs']
    rfl

/-- What is not built yet is not built by time. -/
theorem isNew {e e' : WorkerEntry} (h : e.Later e') (hn : e.IsNew) : e'.IsNew where
  bundle := h.bundle_none hn.bundle
  dependencies := h.dependencies.trans hn.dependencies
  listener := h.listener.trans hn.listener
  changes := h.idle hn.changes

end Later

theorem later_recordChange (e : WorkerEntry) (file : Path) : e.Later (e.recordChange file) where
  requestedPath := rfl
  dependencies := rfl
  listener := rfl
  bundle := .inl rfl
  idle h := by simp [recordChange, h]
  noted cs h := ⟨PathSet.insert file cs, by simp [recordChange, h], fun f hf => by simp [hf]⟩

/-- The change that was noted last is among those that were noted. -/
theorem contains_recordChange {e : WorkerEntry} {file : Path} {cs : PathSet}
    (h : (e.recordChange file).changes = some cs) : cs.contains file := by
  obtain ⟨ds, -, rfl⟩ := Option.map_eq_some_iff.1 h
  simp

theorem later_dropBundle (e : WorkerEntry) : e.Later e.dropBundle :=
  ⟨rfl, rfl, rfl, .inr rfl, id, fun cs h => ⟨cs, h, fun _ => id⟩⟩

theorem later_invalidate (e : WorkerEntry) (file : Path) : e.Later (e.invalidate file) := by
  unfold invalidate
  split
  · exact later_dropBundle e
  · exact Later.refl e

/-- A bundle that is not dropped does not depend on the file. -/
theorem not_dependsOn_of_invalidate {e : WorkerEntry} {file : Path} {b : WorkerBundle}
    (h : (e.invalidate file).bundle = some b) :
    (e.invalidate file).dependencies.contains file = false := by
  unfold invalidate at *
  split at h
  · cases h
  · rename_i hd
    rw [if_neg hd]
    simpa [dependsOn, isBuilt, h] using hd

theorem later_refresh (e later : WorkerEntry) : e.Later (e.refresh later) where
  requestedPath := rfl
  dependencies := rfl
  listener := rfl
  bundle := by
    unfold refresh
    dsimp only
    split
    · exact .inl rfl
    · exact .inr rfl
  idle := id
  noted cs h := ⟨cs, h, fun _ => id⟩

end WorkerEntry

/-- The listener of an entry and the files that it waits for. -/
structure WorkerWatch where
  path : String
  listener : ListenerId
  dependencies : PathSet

/-- What an entry has watched, if it has a listener. -/
def WorkerEntry.watch? (e : WorkerEntry) : Option WorkerWatch :=
  e.listener.map fun id => ⟨e.requestedPath, id, e.dependencies⟩

theorem WorkerEntry.Later.watch?_eq {e e' : WorkerEntry} (h : e.Later e') :
    e'.watch? = e.watch? := by
  unfold watch?
  rw [h.requestedPath, h.listener, h.dependencies]

namespace WorkerRegistry

/-! ## Entries by path -/

/-- No two entries have the same path. -/
def WF (r : WorkerRegistry) : Prop := (r.entries.map (·.requestedPath)).Nodup

def watches (r : WorkerRegistry) : List WorkerWatch := r.entries.filterMap (·.watch?)

theorem requestedPath_of_get? {r : WorkerRegistry} {path : String} {e : WorkerEntry}
    (h : r.get? path = some e) : e.requestedPath = path := by
  simpa using List.find?_some h

/-- Changing all entries changes what is found. -/
theorem get?_map (r : WorkerRegistry) {f : WorkerEntry → WorkerEntry}
    (hf : ∀ e, (f e).requestedPath = e.requestedPath) (path : String) :
    get? ⟨r.entries.map f⟩ path = (r.get? path).map f := by
  unfold get?
  rw [List.find?_map]
  congr 2
  funext e
  simp [hf]

theorem get?_modify (r : WorkerRegistry) {f : WorkerEntry → WorkerEntry}
    (hf : ∀ e, (f e).requestedPath = e.requestedPath) (path q : String) :
    (r.modify path f).get? q = if path = q then (r.get? q).map f else r.get? q := by
  have hg : ∀ e : WorkerEntry, (if e.requestedPath == path then f e else e).requestedPath =
      e.requestedPath := by
    intro e
    split
    · exact hf e
    · rfl
  unfold modify
  rw [get?_map r hg]
  cases h : r.get? q with
  | none => simp
  | some e =>
    have he := requestedPath_of_get? h
    by_cases hq : path = q
    · simp [he, hq]
    · simp [he, hq, Ne.symm hq]

/-- An entry that is changed twice. -/
theorem modify_twice (r : WorkerRegistry) (path : String) {f : WorkerEntry → WorkerEntry}
    (hf : ∀ e, (f e).requestedPath = e.requestedPath) (g : WorkerEntry → WorkerEntry) :
    (r.modify path f).modify path g = r.modify path fun e => g (f e) := by
  unfold modify
  rw [List.map_map]
  congr 1
  refine List.map_congr_left fun e _ => ?_
  by_cases he : e.requestedPath == path
  · simp only [Function.comp_apply, if_pos he, hf]
  · simp only [Function.comp_apply, if_neg he]

/-- The entry of a path among the others, and what changing it alone makes of the registry. -/
theorem WF.exists_split {r : WorkerRegistry} (h : r.WF) {path : String} {e : WorkerEntry}
    (he : r.get? path = some e) (f : WorkerEntry → WorkerEntry) :
    ∃ before after, r.entries = before ++ e :: after ∧
      (r.modify path f).entries = before ++ f e :: after := by
  obtain ⟨-, before, after, hr, -⟩ := List.find?_eq_some_iff_append.1 he
  have hp : e.requestedPath = path := requestedPath_of_get? he
  refine ⟨before, after, hr, ?_⟩
  have hnodup : (r.entries.map (·.requestedPath)).Nodup := h
  rw [hr, List.map_append, List.map_cons, List.nodup_append] at hnodup
  obtain ⟨-, hafter, hdisj⟩ := hnodup
  have hid : ∀ l : List WorkerEntry, (∀ d ∈ l, d.requestedPath ≠ path) →
      l.map (fun d => if d.requestedPath == path then f d else d) = l := by
    intro l hl
    conv_rhs => rw [← List.map_id l]
    exact List.map_congr_left fun d hd => by simp [hl d hd]
  have hb : ∀ d ∈ before, d.requestedPath ≠ path := by
    intro d hd hdp
    exact hdisj _ (List.mem_map_of_mem hd) _ List.mem_cons_self (hdp.trans hp.symm)
  have ha : ∀ d ∈ after, d.requestedPath ≠ path := by
    intro d hd hdp
    refine (List.nodup_cons.1 hafter).1 ?_
    rw [hp, ← hdp]
    exact List.mem_map_of_mem hd
  unfold modify
  dsimp only
  rw [hr, List.map_append, List.map_cons, hid before hb, hid after ha, if_pos (beq_iff_eq.2 hp)]

theorem WF.map {r : WorkerRegistry} (h : r.WF) {f : WorkerEntry → WorkerEntry}
    (hf : ∀ e, (f e).requestedPath = e.requestedPath) : WF ⟨r.entries.map f⟩ := by
  have he : (r.entries.map f).map (·.requestedPath) = r.entries.map (·.requestedPath) := by
    simp [hf]
  unfold WF
  rwa [he]

theorem WF.modify {r : WorkerRegistry} (h : r.WF) {f : WorkerEntry → WorkerEntry}
    (hf : ∀ e, (f e).requestedPath = e.requestedPath) (path : String) : (r.modify path f).WF := by
  refine h.map fun e => ?_
  split
  · exact hf e
  · rfl

/-! ## Watches -/

theorem watches_map (r : WorkerRegistry) {f : WorkerEntry → WorkerEntry}
    (hf : ∀ e : WorkerEntry, (f e).watch? = e.watch?) : watches ⟨r.entries.map f⟩ = r.watches := by
  unfold watches
  rw [List.filterMap_map]
  exact List.filterMap_congr fun e _ => hf e

theorem watches_modify (r : WorkerRegistry) (path : String) {f : WorkerEntry → WorkerEntry}
    (hf : ∀ e : WorkerEntry, (f e).watch? = e.watch?) : (r.modify path f).watches = r.watches := by
  refine watches_map r fun e => ?_
  split
  · exact hf e
  · rfl

theorem mem_watches {r : WorkerRegistry} {path : String} {e : WorkerEntry}
    (he : r.get? path = some e) {id : ListenerId} (hid : e.listener = some id) :
    ⟨path, id, e.dependencies⟩ ∈ r.watches := by
  refine List.mem_filterMap.2 ⟨e, List.mem_of_find?_eq_some he, ?_⟩
  unfold WorkerEntry.watch?
  rw [hid, requestedPath_of_get? he]
  rfl

/-! ## Later registries -/

/-- What a registry can become while no build begins or ends. -/
structure Later (r r' : WorkerRegistry) : Prop where
  get? : ∀ path e, r.get? path = some e → ∃ e', r'.get? path = some e' ∧ e.Later e'
  isNew : ∀ path e', r.get? path = none → r'.get? path = some e' → e'.IsNew
  watches : r'.watches = r.watches
  wf : r.WF → r'.WF

namespace Later

theorem refl (r : WorkerRegistry) : r.Later r :=
  ⟨fun _ e h => ⟨e, h, .refl e⟩, fun _ _ h h' => (by rw [h] at h'; cases h'), rfl, id⟩

theorem trans {r r' r'' : WorkerRegistry} (h : r.Later r') (h' : r'.Later r'') : r.Later r'' where
  get? path e he := by
    obtain ⟨e', he', hl⟩ := h.get? path e he
    obtain ⟨e'', he'', hl'⟩ := h'.get? path e' he'
    exact ⟨e'', he'', hl.trans hl'⟩
  isNew path e'' hn he'' := by
    cases he' : r'.get? path with
    | none => exact h'.isNew path e'' he' he''
    | some e' =>
      obtain ⟨d, hd, hl⟩ := h'.get? path e' he'
      rw [he''] at hd
      cases hd
      exact hl.isNew (h.isNew path e' hn he')
  watches := h'.watches.trans h.watches
  wf := h'.wf ∘ h.wf

/-- An entry that is found later was found before, or is new. -/
theorem get?_of_get? {r r' : WorkerRegistry} (h : r.Later r') {path : String} {e' : WorkerEntry}
    (he' : r'.get? path = some e') :
    (∃ e, r.get? path = some e ∧ e.Later e') ∨ (r.get? path = none ∧ e'.IsNew) := by
  cases he : r.get? path with
  | none => exact .inr ⟨rfl, h.isNew path e' he he'⟩
  | some e =>
    obtain ⟨d, hd, hl⟩ := h.get? path e he
    rw [he'] at hd
    cases hd
    exact .inl ⟨e, rfl, hl⟩

end Later

theorem later_map (r : WorkerRegistry) {f : WorkerEntry → WorkerEntry}
    (hf : ∀ e : WorkerEntry, e.Later (f e)) : r.Later ⟨r.entries.map f⟩ := by
  have hp : ∀ e, (f e).requestedPath = e.requestedPath := fun e => (hf e).requestedPath
  refine ⟨fun path e he => ⟨f e, ?_, hf e⟩, fun path e' hn he' => ?_, ?_, fun h => h.map hp⟩
  · rw [get?_map r hp, he]
    rfl
  · rw [get?_map r hp, hn] at he'
    cases he'
  · exact watches_map r fun e => (hf e).watch?_eq

theorem later_modify (r : WorkerRegistry) (path : String) {f : WorkerEntry → WorkerEntry}
    (hf : ∀ e : WorkerEntry, e.Later (f e)) : r.Later (r.modify path f) := by
  refine later_map r fun e => ?_
  split
  · exact hf e
  · exact .refl e

theorem later_recordChange (r : WorkerRegistry) (file : Path) : r.Later (r.recordChange file) :=
  later_map r fun e => e.later_recordChange file

theorem later_invalidate (r : WorkerRegistry) (path : String) (file : Path) :
    r.Later (r.invalidate path file).2 :=
  later_modify r path fun e => e.later_invalidate file

theorem later_invalidateDependents (r : WorkerRegistry) (file : Path) :
    r.Later (r.invalidateDependents file).2 :=
  later_map r fun e => e.later_invalidate file

theorem later_register (r : WorkerRegistry) {e : WorkerEntry} (hn : e.IsNew) :
    r.Later (r.register e).2 := by
  unfold register
  cases h : r.get? e.requestedPath with
  | some old => exact later_modify r e.requestedPath fun d => d.later_refresh e
  | none =>
    have hget : ∀ path, WorkerRegistry.get? ⟨r.entries ++ [e]⟩ path =
        (r.get? path).or (if e.requestedPath = path then some e else none) := by
      intro path
      unfold WorkerRegistry.get?
      rw [List.find?_append]
      congr 1
      by_cases hp : e.requestedPath = path <;> simp [hp]
    refine ⟨fun path d hd => ⟨d, ?_, .refl d⟩, fun path d hd hd' => ?_, ?_, fun hr => ?_⟩
    · rw [hget, hd]
      rfl
    · rw [hget, hd, Option.none_or] at hd'
      split at hd'
      · cases hd'
        exact hn
      · cases hd'
    · unfold watches
      rw [List.filterMap_append]
      simp [WorkerEntry.watch?, hn.listener]
    · unfold WF at *
      rw [List.map_append, List.nodup_append]
      refine ⟨hr, by simp, ?_⟩
      intro p hp q hq hpq
      obtain ⟨d, hd, rfl⟩ := List.mem_map.1 hp
      rw [List.map_singleton, List.mem_singleton] at hq
      have := List.find?_eq_none.1 h d hd
      simp [hpq, hq] at this

end WorkerRegistry

end ModuleWorkers
