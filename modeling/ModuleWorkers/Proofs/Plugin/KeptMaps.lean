import ModuleWorkers.Plugin.Request
import ModuleWorkers.Proofs.Plugin.BundleMap

/-!
# Maps that are kept

The map of a served script stays at its path until another one is stored there. A response that
leaves its script as it is takes no map away, also not the one that an earlier text of the script
got. So a request for a map is answered with what the last response that stored a map at the path
left there, whichever script that was for, and goes to the disk only if there was none
(`PluginState.request_respondAll`).
-/

namespace ModuleWorkers

open SourceMap

/-- A script that a response is asked for. -/
structure ResponseCall where
  fs : FileSystem
  path : String
  text : String
  isScript : Bool := true

namespace PluginState

def respondTo (s : PluginState) (c : ResponseCall) : Option String × PluginState :=
  s.respond c.fs c.path c.text c.isScript

/-- The state after some responses. -/
def respondAll (s : PluginState) (calls : List ResponseCall) : PluginState :=
  calls.foldl (fun s c => (s.respondTo c).2) s

/-- The map that a response stores, and the path that it is stored at. -/
def storedMap? (s : PluginState) (c : ResponseCall) : Option (String × SourceMap) :=
  Session.servedMap? s.root c.fs c.path (s.canonicalize c.path c.text c.isScript).1

/-- None of some responses stores a map at a path. -/
def NeverStores (s : PluginState) (calls : List ResponseCall) (key : String) : Prop :=
  ∀ before c after, calls = before ++ c :: after →
    ∀ m, (s.respondAll before).storedMap? c ≠ some (key, m)

/-- The last of some responses that stored a map at a path is that to a call, and stored a map. -/
def LastStores (s : PluginState) (calls : List ResponseCall) (key : String) (c : ResponseCall)
    (m : SourceMap) : Prop :=
  ∃ before after, calls = before ++ c :: after ∧
    (s.respondAll before).storedMap? c = some (key, m) ∧
    (s.respondAll (before ++ [c])).NeverStores after key

variable {s : PluginState} {c : ResponseCall} {calls : List ResponseCall} {key : String}
  {m : SourceMap}

/-! ## One response -/

/-- A response does nothing, or registers workers and stores at most one map. -/
theorem respondTo_cases (s : PluginState) (c : ResponseCall) :
    (s.respondTo c = (none, s) ∧ s.storedMap? c = none) ∨
      ∃ text registry, (s.respondTo c).1 = some text ∧
        (s.respondTo c).2 = (s.storedMap? c).elim { s with registry }
          fun stored => { s with registry }.storeMap stored.1 stored.2 := by
  unfold respondTo storedMap? respond
  rcases s.canonicalize_cases c.path c.text c.isScript with hnone | ⟨script, -, hsome⟩
  · rw [hnone]
    exact .inl ⟨rfl, rfl⟩
  · rw [hsome]
    change _ ∨ ∃ text registry, _ ∧ _ =
      (((ServedScript.ofPath s.root c.path).attachMap c.fs script.buffer).2).elim _ _
    rcases hattach : (ServedScript.ofPath s.root c.path).attachMap c.fs script.buffer with
      ⟨buffer, _ | stored⟩
    · simp only [hattach]
      exact .inr ⟨buffer.text, script.registry, rfl, rfl⟩
    · simp only [hattach]
      exact .inr ⟨buffer.text, script.registry, rfl, rfl⟩

/-- A script that is served as it is changes nothing. -/
theorem respondTo_of_fst_eq_none (h : (s.respondTo c).1 = none) :
    (s.respondTo c).2 = s ∧ s.storedMap? c = none := by
  rcases s.respondTo_cases c with ⟨hrespond, hstored⟩ | ⟨text, registry, htext, -⟩
  · exact ⟨congrArg Prod.snd hrespond, hstored⟩
  · cases htext.symm.trans h

theorem root_respondTo (s : PluginState) (c : ResponseCall) : (s.respondTo c).2.root = s.root := by
  rcases s.respondTo_cases c with ⟨hrespond, -⟩ | ⟨text, registry, -, hstate⟩
  · rw [hrespond]
  · rw [hstate]
    cases s.storedMap? c <;> rfl

theorem get?_virtualFiles_respondTo (hm : s.storedMap? c = some (key, m)) :
    (s.respondTo c).2.virtualFiles.get? key = some ⟨key, .text m.toJson, false⟩ := by
  rcases s.respondTo_cases c with ⟨-, hstored⟩ | ⟨text, registry, -, hstate⟩
  · cases hstored.symm.trans hm
  · rw [hstate, hm, Option.elim_some, storeMap, VirtualFiles.get?_insert, if_pos rfl]

theorem get?_virtualFiles_respondTo_of_ne (hm : ∀ m, s.storedMap? c ≠ some (key, m)) :
    (s.respondTo c).2.virtualFiles.get? key = s.virtualFiles.get? key := by
  rcases s.respondTo_cases c with ⟨hrespond, -⟩ | ⟨text, registry, -, hstate⟩
  · rw [hrespond]
  · rw [hstate]
    cases hstored : s.storedMap? c with
    | none => rfl
    | some stored =>
      obtain ⟨path, m'⟩ := stored
      have hne : path ≠ key := by
        rintro rfl
        exact hm m' hstored
      exact VirtualFiles.get?_insert_of_ne hne s.virtualFiles _ _

/-- A map is stored beside its script, or where its script refers to. -/
theorem mapsTo_of_storedMap? (hm : s.storedMap? c = some (key, m)) :
    (ServedScript.ofPath s.root c.path).MapsTo c.fs c.text key :=
  Session.mapsTo_of_servedMap? hm

/-! ## Many responses -/

theorem respondAll_concat (s : PluginState) (calls : List ResponseCall) (c : ResponseCall) :
    s.respondAll (calls ++ [c]) = ((s.respondAll calls).respondTo c).2 := by
  unfold respondAll
  rw [List.foldl_append]
  rfl

theorem root_respondAll (s : PluginState) (calls : List ResponseCall) :
    (s.respondAll calls).root = s.root := by
  induction calls using List.reverseRecOn with
  | nil => rfl
  | append_singleton calls c ih => rw [respondAll_concat, root_respondTo, ih]

theorem NeverStores.nil : s.NeverStores [] key := by
  intro before c after h
  cases before <;> cases h

theorem NeverStores.concat (h : s.NeverStores calls key)
    (hc : ∀ m, (s.respondAll calls).storedMap? c ≠ some (key, m)) :
    s.NeverStores (calls ++ [c]) key := by
  intro before d after heq
  rcases List.eq_nil_or_concat after with rfl | ⟨middle, last, rfl⟩
  · obtain ⟨rfl, hlast⟩ := List.append_inj' heq rfl
    cases hlast
    exact hc
  · rw [List.concat_eq_append, ← List.cons_append, ← List.append_assoc] at heq
    obtain ⟨rfl, -⟩ := List.append_inj' heq rfl
    exact h before d middle rfl

theorem LastStores.concat {d : ResponseCall} (h : s.LastStores calls key d m)
    (hc : ∀ m, (s.respondAll calls).storedMap? c ≠ some (key, m)) :
    s.LastStores (calls ++ [c]) key d m := by
  obtain ⟨before, after, rfl, hm, hnever⟩ := h
  refine ⟨before, after ++ [c], by simp, hm, hnever.concat ?_⟩
  have hsplit : (s.respondAll (before ++ [d])).respondAll after =
      s.respondAll (before ++ d :: after) := by
    unfold respondAll
    rw [← List.foldl_append, List.append_assoc]
    rfl
  rwa [hsplit]

/-- What is served at a path is the map that was stored there last, or else what was there before
all responses. -/
theorem get?_virtualFiles_respondAll (s : PluginState) (calls : List ResponseCall) (key : String) :
    (∃ d m, s.LastStores calls key d m ∧
      (s.respondAll calls).virtualFiles.get? key = some ⟨key, .text m.toJson, false⟩) ∨
    (s.NeverStores calls key ∧
      (s.respondAll calls).virtualFiles.get? key = s.virtualFiles.get? key) := by
  induction calls using List.reverseRecOn with
  | nil => exact .inr ⟨.nil, rfl⟩
  | append_singleton calls c ih =>
    rw [respondAll_concat]
    by_cases hstores : ∃ m, (s.respondAll calls).storedMap? c = some (key, m)
    · obtain ⟨m, hm⟩ := hstores
      exact .inl ⟨c, m, ⟨calls, [], rfl, hm, .nil⟩, get?_virtualFiles_respondTo hm⟩
    · rw [not_exists] at hstores
      rw [get?_virtualFiles_respondTo_of_ne hstores]
      rcases ih with ⟨d, m, hlast, hget⟩ | ⟨hnever, hget⟩
      · exact .inl ⟨d, m, hlast.concat hstores, hget⟩
      · exact .inr ⟨hnever.concat hstores, hget⟩

/-! ## Requests for maps -/

variable {σ ε : Type}

theorem request_of_get?_eq_some (p : Plugin σ ε) (fs : FileSystem) (headers : Headers) (x : σ)
    {content : FileContent} (h : s.virtualFiles.get? key = some ⟨key, content, false⟩) :
    p.request fs key headers (s, x) = (.ok (some content), s, x) := by
  unfold Plugin.request
  simp only [h, Bool.not_false, Bool.or_true, if_true]

theorem request_of_get?_eq_none (p : Plugin σ ε) (fs : FileSystem) (headers : Headers) (x : σ)
    (h : s.virtualFiles.get? key = none) :
    p.request fs key headers (s, x) =
      if p.options.legacy.wantsBundles headers ∧ s.registry.contains key then
        p.resolve fs key (s, x)
      else (.ok none, s, x) := by
  unfold Plugin.request
  simp only [h]
  cases p.options.legacy.wantsBundles headers with
  | false => rfl
  | true =>
    rw [if_pos rfl]
    cases he : s.registry.get? key with
    | some e =>
      have hcontains : s.registry.contains key := by simp [WorkerRegistry.contains, he]
      rw [if_pos ⟨rfl, hcontains⟩]
    | none =>
      have hlookup : s.lookup key = .unknown := by simp only [lookup, h, he]
      have hcontains : ¬ s.registry.contains key := by simp [WorkerRegistry.contains, he]
      rw [if_neg fun hboth => hcontains hboth.2, Plugin.resolve]
      simp only [hlookup]

/-- After a script was served as it is, a path is still answered with the map that the last response
before it stored there, which is the map of a script beside the path or that refers to it. If none
did, then the path is left to the disk, unless a worker is registered there and the client gets
bundles. -/
theorem request_respondAll (p : Plugin σ ε) (fs : FileSystem) (headers : Headers) (x : σ)
    (hs : s.virtualFiles.get? key = none) (hc : ((s.respondAll calls).respondTo c).1 = none) :
    let t := s.respondAll (calls ++ [c])
    (∃ d m, s.LastStores calls key d m ∧
      (ServedScript.ofPath s.root d.path).MapsTo d.fs d.text key ∧
      p.request fs key headers (t, x) = (.ok (some (.text m.toJson)), t, x)) ∨
    (s.NeverStores calls key ∧
      p.request fs key headers (t, x) =
        if p.options.legacy.wantsBundles headers ∧ t.registry.contains key then
          p.resolve fs key (t, x)
        else (.ok none, t, x)) := by
  intro t
  have ht : t = s.respondAll calls :=
    (respondAll_concat s calls c).trans (respondTo_of_fst_eq_none hc).1
  rw [ht]
  rcases get?_virtualFiles_respondAll s calls key with ⟨d, m, hlast, hget⟩ | ⟨hnever, hget⟩
  · refine .inl ⟨d, m, hlast, ?_, request_of_get?_eq_some p fs headers x hget⟩
    obtain ⟨before, after, -, hm, -⟩ := hlast
    exact root_respondAll s before ▸ mapsTo_of_storedMap? hm
  · exact .inr ⟨hnever, request_of_get?_eq_none p fs headers x (hget.trans hs)⟩

/-- A compiled script with its map, while it constructs a worker. -/
def workerCall : ResponseCall where
  fs := FileSystem.writeText {} ⟨"/app/a.js.map"⟩
    "\x7b\"version\":3,\"sources\":[\"a.ts\"],\"mappings\":\"AAAA\"\x7d"
  path := "/a.js"
  text := "new Worker('./w.js', \x7btype: 'module'\x7d)\n//# sourceMappingURL=a.js.map"

/-- The script without the worker. -/
def plainCall : ResponseCall :=
  { workerCall with text := "1\n//# sourceMappingURL=a.js.map" }

/-- A plugin that builds nothing. -/
def idlePlugin : Plugin Unit Unit where
  pipeline := { run := fun x _ _ => ⟨.error (), [], x⟩ }

/-- The map of the script with the worker is stored where both texts refer to. -/
theorem exists_storedMap?_workerCall : ∃ m,
    storedMap? { root := ⟨"/app"⟩ } workerCall = some ("/a.js.map", m) := by
  have hkey : (storedMap? { root := ⟨"/app"⟩ } workerCall).map (·.1) = some "/a.js.map" := by
    decide +kernel
  obtain ⟨⟨key, m⟩, hstored, rfl⟩ := Option.map_eq_some_iff.1 hkey
  exact ⟨m, hstored⟩

theorem respondTo_plainCall :
    ((respondAll { root := ⟨"/app"⟩ } [workerCall]).respondTo plainCall).1 = none := by
  decide +kernel

/-- The map of the script with the worker is the last one that was stored. -/
theorem request_respondAll_plainCall :
    let s : PluginState := { root := ⟨"/app"⟩ }
    let t := s.respondAll [workerCall, plainCall]
    s.virtualFiles.get? "/a.js.map" = none ∧
    ((s.respondAll [workerCall]).respondTo plainCall).1 = none ∧
    ∃ m, s.LastStores [workerCall] "/a.js.map" workerCall m ∧
      idlePlugin.request {} "/a.js.map" [] (t, ()) = (.ok (some (.text m.toJson)), t, ()) := by
  intro s t
  have hfile : s.virtualFiles.get? "/a.js.map" = none := rfl
  refine ⟨hfile, respondTo_plainCall, ?_⟩
  rcases request_respondAll idlePlugin {} [] () hfile respondTo_plainCall with
    ⟨d, m, hlast, -, hrequest⟩ | ⟨hnever, -⟩
  · have hd : d = workerCall := by
      obtain ⟨before, after, hcalls, -⟩ := hlast
      have hmem : d ∈ [workerCall] := hcalls ▸ by simp
      exact List.mem_singleton.1 hmem
    exact ⟨m, hd ▸ hlast, hrequest⟩
  · obtain ⟨m, hm⟩ := exists_storedMap?_workerCall
    exact absurd hm (hnever [] workerCall [] rfl m)

/-- The map of the script with the worker is served for the reference of the script without it,
which is served as it is. -/
theorem request_plainCall_outdated :
    let s : PluginState := { root := ⟨"/app"⟩ }
    ∃ m r, s.storedMap? workerCall = some ("/a.js.map", m) ∧
      plainCall.path = workerCall.path ∧
      ((s.respondAll [workerCall]).respondTo plainCall).1 = none ∧
      Reference.find? plainCall.text = some r ∧
      (ServedScript.ofPath s.root plainCall.path).mapPath? r.url = some "/a.js.map" ∧
      ∀ headers, (idlePlugin.request plainCall.fs "/a.js.map" headers
        (s.respondAll [workerCall, plainCall], ())).1 = .ok (some (.text m.toJson)) := by
  intro s
  obtain ⟨m, hm⟩ := exists_storedMap?_workerCall
  have hfind : Reference.find? plainCall.text = some ⟨"a.js.map", 2, 31⟩ := by decide +kernel
  have hpath : (ServedScript.ofPath s.root plainCall.path).mapPath? "a.js.map" =
      some "/a.js.map" := by
    decide +kernel
  refine ⟨m, _, hm, rfl, respondTo_plainCall, hfind, hpath, fun headers => ?_⟩
  have hstate : s.respondAll [workerCall, plainCall] = (s.respondTo workerCall).2 :=
    (respondTo_of_fst_eq_none respondTo_plainCall).1
  rw [hstate, request_of_get?_eq_some idlePlugin _ headers () (get?_virtualFiles_respondTo hm)]

end PluginState

end ModuleWorkers
