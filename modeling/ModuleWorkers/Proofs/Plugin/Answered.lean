import ModuleWorkers.Proofs.Path.Address
import ModuleWorkers.Proofs.Path.Reference
import ModuleWorkers.Proofs.Plugin.BundleFiles
import ModuleWorkers.Proofs.Plugin.KeptMaps
import ModuleWorkers.Proofs.Plugin.Registrations
import ModuleWorkers.Proofs.Worker.EntryFile
import ModuleWorkers.Proofs.Worker.Registered

/-!
# References that are answered

A served script refers to workers by their paths, and a bundle to its other scripts by their names.
Workers stay registered and files stay served, so there is an answer for whoever requests such a
path or the path of such a name as it is written (`Session.answers_references`). But workers and
files are looked up by the path that is requested, and clients request other paths for references
that are not plain: these are not answered (`Session.not_answers_space`).
-/

namespace ModuleWorkers

open UrlReference (requestPath? isPlain protocol?)
open UrlPath (normalize dirname basename)

/-! ## Workers of scripts -/

namespace CanonicalScript

/-- Whether a script has registered all workers that it lists, at paths in normal form. -/
def IsRegistered (s : CanonicalScript) : Prop :=
  ∀ u ∈ s.workers, (s.registry.get? u).isSome ∧ normalize u = u

theorem IsRegistered.add {s : CanonicalScript} (h : s.IsRegistered) {w : KnownWorker}
    (hw : w.entry.IsPlaced) : (s.add w).IsRegistered := by
  unfold CanonicalScript.add
  split
  · exact h
  · intro u hu
    simp only [WorkerRegistry.get?_register_eq]
    rcases List.mem_append.1 hu with hu | hu
    · refine ⟨?_, (h u hu).2⟩
      split
      · rfl
      · exact (h u hu).1
    · obtain rfl := List.mem_singleton.1 hu
      rw [if_pos rfl]
      exact ⟨rfl, hw.normalize_requestedPath⟩

theorem IsRegistered.foldl {s : CanonicalScript} (h : s.IsRegistered) {ws : List KnownWorker}
    (hws : ∀ w ∈ ws, w.entry.IsPlaced) : (ws.foldl CanonicalScript.add s).IsRegistered := by
  induction ws generalizing s with
  | nil => exact h
  | cons w ws ih =>
    exact ih (h.add (hws w List.mem_cons_self)) fun v hv => hws v (List.mem_cons_of_mem w hv)

theorem isRegistered_ofText {text path : String} {r : WorkerRegistry} {script : CanonicalScript}
    (h : ofText text path r = .ok (some script)) : script.IsRegistered := by
  obtain ⟨found, -, rfl⟩ := ofText_eq_some h
  refine IsRegistered.foldl (nofun : IsRegistered ⟨{ base := text }, [], r⟩) fun w hw => ?_
  obtain ⟨c, -, hc⟩ := List.mem_filterMap.1 hw
  exact KnownWorker.isPlaced_entry hc

end CanonicalScript

/-! ## Answers -/

namespace PluginState

variable {s : PluginState} {path : String}

/-- Whether clients that get bundles are given content at a path. -/
def Answers (s : PluginState) (path : String) (content : FileContent) : Prop :=
  ∀ (σ ε : Type) (p : Plugin σ ε) (fs : FileSystem) (headers : Headers) (x : σ),
    p.options.legacy.wantsBundles headers →
      p.request fs path headers (s, x) = (.ok (some content), s, x)

theorem answers_of_get? {file : VirtualFile} (h : s.virtualFiles.get? path = some file) :
    s.Answers path file.content := by
  intro σ ε p fs headers x hwants
  unfold Plugin.request
  simp only [h, hwants, Bool.true_or, if_true]

/-- Whether clients that get bundles find the worker of an entry at a path. -/
structure AnswersWorker (s : PluginState) (path : String) (e : WorkerEntry) : Prop where
  entry : s.registry.get? path = some e
  /-- Nobody is told that there is nothing. -/
  answered : ∀ (σ ε : Type) (p : Plugin σ ε) (fs : FileSystem) (headers : Headers) (x : σ),
    p.options.legacy.wantsBundles headers → (p.request fs path headers (s, x)).1 ≠ .ok none
  /-- The answer is the bundle, if no file is served in its place. -/
  built : s.virtualFiles.get? path = none → ∀ bundle, e.bundle = some bundle →
    s.Answers path (.text bundle.code)
  /-- If there is no bundle, it is built. -/
  unbuilt : s.virtualFiles.get? path = none → e.bundle = none → s.BuildsNext path e ∧
    ∀ (σ ε : Type) (p : Plugin σ ε) (fs : FileSystem) (headers : Headers) (x : σ),
      p.options.legacy.wantsBundles headers →
        p.request fs path headers (s, x) = p.resolve fs path (s, x)

theorem answersWorker {e : WorkerEntry} (he : s.registry.get? path = some e) :
    s.AnswersWorker path e := by
  have hresolve : s.virtualFiles.get? path = none →
      ∀ (σ ε : Type) (p : Plugin σ ε) (fs : FileSystem) (headers : Headers) (x : σ),
        p.options.legacy.wantsBundles headers →
          p.request fs path headers (s, x) = p.resolve fs path (s, x) := by
    intro hfile σ ε p fs headers x hwants
    have hcontains : s.registry.contains path := by simp [WorkerRegistry.contains, he]
    rw [request_of_get?_eq_none p fs headers x hfile, if_pos ⟨hwants, hcontains⟩]
  have hbuilt : s.virtualFiles.get? path = none → ∀ bundle, e.bundle = some bundle →
      s.Answers path (.text bundle.code) := by
    intro hfile bundle hbundle σ ε p fs headers x hwants
    have hlookup : s.lookup path = .found (.text bundle.code) := by
      simp only [lookup, hfile, he, hbundle]
    rw [hresolve hfile σ ε p fs headers x hwants, Plugin.resolve]
    simp only [hlookup]
  refine ⟨he, fun σ ε p fs headers x hwants => ?_, hbuilt, fun hfile hbundle =>
    ⟨buildsNext he hbundle hfile, hresolve hfile⟩⟩
  cases hfile : s.virtualFiles.get? path with
  | some file =>
    rw [answers_of_get? hfile σ ε p fs headers x hwants]
    simp
  | none =>
    cases hbundle : e.bundle with
    | some bundle =>
      rw [hbuilt hfile bundle hbundle σ ε p fs headers x hwants]
      simp
    | none =>
      obtain ⟨s', -, hbuild⟩ := buildsNext he hbundle hfile
      rw [hresolve hfile σ ε p fs headers x hwants, hbuild σ ε p fs x]
      generalize (p.runBuild _ _ _).1 = code
      cases code <;> simp [Except.map]

end PluginState

/-! ## What stays -/

theorem VirtualFiles.isSome_get?_insert {vs : VirtualFiles} {q : String} (h : (vs.get? q).isSome)
    (path : String) (content : FileContent) (legacyOnly : Bool) :
    ((vs.insert path content legacyOnly).get? q).isSome := by
  rw [get?_insert]
  split
  · rfl
  · exact h

namespace PluginState

variable {ε : Type} {q : String}

theorem isSome_get?_insertOutput (options : PluginOptions) (directory : String) {vs : VirtualFiles}
    (h : (vs.get? q).isSome) (f : OutputFile) :
    ((insertOutput options directory vs f).get? q).isSome := by
  cases f with
  | asset name bytes => exact VirtualFiles.isSome_get?_insert h _ _ _
  | script name code map =>
    cases map with
    | none => exact VirtualFiles.isSome_get?_insert h _ _ _
    | some m =>
      exact VirtualFiles.isSome_get?_insert (VirtualFiles.isSome_get?_insert h _ _ _) _ _ _

theorem isSome_get?_insertOutputs (options : PluginOptions) (directory : String)
    {vs : VirtualFiles} (h : (vs.get? q).isSome) (files : List OutputFile) :
    ((files.foldl (insertOutput options directory) vs).get? q).isSome := by
  induction files generalizing vs with
  | nil => exact h
  | cons f files ih => exact ih (isSome_get?_insertOutput options directory h f)

/-- No build takes a file away. -/
theorem isSome_virtualFiles_finishBuild (options : PluginOptions) {s : PluginState} (path : String)
    (outcome : Except ε BundleOutput) (h : (s.virtualFiles.get? q).isSome) :
    ((s.finishBuild options path outcome).2.virtualFiles.get? q).isSome := by
  cases outcome with
  | error cause => exact h
  | ok output =>
    unfold finishBuild
    dsimp only
    split
    · exact h
    · exact isSome_get?_insertOutputs options _ (VirtualFiles.isSome_get?_insert h _ _ _) _

end PluginState

/-- The task of the build that a request waits for. -/
def RequestStage.task? {ε : Type} : RequestStage ε → Option BundleRequest
  | .building request => some request
  | _ => none

namespace Session

variable {ε : Type} {options : PluginOptions} {s s' t : Session ε} {evs : List (SessionEvent ε)}
  {path : String}

theorem isSome_get?_step {ev : SessionEvent ε} (h : s.step options ev = some s')
    (he : (s.plugin.registry.get? path).isSome) : (s'.plugin.registry.get? path).isSome := by
  obtain ⟨e, he⟩ := Option.isSome_iff_exists.1 he
  have hlater : ev.build? = none → (s'.plugin.registry.get? path).isSome := by
    intro hbuild
    obtain ⟨e', he', -⟩ := (later_step h hbuild).get? path e he
    rw [he']
    rfl
  cases ev with
  | beginBuild k =>
    obtain ⟨q, -, ⟨request, plugin, hb, rfl⟩ | ⟨-, rfl⟩⟩ := step_beginBuild h
    · obtain ⟨-, d, -, rfl⟩ := PluginState.exists_of_beginBuild hb
      simp only [PluginState.get?_beginBuild, he]
      split <;> rfl
    · exact Option.isSome_iff_exists.2 ⟨e, he⟩
  | finishBuild k outcome =>
    obtain ⟨q, request, -, rfl⟩ := step_finishBuild h
    by_cases hq : q = path
    · subst hq
      simp only [PluginState.get?_finishBuild_self options he outcome]
      rfl
    · simp only [PluginState.get?_finishBuild_of_ne options s.plugin hq outcome, he]
      rfl
  | _ => exact hlater rfl

theorem isSome_get?_run (h : s.run options evs = some t)
    (he : (s.plugin.registry.get? path).isSome) : (t.plugin.registry.get? path).isSome :=
  run_induction (P := fun t => (t.plugin.registry.get? path).isSome) h he
    fun _ _ _ he hstep => isSome_get?_step hstep he

theorem isSome_virtualFiles_step {ev : SessionEvent ε} (h : s.step options ev = some s')
    (hfile : (s.plugin.virtualFiles.get? path).isSome) :
    (s'.plugin.virtualFiles.get? path).isSome := by
  have hsame : path ∉ s.stored ev → (s'.plugin.virtualFiles.get? path).isSome := fun hn => by
    rwa [get?_virtualFiles_step h hn]
  cases ev with
  | storeMap k =>
    obtain ⟨q, m, -, rfl⟩ := step_storeMap h
    exact VirtualFiles.isSome_get?_insert hfile _ _ _
  | finishBuild k outcome =>
    obtain ⟨q, request, -, rfl⟩ := step_finishBuild h
    exact PluginState.isSome_virtualFiles_finishBuild options q outcome hfile
  | _ => exact hsame List.not_mem_nil

theorem isSome_virtualFiles_run (h : s.run options evs = some t)
    (hfile : (s.plugin.virtualFiles.get? path).isSome) :
    (t.plugin.virtualFiles.get? path).isSome :=
  run_induction (P := fun t => (t.plugin.virtualFiles.get? path).isSome) h hfile
    fun _ _ _ hfile hstep => isSome_virtualFiles_step hstep hfile

/-- While a worker is registered, no request at its path is told that there is nothing. -/
theorem passed_step {ev : SessionEvent ε} (h : s.step options ev = some s')
    (he : (s.plugin.registry.get? path).isSome) {k : Nat}
    (hk : s'.requests[k]? = some ⟨path, .answered (.ok none)⟩) :
    s.requests[k]? = some ⟨path, .answered (.ok none)⟩ := by
  obtain ⟨e, he⟩ := Option.isSome_iff_exists.1 he
  have hlookup : (s.plugin.lookup path).answer? ≠ some (.ok none : PluginAnswer ε) := by
    unfold PluginState.lookup
    simp only [he]
    split
    · nofun
    · split <;> nofun
  rcases requests_step h hk with hk | hstage | ⟨old, -, hmove⟩
  · exact hk
  · cases hstage
  · change Move options s.plugin path k ev old (.answered (.ok none)) at hmove
    generalize hstage : RequestStage.answered (.ok none : PluginAnswer ε) = stage at hmove
    cases hmove with
    | look_answer ha =>
      cases hstage
      exact absurd ha hlookup
    | lookAgain_answer ha =>
      cases hstage
      exact absurd ha hlookup
    | beginBuild_unknown hb =>
      rw [PluginState.beginBuild, he] at hb
      cases hb
    | finishBuild =>
      rename_i request outcome
      generalize (s.plugin.finishBuild options path outcome).1 = code at hstage
      cases code <;> cases hstage
    | _ => cases hstage

theorem passed_run (h : s.run options evs = some t) (he : (s.plugin.registry.get? path).isSome)
    {k : Nat} (hk : t.requests[k]? = some ⟨path, .answered (.ok none)⟩) :
    s.requests[k]? = some ⟨path, .answered (.ok none)⟩ := by
  let passed (t : Session ε) : Prop := t.requests[k]? = some ⟨path, .answered (.ok none)⟩
  have hrun : (t.plugin.registry.get? path).isSome ∧ (passed t → passed s) :=
    run_induction (P := fun t => (t.plugin.registry.get? path).isSome ∧ (passed t → passed s)) h
      ⟨he, id⟩ fun u u' ev hu hstep =>
        ⟨isSome_get?_step hstep hu.1, fun hk => hu.2 (passed_step hstep hu.1 hk)⟩
  exact hrun.2 hk

/-! ## References -/

/-- Whether the script of a name is found beside a worker, some events after a build of the worker
ended with an output. -/
structure FindsScript (options : PluginOptions) (output : BundleOutput) (path name : String)
    (built : Session ε) (evs : List (SessionEvent ε)) (later : Session ε) : Prop where
  requested : isPlain name → protocol? name.toList = none →
    requestPath? path name = some (normalize (dirname path ++ "/" ++ name))
  answered : ∃ content, later.plugin.Answers (normalize (dirname path ++ "/" ++ name)) content
  /-- If nothing else was stored in its place, the script is one of the output. -/
  stored : built.NeverStores options evs (normalize (dirname path ++ "/" ++ name)) →
    ∃ code map, .script name code (some map) ∈ output.files ∧
      later.plugin.virtualFiles.get? (normalize (dirname path ++ "/" ++ name)) =
        some ⟨normalize (dirname path ++ "/" ++ name), .text (PluginState.withComment options code
          (basename (normalize (dirname path ++ "/" ++ name)))), true⟩

theorem findsScript {b : Bundler} {request : BundleRequest} {g : ModuleGraph} {out : BundleOutput}
    (hmakes : b.Makes request g out) (hnormal : normalize path = path)
    (he : (s.plugin.registry.get? path).isSome) {k : Nat}
    (hk : s.requests[k]? = some ⟨path, .building request⟩)
    (hstep : s.step options (.finishBuild k (.ok out)) = some s')
    (hrun : s'.run options evs = some t) {f : OutputFile} (hf : f ∈ out.files) :
    FindsScript options out path f.name s' evs t := by
  obtain ⟨code, map, hscript, hget⟩ :=
    PluginState.get?_script_finishBuild (ε := ε) hmakes options he hnormal hf
  obtain ⟨q, other, hq, rfl⟩ := step_finishBuild hstep
  cases hk.symm.trans hq
  refine ⟨fun hplain hprotocol => ?_, ?_, fun hnever => ⟨code, map, hscript, ?_⟩⟩
  · obtain ⟨target, modules, code, map, rfl⟩ := hmakes.exists_script hf
    rw [← hnormal]
    exact UrlReference.requestPath?_beside path hplain hprotocol
      (Bundler.isStep_scriptName g target modules)
  · obtain ⟨file, hfile⟩ := Option.isSome_iff_exists.1 <|
      isSome_virtualFiles_run hrun (Option.isSome_iff_exists.2 ⟨_, hget⟩)
    exact ⟨file.content, PluginState.answers_of_get? hfile⟩
  · rw [get?_virtualFiles_run hrun hnever]
    exact hget

/-- After a script was served, each worker that it constructs is found at its path, whatever else
happens: nobody is told that there is nothing. Clients request this path exactly if it is plain.
When a build of the worker ended, each script that the bundle loads is found beside the worker, and
for a plain name this is where clients request it. -/
theorem answers_references {fs : FileSystem} {text u : String} {script : CanonicalScript}
    (hscript : CanonicalScript.ofText text path s.plugin.registry = .ok (some script))
    (hserve : s.step options (.serve fs path text true) = some s') (hu : u ∈ script.workers)
    (hrun : s'.run options evs = some t) :
    (∀ base, requestPath? base u = some u ↔ isPlain u) ∧
    (∃ e, t.plugin.AnswersWorker u e) ∧
    (∀ k : Nat, t.requests[k]? = some ⟨u, .answered (.ok none)⟩ →
      s'.requests[k]? = some ⟨u, .answered (.ok none)⟩) ∧
    ∀ (b : Bundler) (k : Nat) (request : BundleRequest) (out : BundleOutput) (built : Session ε)
      (evs' : List (SessionEvent ε)) (later : Session ε),
      t.requests[k]? = some ⟨u, .building request⟩ → b.bundle request = .ok out →
      t.step options (.finishBuild k (.ok out)) = some built →
      built.run options evs' = some later →
      ∃ g, (b.loader request).load request.entry = .ok g ∧
        ∀ (j : Nat) (m : BundledModule), g.modules[j]? = some m →
          ∀ target ∈ Bundler.importTargets g (Bundler.laterScripts g) m,
          ∀ name, target.chunk = some name → FindsScript options out u name built evs' later := by
  obtain ⟨hregistered, hnormal⟩ := CanonicalScript.isRegistered_ofText hscript u hu
  have hserved : (s'.plugin.registry.get? u).isSome := by
    have hcanonicalize : (s.plugin.canonicalize path text true).2 =
        { s.plugin with registry := script.registry } := by
      unfold PluginState.canonicalize
      simp only [if_true, hscript]
    rw [← Option.some.inj hserve]
    change ((s.plugin.canonicalize path text true).2.registry.get? u).isSome
    rw [hcanonicalize]
    exact hregistered
  have ht : (t.plugin.registry.get? u).isSome := isSome_get?_run hrun hserved
  refine ⟨fun base => ?_, ?_, fun k => passed_run hrun hserved, ?_⟩
  · rw [← hnormal]
    exact UrlReference.requestPath?_eq_self_iff base u
  · obtain ⟨e, he⟩ := Option.isSome_iff_exists.1 ht
    exact ⟨e, PluginState.answersWorker he⟩
  · intro b k request out built evs' later hk hout hstep hlater
    obtain ⟨g, hmakes⟩ := Bundler.exists_makes hout
    refine ⟨g, hmakes.load, fun j m hm target htarget name hname => ?_⟩
    obtain ⟨f, hf, rfl⟩ := hmakes.exists_file hm htarget hname
    exact findsScript hmakes hnormal ht hk hstep hlater hf

/-- The events of a request for a worker up to its build. -/
def requestEvents (k : Nat) (path : String) : List (SessionEvent ε) :=
  [.arrive path, .look k, .lock k, .lookAgain k, .beginBuild k]

/-- A worker with a plain name that loads a script with a plain name. -/
theorem answers_references_entangled :
    ∃ (s s' t built : Session BundleError) (out : BundleOutput) (e : WorkerEntry)
      (content : FileContent),
      s.step {} (.serve {} "/main.js" "new Worker('./w.js', \x7btype: 'module'\x7d)" true) =
        some s' ∧
      s'.run {} (requestEvents 0 "/w.js") = some t ∧
      (Bundler.ofScripts Bundler.entangledScripts).bundle (Bundler.requestOf "/w.js") = .ok out ∧
      t.step {} (.finishBuild 0 (.ok out)) = some built ∧
      requestPath? "/main.js" "/w.js" = some "/w.js" ∧ t.plugin.AnswersWorker "/w.js" e ∧
      requestPath? "/w.js" "l-fa6af9ad.js" = some "/l-fa6af9ad.js" ∧
      built.plugin.Answers "/l-fa6af9ad.js" content := by
  obtain ⟨text, htext⟩ : ∃ text, text = "new Worker('./w.js', \x7btype: 'module'\x7d)" := ⟨_, rfl⟩
  let s : Session BundleError := { plugin := .start {} ⟨"/"⟩ }
  have hsome : ∃ script ∈ (CanonicalScript.ofText text "/main.js" s.plugin.registry).toOption.join,
      script.workers = ["/w.js"] := by
    rw [htext]
    decide +kernel
  obtain ⟨script, hscript, hworkers⟩ := CanonicalScript.exists_ofText_eq_some hsome
  -- what is built is told by its texts
  have hbuilding : (s.run {} (.serve {} "/main.js" text true :: requestEvents 0 "/w.js")).map
      (fun t => t.requests.map fun r => (r.path, (r.stage.task?.map fun q =>
        [q.entry.text, q.baseDir.text, q.root.text, q.requestedPath]).getD [])) =
          some [("/w.js", ["/w.js", "/", "/", "/w.js"])] := by
    rw [htext]
    decide +kernel
  obtain ⟨t, ht, hrequests⟩ := Option.map_eq_some_iff.1 hbuilding
  rw [run_cons, Option.bind_eq_some_iff] at ht
  obtain ⟨s', hserve, hrun⟩ := ht
  have hk : t.requests[0]? = some ⟨"/w.js", .building (Bundler.requestOf "/w.js")⟩ := by
    obtain ⟨⟨path, stage⟩, hr, hrest⟩ := List.map_eq_singleton_iff.1 hrequests
    rw [hr]
    obtain ⟨rfl, hstage⟩ := Prod.mk.inj hrest
    cases stage with
    | building q =>
      obtain ⟨⟨entry⟩, ⟨baseDir⟩, ⟨root⟩, requestedPath⟩ := q
      simp only [RequestStage.task?, Option.map_some, Option.getD_some, List.cons.injEq,
        and_true] at hstage
      obtain ⟨rfl, rfl, rfl, rfl⟩ := hstage
      rfl
    | _ => cases hstage
  obtain ⟨g, out, hload, hout, hchunk⟩ := Bundler.exists_built_of_any
    (Bundler.ofScripts Bundler.entangledScripts) (Bundler.requestOf "/w.js") 5
    (fun g _ => g.modules.toList.any fun m =>
      (Bundler.importTargets g (Bundler.laterScripts g) m).any fun target =>
        target.chunk == some "l-fa6af9ad.js")
    (by decide) (by decide +kernel)
  obtain ⟨m, hm, hchunk⟩ := List.any_eq_true.1 hchunk
  obtain ⟨target, htarget, hchunk⟩ := List.any_eq_true.1 hchunk
  obtain ⟨j, hj⟩ := List.getElem?_of_mem hm
  rw [Array.getElem?_toList] at hj
  obtain ⟨built, hbuilt⟩ : ∃ built, t.step {} (.finishBuild 0 (.ok out)) = some built := by
    unfold step
    simp only [hk]
    exact ⟨_, rfl⟩
  obtain ⟨hrequested, ⟨e, he⟩, -, hbuilds⟩ :=
    answers_references hscript hserve (hworkers ▸ List.mem_singleton_self _) hrun
  obtain ⟨g', hload', hfinds⟩ := hbuilds _ 0 _ out built [] built hk hout hbuilt rfl
  cases hload.symm.trans hload'
  have hfind := hfinds j m hj target htarget "l-fa6af9ad.js" (beq_iff_eq.1 hchunk)
  obtain ⟨content, hcontent⟩ := hfind.answered
  have hpath : normalize (dirname "/w.js" ++ "/" ++ "l-fa6af9ad.js") = "/l-fa6af9ad.js" := by
    decide +kernel
  refine ⟨s, s', t, built, out, e, content, htext ▸ hserve, hrun, hout, hbuilt,
    (hrequested "/main.js").2 (by decide +kernel), he, ?_, hpath ▸ hcontent⟩
  rw [hfind.requested (by decide +kernel) (by decide +kernel), hpath]

/-- A worker with a space in its name: clients request another path, and are told that there is
nothing. -/
theorem not_answers_space :
    ∃ (script : CanonicalScript) (s s' : Session Unit),
      CanonicalScript.ofText "new Worker('./my worker.js', \x7btype: 'module'\x7d)" "/main.js"
        s.plugin.registry = .ok (some script) ∧
      s.step {} (.serve {} "/main.js" "new Worker('./my worker.js', \x7btype: 'module'\x7d)" true) =
        some s' ∧
      script.workers = ["/my worker.js"] ∧
      requestPath? "/main.js" "/my worker.js" = some "/my%20worker.js" ∧
      ∀ (σ ε : Type) (p : Plugin σ ε) (fs : FileSystem) (headers : Headers) (x : σ),
        (p.request fs "/my%20worker.js" headers (s'.plugin, x)).1 = .ok none := by
  obtain ⟨text, htext⟩ : ∃ text, text = "new Worker('./my worker.js', \x7btype: 'module'\x7d)" :=
    ⟨_, rfl⟩
  let s : Session Unit := { plugin := .start {} ⟨"/app"⟩ }
  have hsome : ∃ script ∈ (CanonicalScript.ofText text "/main.js" s.plugin.registry).toOption.join,
      script.workers = ["/my worker.js"] := by
    rw [htext]
    decide +kernel
  obtain ⟨script, hscript, hworkers⟩ := CanonicalScript.exists_ofText_eq_some hsome
  have hnone : (s.step {} (.serve {} "/main.js" text true)).any fun s' =>
      (s'.plugin.virtualFiles.get? "/my%20worker.js").isNone &&
        !s'.plugin.registry.contains "/my%20worker.js" := by
    rw [htext]
    decide +kernel
  obtain ⟨s', hserve, hnone⟩ := (Option.any_eq_true _ _).1 hnone
  rw [Bool.and_eq_true, Option.isNone_iff_eq_none, Bool.not_eq_true'] at hnone
  refine ⟨script, s, s', htext ▸ hscript, htext ▸ hserve, hworkers, by decide +kernel,
    fun σ ε p fs headers x => ?_⟩
  rw [PluginState.request_of_get?_eq_none p fs headers x hnone.1, if_neg]
  rw [hnone.2]
  exact fun h => Bool.false_ne_true h.2

end Session

end ModuleWorkers
