import ModuleWorkers.Proofs.Path.Address
import ModuleWorkers.Proofs.Plugin.KeptMaps
import ModuleWorkers.Proofs.Worker.FixedPoint
import ModuleWorkers.Server.State

/-!
# Bodies that are kept

A body is kept under the path that was requested, and dropped under the address of a file that
changed. Where these are the same, for paths in normal form, no body is served that was made before
the last change of its file was reported (`Server.body_isFresh`). Under all other spellings of a
path bodies are never dropped (`Server.get?_bodies_run`).
-/

namespace ModuleWorkers

/-! ## Single bodies -/

namespace BodyCache

variable (c : BodyCache) (path q : String) (partition partition' : Option String) (body : String)

theorem get?_erase : (c.erase path).get? q partition =
    if q = path then none else c.get? q partition := by
  have := lookup_filter (fun k : String × Option String => k.1 != path) (q, partition) c.bodies
  unfold erase get?
  simp only
  rw [this]
  by_cases hq : q = path <;> simp [hq]

theorem get?_insert : (c.insert path partition body).get? q partition' =
    if (q, partition') = (path, partition) then some body else c.get? q partition' := by
  split
  · rename_i hk
    obtain ⟨rfl, rfl⟩ := Prod.mk.inj hk
    exact c.get?_insert_self q partition' body
  · rename_i hk
    have := lookup_filter (fun k : String × Option String => k != (path, partition))
      (q, partition') c.bodies
    unfold insert get?
    simp only
    rw [List.lookup_cons, beq_eq_false_iff_ne.2 hk]
    simp only
    rw [this, if_pos (bne_iff_ne.2 hk)]

end BodyCache

/-! ## The root directory -/

theorem PluginState.root_finishBuild {ε : Type} (options : PluginOptions) (s : PluginState)
    (path : String) (outcome : Except ε BundleOutput) :
    (s.finishBuild options path outcome).2.root = s.root := by
  unfold finishBuild
  cases outcome with
  | error => rfl
  | ok output => cases s.registry.get? path <;> rfl

theorem PluginState.root_emitAll (s : PluginState) (files : List Path) :
    (files.foldl PluginState.emit s).root = s.root := by
  induction files generalizing s with
  | nil => rfl
  | cons file files ih => exact (ih _).trans (s.later_emit file).root

theorem Plugin.root_request {σ ε : Type} (p : Plugin σ ε) (fs : FileSystem) (path : String)
    (headers : Headers) (s : PluginState × σ) :
    (p.request fs path headers s).2.1.root = s.1.root := by
  unfold request resolve
  cases s.1.virtualFiles.get? path with
  | some file => rfl
  | none =>
    simp only
    split
    · split
      · rfl
      · rfl
      · cases hbegin : s.1.beginBuild path with
        | none => rfl
        | some begun =>
          obtain ⟨e, -, rfl⟩ := Option.map_eq_some_iff.1 hbegin
          simp only [runBuild]
          rw [PluginState.root_finishBuild, PluginState.root_emitAll]
    · rfl

/-! ## Events -/

/-- What can happen to a server, one after the other. -/
inductive ServerEvent
  | write (file : Path) (content : ByteArray)
  /-- The watcher reports a change of a file. -/
  | change (file : Path)
  | request (r : Request)

namespace Server

def step (s : Server) : ServerEvent → Server
  | .write file content => s.write file content
  | .change file => s.emit file
  | .request r => (s.handle r).2

/-- The server after some events. -/
def run (s : Server) (events : List ServerEvent) : Server := events.foldl step s

/-- Whether a body is what a script becomes with the content that its file has. -/
def IsBody (fs : FileSystem) (root : Path) (path body : String) : Prop :=
  ∃ (source : String) (state : PluginState), fs.readText (root.ofUrl path) = .ok source ∧
    state.root = root ∧ body = (state.respond fs path source true).1.getD source

variable {s : Server} {path p body : String} {partition : Option String} {r : Request}

/-- The body of a script is one that was kept, or is made of its file and kept. -/
theorem scriptBody_cases (s : Server) (path : String) (headers : Headers) :
    (∃ body partition, s.bodies.get? path partition = some body ∧
      s.scriptBody path headers = (some body, s)) ∨
    (∃ body partition state, s.bodies.get? path partition = none ∧
      IsBody s.fs s.state.root path body ∧ state.root = s.state.root ∧
        s.scriptBody path headers =
          (some body, { s with state, bodies := s.bodies.insert path partition body })) ∨
    (∀ text, s.fs.readText (s.state.root.ofUrl path) ≠ .ok text) ∧
      s.scriptBody path headers = (none, s) := by
  unfold scriptBody
  cases hbody : s.bodies.get? path (s.state.partition? s.plugin.options path headers) with
  | some body => exact .inl ⟨body, _, hbody, by simp only [hbody]⟩
  | none =>
    simp only [hbody]
    cases hread : s.fs.readText (s.state.root.ofUrl path) with
    | error e => exact .inr (.inr ⟨by simp, rfl⟩)
    | ok source =>
      refine .inr (.inl ⟨(s.state.respond s.fs path source true).1.getD source, _,
        (s.state.respond s.fs path source true).2, hbody, ⟨source, s.state, hread, rfl, rfl⟩, ?_,
        rfl⟩)
      exact PluginState.root_respondTo s.state ⟨s.fs, path, source, true⟩

theorem serveFile_of_isScriptPath (h : isScriptPath r.path) :
    s.serveFile r = ((s.scriptBody r.path r.readableHeaders).1.elim (.missing r.method)
      (fun text => .ofContent r.path (.text text)), (s.scriptBody r.path r.readableHeaders).2) := by
  unfold serveFile
  rw [if_pos h]
  rcases s.scriptBody r.path r.readableHeaders with ⟨_ | body, s'⟩ <;> rfl

theorem serveFile_of_not_isScriptPath (h : ¬ isScriptPath r.path) :
    s.serveFile r = (.missing r.method, s) := by
  unfold serveFile
  rw [if_neg h]

/-- The server behind the plugin, which has no answer to a request. -/
def afterPlugin (s : Server) (r : Request) : Server :=
  { s with state := (s.plugin.request s.fs r.path r.readableHeaders (s.state, ())).2.1 }

theorem root_afterPlugin (s : Server) (r : Request) :
    (s.afterPlugin r).state.root = s.state.root :=
  s.plugin.root_request s.fs r.path r.readableHeaders (s.state, ())

theorem handle_of_none
    (h : (s.plugin.request s.fs r.path r.readableHeaders (s.state, ())).1 = .ok none) :
    s.handle r = (((s.afterPlugin r).serveFile r).1.forMethod r.method,
      ((s.afterPlugin r).serveFile r).2) := by
  unfold handle afterPlugin
  rcases hrequest : s.plugin.request s.fs r.path r.readableHeaders (s.state, ()) with
    ⟨answer, state, next⟩
  rw [hrequest] at h
  cases h
  rfl

/-- A request leaves the server with the bodies it had, or is that of a script whose body is
made. -/
theorem handle_cases (s : Server) (r : Request) :
    ((s.handle r).2.fs = s.fs ∧ (s.handle r).2.state.root = s.state.root) ∧
      ((s.handle r).2.bodies = s.bodies ∨
        ∃ body partition, s.bodies.get? r.path partition = none ∧
          IsBody s.fs s.state.root r.path body ∧
            (s.handle r).2.bodies = s.bodies.insert r.path partition body) := by
  have hroot := s.root_afterPlugin r
  by_cases hnone : (s.plugin.request s.fs r.path r.readableHeaders (s.state, ())).1 = .ok none
  · rw [handle_of_none hnone]
    by_cases hscript : isScriptPath r.path
    · rw [serveFile_of_isScriptPath hscript]
      rcases (s.afterPlugin r).scriptBody_cases r.path r.readableHeaders with
        ⟨body, partition, -, h⟩ | ⟨body, partition, state, hget, hbody, hstate, h⟩ | ⟨-, h⟩
      · rw [h]
        exact ⟨⟨rfl, hroot⟩, .inl rfl⟩
      · rw [h]
        rw [hroot] at hbody hstate
        exact ⟨⟨rfl, hstate⟩, .inr ⟨body, partition, hget, hbody, rfl⟩⟩
      · rw [h]
        exact ⟨⟨rfl, hroot⟩, .inl rfl⟩
    · rw [serveFile_of_not_isScriptPath hscript]
      exact ⟨⟨rfl, hroot⟩, .inl rfl⟩
  · have hsame : (s.handle r).2 = s.afterPlugin r := by
      unfold handle afterPlugin
      rcases hrequest : s.plugin.request s.fs r.path r.readableHeaders (s.state, ()) with
        ⟨_ | _ | content, state, next⟩
      · rfl
      · rw [hrequest] at hnone
        exact absurd rfl hnone
      · rfl
    rw [hsame]
    exact ⟨⟨rfl, hroot⟩, .inl rfl⟩

/-! ## Runs -/

theorem root_step (s : Server) (e : ServerEvent) : (s.step e).state.root = s.state.root := by
  cases e with
  | write file content => rfl
  | change file => exact (s.state.later_emit file).root
  | request r => exact (s.handle_cases r).1.2

theorem root_run (s : Server) (events : List ServerEvent) :
    (s.run events).state.root = s.state.root := by
  induction events generalizing s with
  | nil => rfl
  | cons e events ih => exact (ih (s.step e)).trans (s.root_step e)

theorem run_concat (s : Server) (events : List ServerEvent) (e : ServerEvent) :
    s.run (events ++ [e]) = (s.run events).step e := by
  rw [run, List.foldl_append]
  rfl

theorem run_append (s : Server) (before after : List ServerEvent) :
    s.run (before ++ after) = (s.run before).run after :=
  List.foldl_append

/-- Of the bodies, a change drops those at the address of its file. -/
theorem bodies_emit (s : Server) (file : Path) :
    (s.emit file).bodies = (s.state.root.urlOf? file).elim s.bodies s.bodies.erase := by
  unfold emit
  cases s.state.root.urlOf? file <;> rfl

/-- A body that is kept was kept before, or is made of the content that its file has now. -/
theorem get?_bodies_step {e : ServerEvent}
    (h : (s.step e).bodies.get? p partition = some body) :
    s.bodies.get? p partition = some body ∨ IsBody s.fs s.state.root p body := by
  cases e with
  | write file content => exact .inl h
  | change file =>
    change (s.emit file).bodies.get? p partition = some body at h
    rw [bodies_emit] at h
    cases hurl : s.state.root.urlOf? file with
    | none =>
      rw [hurl] at h
      exact .inl h
    | some url =>
      rw [hurl, Option.elim_some, BodyCache.get?_erase] at h
      split at h
      · cases h
      · exact .inl h
  | request r =>
    change (s.handle r).2.bodies.get? p partition = some body at h
    rcases (s.handle_cases r).2 with hsame | ⟨body', partition', -, hbody, hinsert⟩
    · rw [hsame] at h
      exact .inl h
    · rw [hinsert, BodyCache.get?_insert] at h
      split at h
      · rename_i hk
        rw [(Prod.mk.inj hk).1, ← Option.some.inj h]
        exact .inr hbody
      · exact .inl h

/-- A body that is kept was kept at first, or was made of the content that its file had at some
moment since. -/
theorem exists_isBody_of_get?_bodies_run {events : List ServerEvent}
    (hnone : ∀ partition, s.bodies.get? p partition = none)
    (h : (s.run events).bodies.get? p partition = some body) :
    ∃ mid rest, events = mid ++ rest ∧ IsBody (s.run mid).fs s.state.root p body := by
  induction events using List.reverseRecOn generalizing partition body with
  | nil =>
    rw [run, List.foldl_nil, hnone] at h
    cases h
  | append_singleton events e ih =>
    rw [run_concat] at h
    rcases get?_bodies_step h with h | hbody
    · obtain ⟨mid, rest, rfl, hbody⟩ := ih h
      exact ⟨mid, rest ++ [e], List.append_assoc _ _ _, hbody⟩
    · rw [root_run] at hbody
      exact ⟨events, [e], rfl, hbody⟩

/-- A reported change of its file drops the bodies of a path in normal form. -/
theorem get?_bodies_emit (hnormal : UrlPath.normalize p = p)
    (hbelow : (s.state.root.ofUrl p).isBelow s.state.root) (partition : Option String) :
    (s.emit (s.state.root.ofUrl p)).bodies.get? p partition = none := by
  rw [bodies_emit, Path.urlOf?_ofUrl hbelow, hnormal, Option.elim_some, BodyCache.get?_erase,
    if_pos rfl]

/-- A body that is kept for a path that is not in normal form stays, whatever file changes. -/
theorem get?_bodies_run {events : List ServerEvent} (hnormal : UrlPath.normalize p ≠ p)
    (hevents : ∀ file, .change file ∈ events → ∃ q, file = s.state.root.ofUrl q)
    (h : s.bodies.get? p partition = some body) :
    (s.run events).bodies.get? p partition = some body := by
  induction events generalizing s with
  | nil => exact h
  | cons e events ih =>
    refine ih (s := s.step e) (fun file hfile => ?_) ?_
    · rw [root_step]
      exact hevents file (List.mem_cons_of_mem e hfile)
    · cases e with
      | write file content => exact h
      | change file =>
        obtain ⟨q, rfl⟩ := hevents file List.mem_cons_self
        change (s.emit (s.state.root.ofUrl q)).bodies.get? p partition = some body
        rw [bodies_emit]
        by_cases hbelow : (s.state.root.ofUrl q).isBelow s.state.root
        · have hne : p ≠ UrlPath.normalize q := by
            rintro rfl
            exact hnormal (UrlPath.normalize_normalize q)
          rw [Path.urlOf?_ofUrl hbelow, Option.elim_some, BodyCache.get?_erase, if_neg hne, h]
        · have hnone : s.state.root.urlOf? (s.state.root.ofUrl q) = none := by
            unfold Path.urlOf? Path.below?
            rw [if_neg hbelow]
            rfl
          rw [hnone, Option.elim_none, h]
      | request r =>
        change (s.handle r).2.bodies.get? p partition = some body
        rcases (s.handle_cases r).2 with hsame | ⟨body', partition', hget, -, hinsert⟩
        · rw [hsame, h]
        · rw [hinsert, BodyCache.get?_insert, if_neg, h]
          rintro hk
          obtain ⟨rfl, rfl⟩ := Prod.mk.inj hk
          rw [h] at hget
          cases hget

/-- Once a change of a file is reported, a request for its path in normal form that the plugin
passes is answered with a body that is made of the content that the file had then or later. There is
no body only if the file cannot be read. -/
theorem body_isFresh (fs : FileSystem) (plugin : Plugin Unit BundleError) (root : Path)
    (before after : List ServerEvent) {p : String} (hscript : isScriptPath p)
    (hnormal : UrlPath.normalize p = p) (hbelow : (root.ofUrl p).isBelow root) {r : Request}
    (hmethod : r.method = "GET") (hpath : r.path = p) :
    let reported := (start fs plugin root).run (before ++ [.change (root.ofUrl p)])
    let s := reported.run after
    (s.plugin.request s.fs p r.readableHeaders (s.state, ())).1 = .ok none →
      (∃ mid rest body, after = mid ++ rest ∧ IsBody (reported.run mid).fs root p body ∧
        (s.handle r).1 = .ofContent p (.text body)) ∨
      (∀ text, s.fs.readText (root.ofUrl p) ≠ .ok text) ∧ (s.handle r).1 = .missing "GET" := by
  subst hpath
  intro reported s hplugin
  have hroot : reported.state.root = root := root_run _ _
  have hroot' : (s.afterPlugin r).state.root = root :=
    (s.root_afterPlugin r).trans ((root_run _ _).trans hroot)
  have hdropped : ∀ partition, reported.bodies.get? r.path partition = none := by
    intro partition
    have hbefore : ((start fs plugin root).run before).state.root = root := root_run _ _
    have hemit := get?_bodies_emit (s := (start fs plugin root).run before) hnormal
      (hbefore.symm ▸ hbelow) partition
    rw [hbefore] at hemit
    change ((start fs plugin root).run _).bodies.get? _ _ = none
    rw [run_concat]
    exact hemit
  have hmethod' (response : Response) : response.forMethod r.method = response := by
    rw [hmethod]
    rfl
  rw [handle_of_none hplugin, hmethod', serveFile_of_isScriptPath hscript]
  rcases (s.afterPlugin r).scriptBody_cases r.path r.readableHeaders with
    ⟨body, partition, hget, h⟩ | ⟨body, partition, state, -, hbody, -, h⟩ | ⟨hread, h⟩
  · rw [h]
    have hget : (reported.run after).bodies.get? r.path partition = some body := hget
    obtain ⟨mid, rest, hsplit, hbody⟩ := exists_isBody_of_get?_bodies_run hdropped hget
    exact .inl ⟨mid, rest, body, hsplit, hroot ▸ hbody, rfl⟩
  · rw [h]
    rw [hroot'] at hbody
    exact .inl ⟨after, [], body, (List.append_nil _).symm, hbody, rfl⟩
  · rw [h, hmethod]
    rw [hroot'] at hread
    exact .inr ⟨hread, rfl⟩

/-- A script that was served before its file changed. -/
theorem body_isFresh_rewritten :
    ∃ (s : Server) (body : String),
      s = (start (.writeText {} ⟨"/app/a.js"⟩ "1") { pipeline := .bundler {} } ⟨"/app"⟩).run
        ([.request { target := "/a.js" }, .write ⟨"/app/a.js"⟩ "2".toUTF8] ++
          [.change (Path.ofUrl ⟨"/app"⟩ "/a.js")]) ∧
      (s.fs.readText (Path.ofUrl ⟨"/app"⟩ "/a.js")).toOption = some "2" ∧
        IsBody s.fs ⟨"/app"⟩ "/a.js" body ∧
          (s.handle { target := "/a.js" }).1 = .ofContent "/a.js" (.text body) := by
  have hfresh := body_isFresh (.writeText {} ⟨"/app/a.js"⟩ "1") { pipeline := .bundler {} }
    ⟨"/app"⟩ [.request { target := "/a.js" }, .write ⟨"/app/a.js"⟩ "2".toUTF8] []
    (p := "/a.js") (by decide +kernel) (by decide +kernel) (by decide +kernel)
    (r := { target := "/a.js" }) rfl (by decide +kernel)
  obtain ⟨s, hs⟩ : ∃ s, s = (start (.writeText {} ⟨"/app/a.js"⟩ "1")
      { pipeline := .bundler {} } ⟨"/app"⟩).run
    ([.request { target := "/a.js" }, .write ⟨"/app/a.js"⟩ "2".toUTF8] ++
      [.change (Path.ofUrl ⟨"/app"⟩ "/a.js")]) := ⟨_, rfl⟩
  have hread : (s.fs.readText (Path.ofUrl ⟨"/app"⟩ "/a.js")).toOption = some "2" := by
    rw [hs]
    decide +kernel
  have hplugin : (s.plugin.request s.fs "/a.js" [] (s.state, ())).1 = .ok none := by
    have hpasses : (s.plugin.request s.fs "/a.js" [] (s.state, ())).1.toOption.map
        Option.isNone = some true := by
      rw [hs]
      decide +kernel
    cases hanswer : (s.plugin.request s.fs "/a.js" [] (s.state, ())).1 with
    | error e => rw [hanswer] at hpasses; cases hpasses
    | ok content =>
      rw [hanswer] at hpasses
      cases content with
      | none => rfl
      | some content => cases hpasses
  rw [← hs] at hfresh
  rcases hfresh hplugin with ⟨mid, rest, body, hsplit, hbody, hresponse⟩ | ⟨hnone, -⟩
  · obtain ⟨rfl, rfl⟩ := List.append_eq_nil_iff.1 hsplit.symm
    exact ⟨s, body, hs, hread, hbody, hresponse⟩
  · change ∀ text, s.fs.readText (Path.ofUrl ⟨"/app"⟩ "/a.js") ≠ .ok text at hnone
    cases htext : s.fs.readText (Path.ofUrl ⟨"/app"⟩ "/a.js") with
    | error e => rw [htext] at hread; cases hread
    | ok text => exact absurd htext (hnone text)

/-- A script without constructions is served as it is. -/
theorem eq_of_isBody {fs : FileSystem} {root : Path} {path body source : String}
    (hread : (fs.readText (root.ofUrl path)).toOption = some source)
    (hfound : (findConstructions source).toOption = some []) (h : IsBody fs root path body) :
    body = source := by
  obtain ⟨text, state, htext, -, rfl⟩ := h
  rw [htext] at hread
  obtain rfl : text = source := Option.some.inj hread
  have hok : findConstructions text = .ok [] := by
    cases hlex : findConstructions text with
    | error e => rw [hlex] at hfound; cases hfound
    | ok found => rw [hlex] at hfound; exact congrArg Except.ok (Option.some.inj hfound)
  obtain ⟨ms, hmask, hnil⟩ := CanonicalScript.exists_maskCharacters hok
  have hnone : CanonicalScript.ofText text path state.registry = .ok none :=
    CanonicalScript.ofText_eq_none hmask (fun c hc => by rw [← hnil] at hc; cases hc) _
  unfold PluginState.respond PluginState.canonicalize
  simp only [hnone, if_true]
  rfl

/-- A path with a `.` in it: the body that was kept before the file changed is served again. -/
theorem body_not_isFresh_spelled :
    ∃ s : Server,
      s = (start (.writeText {} ⟨"/app/a.js"⟩ "1") { pipeline := .bundler {} } ⟨"/app"⟩).run
        ([.request { target := "/./a.js" }, .write ⟨"/app/a.js"⟩ "2".toUTF8] ++
          [.change (Path.ofUrl ⟨"/app"⟩ "/./a.js")]) ∧
      (s.fs.readText (Path.ofUrl ⟨"/app"⟩ "/./a.js")).toOption = some "2" ∧
        (s.plugin.request s.fs "/./a.js" [] (s.state, ())).1.toOption.map Option.isNone =
          some true ∧
        (s.handle { target := "/./a.js" }).1.body.text? = some "1" ∧
          ¬ IsBody s.fs ⟨"/app"⟩ "/./a.js" "1" := by
  refine ⟨_, rfl, by decide +kernel, by decide +kernel, by decide +kernel, fun hbody => ?_⟩
  have heq : "1" = "2" := eq_of_isBody (by decide +kernel) (by decide +kernel) hbody
  exact absurd heq (by decide)

end Server

end ModuleWorkers
