import ModuleWorkers.Plugin.Request
import ModuleWorkers.Proofs.Plugin.Accounts

/-!
# A plugin in use

What can happen to a plugin, in any order: its server starts, scripts are served, files change, and
requests arrive and go on. Each event is what is done under one lock of the state, so that
everything else may happen between the looks of a request, between its last look and the beginning
of the build, and while the pipeline runs. The pipeline itself is not part of a session: a build
ends with any outcome.

`Session.step` is partial. An event that does not fit the state, such as the end of a build that did
not begin or the taking of a lock that is taken, does not happen. What the plugin does itself, with
responses and with requests that take turns, are runs of sessions
(`Session.IsIdle.exists_run_resolveAll`).

What one event can do is told once: `Session.Progress` says it of the requests and their locks, and
`Session.Effect` of the plugin and the maps. What all events keep is proved by cases on these two.
-/

namespace ModuleWorkers

/-- How far a request for content is. -/
inductive RequestStage (ε : Type)
  | arrived
  /-- There was nothing at the first look. The request waits for the lock of its path. -/
  | waiting
  | holding
  /-- It has the lock, and there was nothing at the second look either. -/
  | decided
  /-- It has the lock, and the pipeline runs. -/
  | building (request : BundleRequest)
  | answered (answer : PluginAnswer ε)

def RequestStage.holdsLock {ε : Type} : RequestStage ε → Bool
  | .holding | .decided | .building _ => true
  | _ => false

/-- Whether a request found that it has to build. -/
def RequestStage.isBuild {ε : Type} : RequestStage ε → Bool
  | .decided | .building _ => true
  | _ => false

theorem RequestStage.holdsLock_of_isBuild {ε : Type} {stage : RequestStage ε}
    (h : stage.isBuild) : stage.holdsLock := by
  cases stage <;> cases h <;> rfl

structure PendingRequest (ε : Type) where
  path : String
  stage : RequestStage ε

structure Session (ε : Type) where
  plugin : PluginState := {}
  /-- All requests, in the order in which they arrived. -/
  requests : List (PendingRequest ε) := []
  /-- The paths whose locks are taken. -/
  locked : List String := []
  /-- Maps of scripts that are not stored yet. -/
  maps : List (String × SourceMap) := []

inductive SessionEvent (ε : Type)
  | start (root : Path)
  /-- The workers of a script are registered. -/
  | serve (fs : FileSystem) (path text : String) (isScript : Bool)
  /-- The map of a script that was served is stored. -/
  | storeMap (k : Nat)
  /-- A change that the plugin is told of. -/
  | change (file : Path)
  /-- A change that the watcher reports to its listeners. -/
  | emit (file : Path)
  | arrive (path : String)
  | look (k : Nat)
  | lock (k : Nat)
  | lookAgain (k : Nat)
  /-- The pipeline is called. -/
  | beginBuild (k : Nat)
  | finishBuild (k : Nat) (outcome : Except ε BundleOutput)

namespace SessionEvent

variable {ε : Type}

/-- The request that goes on with an event. -/
def request? : SessionEvent ε → Option Nat
  | .look k | .lock k | .lookAgain k | .beginBuild k | .finishBuild k _ => some k
  | _ => none

/-- The request whose build begins or ends. -/
def build? : SessionEvent ε → Option Nat
  | .beginBuild k | .finishBuild k _ => some k
  | _ => none

/-- The file that changes. -/
def changed? : SessionEvent ε → Option Path
  | .change file | .emit file => some file
  | _ => none

end SessionEvent

/-- The answer that a look gives, if nothing has to be built. -/
def Lookup.answer? {ε : Type} : Lookup → Option (PluginAnswer ε)
  | .found content => some (.ok (some content))
  | .unknown => some (.ok none)
  | .unbuilt => none

namespace Session

variable {ε : Type}

def setStage (s : Session ε) (k : Nat) (stage : RequestStage ε) : Session ε :=
  { s with requests := s.requests.modify k fun r => { r with stage } }

/-- A request is answered and gives back the lock of its path. -/
def leave (s : Session ε) (k : Nat) (path : String) (answer : PluginAnswer ε) : Session ε :=
  { s.setStage k (.answered answer) with locked := s.locked.erase path }

/-- The map of a script that is served. -/
def servedMap? (root : Path) (fs : FileSystem) (path : String) (script : Option CanonicalScript) :
    Option (String × SourceMap) :=
  script.bind fun script => ((ServedScript.ofPath root path).attachMap fs script.buffer).2

def step (options : PluginOptions) (s : Session ε) : SessionEvent ε → Option (Session ε)
  | .start root =>
    if s.plugin.isStarted then none else some { s with plugin := s.plugin.start root }
  | .serve fs path text isScript =>
    let (script, plugin) := s.plugin.canonicalize path text isScript
    some { s with plugin, maps := s.maps ++ (servedMap? plugin.root fs path script).toList }
  | .storeMap k => do
    let (path, m) ← s.maps[k]?
    return { s with plugin := s.plugin.storeMap path m, maps := s.maps.eraseIdx k }
  | .change file => some { s with plugin := (s.plugin.handleChange file).2 }
  | .emit file => some { s with plugin := s.plugin.emit file }
  | .arrive path => some { s with requests := s.requests ++ [⟨path, .arrived⟩] }
  | .look k =>
    match s.requests[k]? with
    | some ⟨path, .arrived⟩ =>
      match (s.plugin.lookup path).answer? with
      | some answer => some (s.setStage k (.answered answer))
      | none => some (s.setStage k .waiting)
    | _ => none
  | .lock k =>
    match s.requests[k]? with
    | some ⟨path, .waiting⟩ =>
      if path ∈ s.locked then none
      else some { s.setStage k .holding with locked := path :: s.locked }
    | _ => none
  | .lookAgain k =>
    match s.requests[k]? with
    | some ⟨path, .holding⟩ =>
      match (s.plugin.lookup path).answer? with
      | some answer => some (s.leave k path answer)
      | none => some (s.setStage k .decided)
    | _ => none
  | .beginBuild k =>
    match s.requests[k]? with
    | some ⟨path, .decided⟩ =>
      match s.plugin.beginBuild path with
      | some (request, plugin) => some { s.setStage k (.building request) with plugin }
      | none => some (s.leave k path (.ok none))
    | _ => none
  | .finishBuild k outcome =>
    match s.requests[k]? with
    | some ⟨path, .building _⟩ =>
      let (code, plugin) := s.plugin.finishBuild options path outcome
      some { s.leave k path (code.map fun c => some (.text c)) with plugin }
    | _ => none

def run (options : PluginOptions) (s : Session ε) (events : List (SessionEvent ε)) :
    Option (Session ε) :=
  events.foldlM (step options) s

variable {options : PluginOptions} {s s' : Session ε}

/-! ## Runs -/

@[simp] theorem run_nil : s.run options [] = some s := rfl

theorem run_cons {ev : SessionEvent ε} {evs : List (SessionEvent ε)} :
    s.run options (ev :: evs) = (s.step options ev).bind (·.run options evs) := by
  unfold run
  rw [List.foldlM_cons]
  rfl

theorem run_append {evs evs' : List (SessionEvent ε)} :
    s.run options (evs ++ evs') = (s.run options evs).bind (·.run options evs') := by
  unfold run
  rw [List.foldlM_append]
  rfl

theorem run_trans {t : Session ε} {evs evs' : List (SessionEvent ε)}
    (h : s.run options evs = some t) (h' : t.run options evs' = some s') :
    s.run options (evs ++ evs') = some s' := by
  rw [run_append, h]
  exact h'

theorem run_singleton {ev : SessionEvent ε} (h : s.step options ev = some s') :
    s.run options [ev] = some s' := by
  rw [run_cons, h]
  rfl

/-- A run that goes one event on. -/
theorem run_concat_eq_some {evs : List (SessionEvent ε)} {ev : SessionEvent ε}
    (h : s.run options (evs ++ [ev]) = some s') :
    ∃ t, s.run options evs = some t ∧ t.step options ev = some s' := by
  rw [run_append, Option.bind_eq_some_iff] at h
  obtain ⟨t, ht, hs⟩ := h
  rw [run_cons, Option.bind_eq_some_iff] at hs
  obtain ⟨t', ht', hs⟩ := hs
  cases hs
  exact ⟨t, ht, ht'⟩

/-- What one event preserves holds at the end of a run. -/
theorem run_induction {P : Session ε → Prop} {evs : List (SessionEvent ε)}
    (h : s.run options evs = some s') (hs : P s)
    (hstep : ∀ t t' ev, P t → t.step options ev = some t' → P t') : P s' := by
  induction evs generalizing s with
  | nil =>
    cases h
    exact hs
  | cons ev evs ih =>
    rw [run_cons, Option.bind_eq_some_iff] at h
    obtain ⟨t, ht, hrun⟩ := h
    exact ih hrun (hstep s t ev hs ht)

/-! ## The events of a run -/

/-- Something holds of each event of a run and the state that the event happens in. -/
def AtEach (options : PluginOptions) (s : Session ε) (evs : List (SessionEvent ε))
    (P : Session ε → SessionEvent ε → Prop) : Prop :=
  ∀ before ev after t, evs = before ++ ev :: after → s.run options before = some t → P t ev

namespace AtEach

variable {P : Session ε → SessionEvent ε → Prop} {ev : SessionEvent ε}
  {evs evs' : List (SessionEvent ε)}

theorem nil : s.AtEach options [] P := by
  intro before ev after t h
  cases before <;> cases h

theorem head (h : s.AtEach options (ev :: evs) P) : P s ev := h [] ev evs s rfl rfl

theorem tail (h : s.AtEach options (ev :: evs) P) (hstep : s.step options ev = some s') :
    s'.AtEach options evs P := by
  rintro before other after t rfl ht
  refine h (ev :: before) other after t rfl ?_
  rw [run_cons, hstep]
  exact ht

theorem left (h : s.AtEach options (evs ++ evs') P) : s.AtEach options evs P := by
  rintro before ev after t rfl ht
  exact h before ev (after ++ evs') t (by simp) ht

theorem right (h : s.AtEach options (evs ++ evs') P) (hrun : s.run options evs = some s') :
    s'.AtEach options evs' P := by
  rintro before ev after t rfl ht
  refine h (evs ++ before) ev after t (List.append_assoc _ _ _).symm ?_
  rw [run_append, hrun]
  exact ht

theorem concat (h : s.AtEach options evs P) (hrun : s.run options evs = some s') (hev : P s' ev) :
    s.AtEach options (evs ++ [ev]) P := by
  intro before other after t heq ht
  rcases List.eq_nil_or_concat after with rfl | ⟨middle, last, rfl⟩
  · obtain ⟨rfl, hlast⟩ := List.append_inj' heq rfl
    cases hlast
    cases hrun.symm.trans ht
    exact hev
  · rw [List.concat_eq_append, ← List.cons_append, ← List.append_assoc] at heq
    obtain ⟨rfl, -⟩ := List.append_inj' heq rfl
    exact h before other middle t rfl ht

end AtEach

/-! ## What the events of a request do -/

theorem step_storeMap {k : Nat} (h : s.step options (.storeMap k) = some s') :
    ∃ path m, s.maps[k]? = some (path, m) ∧
      s' = { s with plugin := s.plugin.storeMap path m, maps := s.maps.eraseIdx k } := by
  unfold step at h
  obtain ⟨⟨path, m⟩, hm, h⟩ := Option.bind_eq_some_iff.1 h
  exact ⟨path, m, hm, (Option.some.inj h).symm⟩

theorem step_look {k : Nat} (h : s.step options (.look k) = some s') :
    ∃ path, s.requests[k]? = some ⟨path, .arrived⟩ ∧
      ((∃ answer, (s.plugin.lookup path).answer? = some answer ∧
          s' = s.setStage k (.answered answer)) ∨
        ((s.plugin.lookup path).answer? = (none : Option (PluginAnswer ε)) ∧
          s' = s.setStage k .waiting)) := by
  unfold step at h
  dsimp only at h
  split at h
  · rename_i path hk
    refine ⟨path, hk, ?_⟩
    split at h
    · rename_i answer ha
      exact .inl ⟨answer, ha, (Option.some.inj h).symm⟩
    · rename_i ha
      exact .inr ⟨ha, (Option.some.inj h).symm⟩
  · cases h

theorem step_lock {k : Nat} (h : s.step options (.lock k) = some s') :
    ∃ path, s.requests[k]? = some ⟨path, .waiting⟩ ∧ path ∉ s.locked ∧
      s' = { s.setStage k .holding with locked := path :: s.locked } := by
  unfold step at h
  dsimp only at h
  split at h
  · rename_i path hk
    split at h
    · cases h
    · rename_i hlocked
      exact ⟨path, hk, hlocked, (Option.some.inj h).symm⟩
  · cases h

theorem step_lookAgain {k : Nat} (h : s.step options (.lookAgain k) = some s') :
    ∃ path, s.requests[k]? = some ⟨path, .holding⟩ ∧
      ((∃ answer, (s.plugin.lookup path).answer? = some answer ∧ s' = s.leave k path answer) ∨
        ((s.plugin.lookup path).answer? = (none : Option (PluginAnswer ε)) ∧
          s' = s.setStage k .decided)) := by
  unfold step at h
  dsimp only at h
  split at h
  · rename_i path hk
    refine ⟨path, hk, ?_⟩
    split at h
    · rename_i answer ha
      exact .inl ⟨answer, ha, (Option.some.inj h).symm⟩
    · rename_i ha
      exact .inr ⟨ha, (Option.some.inj h).symm⟩
  · cases h

theorem step_beginBuild {k : Nat} (h : s.step options (.beginBuild k) = some s') :
    ∃ path, s.requests[k]? = some ⟨path, .decided⟩ ∧
      ((∃ request plugin, s.plugin.beginBuild path = some (request, plugin) ∧
          s' = { s.setStage k (.building request) with plugin }) ∨
        (s.plugin.beginBuild path = none ∧ s' = s.leave k path (.ok none))) := by
  unfold step at h
  dsimp only at h
  split at h
  · rename_i path hk
    refine ⟨path, hk, ?_⟩
    split at h
    · rename_i request plugin hb
      exact .inl ⟨request, plugin, hb, (Option.some.inj h).symm⟩
    · rename_i hb
      exact .inr ⟨hb, (Option.some.inj h).symm⟩
  · cases h

theorem step_finishBuild {k : Nat} {outcome : Except ε BundleOutput}
    (h : s.step options (.finishBuild k outcome) = some s') :
    ∃ path request, s.requests[k]? = some ⟨path, .building request⟩ ∧
      s' = { s.leave k path ((s.plugin.finishBuild options path outcome).1.map
          fun c => some (.text c)) with
        plugin := (s.plugin.finishBuild options path outcome).2 } := by
  unfold step at h
  dsimp only at h
  split at h
  · rename_i path request hk
    exact ⟨path, request, hk, (Option.some.inj h).symm⟩
  · cases h

theorem step_start {root : Path} (h : s.step options (.start root) = some s') :
    s.plugin.isStarted = false ∧ s' = { s with plugin := s.plugin.start root } := by
  unfold step at h
  dsimp only at h
  split at h
  · cases h
  · rename_i hs
    exact ⟨by simpa using hs, (Option.some.inj h).symm⟩

/-! ## Events that happen -/

section Onward

variable {k : Nat} {path : String}

theorem storeMap_of_get? {m : SourceMap} (hm : s.maps[k]? = some (path, m)) :
    s.step options (.storeMap k) =
      some { s with plugin := s.plugin.storeMap path m, maps := s.maps.eraseIdx k } :=
  Option.bind_eq_some_iff.2 ⟨_, hm, rfl⟩

theorem look_of_answer {answer : PluginAnswer ε} (hk : s.requests[k]? = some ⟨path, .arrived⟩)
    (ha : (s.plugin.lookup path).answer? = some answer) :
    s.step options (.look k) = some (s.setStage k (.answered answer)) := by
  simp only [step, hk, ha]

theorem look_of_unbuilt (hk : s.requests[k]? = some ⟨path, .arrived⟩)
    (hn : (s.plugin.lookup path).answer? = (none : Option (PluginAnswer ε))) :
    s.step options (.look k) = some (s.setStage k .waiting) := by
  simp only [step, hk, hn]

theorem lock_of_free (hk : s.requests[k]? = some ⟨path, .waiting⟩) (hfree : path ∉ s.locked) :
    s.step options (.lock k) = some { s.setStage k .holding with locked := path :: s.locked } := by
  simp only [step, hk, if_neg hfree]

theorem lookAgain_of_answer {answer : PluginAnswer ε}
    (hk : s.requests[k]? = some ⟨path, .holding⟩)
    (ha : (s.plugin.lookup path).answer? = some answer) :
    s.step options (.lookAgain k) = some (s.leave k path answer) := by
  simp only [step, hk, ha]

theorem lookAgain_of_unbuilt (hk : s.requests[k]? = some ⟨path, .holding⟩)
    (hn : (s.plugin.lookup path).answer? = (none : Option (PluginAnswer ε))) :
    s.step options (.lookAgain k) = some (s.setStage k .decided) := by
  simp only [step, hk, hn]

theorem beginBuild_of_some {request : BundleRequest} {plugin : PluginState}
    (hk : s.requests[k]? = some ⟨path, .decided⟩)
    (hb : s.plugin.beginBuild path = some (request, plugin)) :
    s.step options (.beginBuild k) = some { s.setStage k (.building request) with plugin } := by
  simp only [step, hk, hb]

theorem beginBuild_of_none (hk : s.requests[k]? = some ⟨path, .decided⟩)
    (hb : s.plugin.beginBuild path = none) :
    s.step options (.beginBuild k) = some (s.leave k path (.ok none)) := by
  simp only [step, hk, hb]

theorem finishBuild_of_building {request : BundleRequest}
    (hk : s.requests[k]? = some ⟨path, .building request⟩) (outcome : Except ε BundleOutput) :
    s.step options (.finishBuild k outcome) =
      some { s.leave k path ((s.plugin.finishBuild options path outcome).1.map
          fun c => some (.text c)) with
        plugin := (s.plugin.finishBuild options path outcome).2 } := by
  simp only [step, hk]

end Onward

/-! ## What an event does to a request -/

/-- How far one event brings the request with an index. -/
inductive Move (options : PluginOptions) (s : PluginState) (path : String) (k : Nat) :
    SessionEvent ε → RequestStage ε → RequestStage ε → Prop
  | look_answer {a : PluginAnswer ε} (h : (s.lookup path).answer? = some a) :
    Move options s path k (.look k) .arrived (.answered a)
  | look_wait : Move options s path k (.look k) .arrived .waiting
  | lock : Move options s path k (.lock k) .waiting .holding
  | lookAgain_answer {a : PluginAnswer ε} (h : (s.lookup path).answer? = some a) :
    Move options s path k (.lookAgain k) .holding (.answered a)
  | lookAgain_decide (h : (s.lookup path).answer? = (none : Option (PluginAnswer ε))) :
    Move options s path k (.lookAgain k) .holding .decided
  | beginBuild {request : BundleRequest} {s' : PluginState}
    (h : s.beginBuild path = some (request, s')) :
    Move options s path k (.beginBuild k) .decided (.building request)
  | beginBuild_unknown (h : s.beginBuild path = none) :
    Move options s path k (.beginBuild k) .decided (.answered (.ok none))
  | finishBuild {request : BundleRequest} {outcome : Except ε BundleOutput} :
    Move options s path k (.finishBuild k outcome) (.building request)
      (.answered ((s.finishBuild options path outcome).1.map fun c => some (.text c)))

/-- After a request went on, each request is that one or was there before. -/
theorem getElem?_modify_stage {requests : List (PendingRequest ε)} {k : Nat} {path : String}
    {old : RequestStage ε} (hk : requests[k]? = some ⟨path, old⟩) (stage : RequestStage ε)
    (j : Nat) :
    (requests.modify k fun r => { r with stage })[j]? =
      if k = j then some ⟨path, stage⟩ else requests[j]? := by
  rw [List.getElem?_modify]
  by_cases hj : k = j
  · subst hj
    simp [hk]
  · simp [hj]

/-- A request that went on is as far as is said. -/
theorem getElem?_modify_self {requests : List (PendingRequest ε)} {k : Nat} {path : String}
    {old : RequestStage ε} (hk : requests[k]? = some ⟨path, old⟩) (stage : RequestStage ε) :
    (requests.modify k fun r => { r with stage })[k]? = some ⟨path, stage⟩ := by
  rw [getElem?_modify_stage hk, if_pos rfl]

/-- A request that was not there before has just arrived. -/
theorem getElem?_append_arrived {requests : List (PendingRequest ε)} {j : Nat} {path : String}
    {r : PendingRequest ε} (h : (requests ++ [⟨path, .arrived⟩])[j]? = some r) :
    requests[j]? = some r ∨ r = ⟨path, .arrived⟩ := by
  rw [List.getElem?_append] at h
  split at h
  · exact .inl h
  · obtain ⟨hj, hr⟩ := List.getElem?_eq_some_iff.1 h
    rw [List.getElem_singleton] at hr
    exact .inr hr.symm

theorem Move.request?_eq {s : PluginState} {ev : SessionEvent ε} {k : Nat} {path : String}
    {old stage : RequestStage ε} (h : Move options s path k ev old stage) :
    ev.request? = some k := by
  cases h <;> rfl

/-! ## What an event does -/

/-- What an event does to the requests and to the locks of their paths. -/
inductive Progress (options : PluginOptions) (s : Session ε) :
    SessionEvent ε → List (PendingRequest ε) → List String → Prop
  | same {ev : SessionEvent ε} (h : ev.request? = none) :
    Progress options s ev s.requests s.locked
  | arrive {path : String} :
    Progress options s (.arrive path) (s.requests ++ [⟨path, .arrived⟩]) s.locked
  /-- A request goes on and has its lock as before. -/
  | move {ev : SessionEvent ε} {k : Nat} {path : String} {old stage : RequestStage ε}
    (hk : s.requests[k]? = some ⟨path, old⟩) (hm : Move options s.plugin path k ev old stage)
    (hlock : stage.holdsLock = old.holdsLock) :
    Progress options s ev (s.requests.modify k fun r => { r with stage }) s.locked
  | take {ev : SessionEvent ε} {k : Nat} {path : String} {old stage : RequestStage ε}
    (hk : s.requests[k]? = some ⟨path, old⟩) (hm : Move options s.plugin path k ev old stage)
    (hfree : path ∉ s.locked) (hstage : stage.holdsLock) :
    Progress options s ev (s.requests.modify k fun r => { r with stage }) (path :: s.locked)
  | leave {ev : SessionEvent ε} {k : Nat} {path : String} {old stage : RequestStage ε}
    (hk : s.requests[k]? = some ⟨path, old⟩) (hm : Move options s.plugin path k ev old stage)
    (hold : old.holdsLock) (hstage : stage.holdsLock = false) :
    Progress options s ev (s.requests.modify k fun r => { r with stage }) (s.locked.erase path)

/-- What an event does to the plugin and to the maps that are not stored yet. -/
inductive Effect (options : PluginOptions) (s : Session ε) :
    SessionEvent ε → PluginState → List (String × SourceMap) → Prop
  | same {ev : SessionEvent ε} (hbuild : ev.build? = none)
    (hchanged : ev.changed? = none) : Effect options s ev s.plugin s.maps
  | start {root : Path} (h : s.plugin.isStarted = false) :
    Effect options s (.start root) (s.plugin.start root) s.maps
  | serve {fs : FileSystem} {path text : String} {isScript : Bool} :
    Effect options s (.serve fs path text isScript) (s.plugin.canonicalize path text isScript).2
      (s.maps ++ (servedMap? (s.plugin.canonicalize path text isScript).2.root fs path
        (s.plugin.canonicalize path text isScript).1).toList)
  | storeMap {k : Nat} {path : String} {m : SourceMap} (hk : s.maps[k]? = some (path, m)) :
    Effect options s (.storeMap k) (s.plugin.storeMap path m) (s.maps.eraseIdx k)
  | change {file : Path} :
    Effect options s (.change file) (s.plugin.handleChange file).2 s.maps
  | emit {file : Path} : Effect options s (.emit file) (s.plugin.emit file) s.maps
  | beginBuild {k : Nat} {path : String} {request : BundleRequest} {plugin : PluginState}
    (hk : s.requests[k]? = some ⟨path, .decided⟩)
    (hb : s.plugin.beginBuild path = some (request, plugin)) :
    Effect options s (.beginBuild k) plugin s.maps
  | beginBuild_unknown {k : Nat} {path : String} (hk : s.requests[k]? = some ⟨path, .decided⟩)
    (hb : s.plugin.beginBuild path = none) : Effect options s (.beginBuild k) s.plugin s.maps
  | finishBuild {k : Nat} {path : String} {request : BundleRequest}
    {outcome : Except ε BundleOutput} (hk : s.requests[k]? = some ⟨path, .building request⟩) :
    Effect options s (.finishBuild k outcome) (s.plugin.finishBuild options path outcome).2 s.maps

theorem progress_step {ev : SessionEvent ε} (h : s.step options ev = some s') :
    Progress options s ev s'.requests s'.locked := by
  cases ev with
  | start root =>
    obtain ⟨-, rfl⟩ := step_start h
    exact .same rfl
  | serve fs path text isScript =>
    cases h
    exact .same rfl
  | storeMap k =>
    obtain ⟨path, m, -, rfl⟩ := step_storeMap h
    exact .same rfl
  | change file =>
    cases h
    exact .same rfl
  | emit file =>
    cases h
    exact .same rfl
  | arrive path =>
    cases h
    exact .arrive
  | look k =>
    obtain ⟨path, hk, ⟨answer, ha, rfl⟩ | ⟨-, rfl⟩⟩ := step_look h
    · exact .move hk (.look_answer ha) rfl
    · exact .move hk .look_wait rfl
  | lock k =>
    obtain ⟨path, hk, hfree, rfl⟩ := step_lock h
    exact .take hk .lock hfree rfl
  | lookAgain k =>
    obtain ⟨path, hk, ⟨answer, ha, rfl⟩ | ⟨hn, rfl⟩⟩ := step_lookAgain h
    · exact .leave hk (.lookAgain_answer ha) rfl rfl
    · exact .move hk (.lookAgain_decide hn) rfl
  | beginBuild k =>
    obtain ⟨path, hk, ⟨request, plugin, hb, rfl⟩ | ⟨hb, rfl⟩⟩ := step_beginBuild h
    · exact .move hk (.beginBuild hb) rfl
    · exact .leave hk (.beginBuild_unknown hb) rfl rfl
  | finishBuild k outcome =>
    obtain ⟨path, request, hk, rfl⟩ := step_finishBuild h
    exact .leave hk .finishBuild rfl rfl

theorem effect_step {ev : SessionEvent ε} (h : s.step options ev = some s') :
    Effect options s ev s'.plugin s'.maps := by
  cases ev with
  | start root =>
    obtain ⟨hs, rfl⟩ := step_start h
    exact .start hs
  | serve fs path text isScript =>
    cases h
    exact .serve
  | storeMap k =>
    obtain ⟨path, m, hk, rfl⟩ := step_storeMap h
    exact .storeMap hk
  | change file =>
    cases h
    exact .change
  | emit file =>
    cases h
    exact .emit
  | arrive path =>
    cases h
    exact .same rfl rfl
  | look k =>
    obtain ⟨path, -, ⟨answer, -, rfl⟩ | ⟨-, rfl⟩⟩ := step_look h
    · exact .same rfl rfl
    · exact .same rfl rfl
  | lock k =>
    obtain ⟨path, -, -, rfl⟩ := step_lock h
    exact .same rfl rfl
  | lookAgain k =>
    obtain ⟨path, -, ⟨answer, -, rfl⟩ | ⟨-, rfl⟩⟩ := step_lookAgain h
    · exact .same rfl rfl
    · exact .same rfl rfl
  | beginBuild k =>
    obtain ⟨path, hk, ⟨request, plugin, hb, rfl⟩ | ⟨hb, rfl⟩⟩ := step_beginBuild h
    · exact .beginBuild hk hb
    · exact .beginBuild_unknown hk hb
  | finishBuild k outcome =>
    obtain ⟨path, request, hk, rfl⟩ := step_finishBuild h
    exact .finishBuild hk

/-! ## What an event does to the requests -/

theorem requests_modify {ev : SessionEvent ε} {requests : List (PendingRequest ε)} {j k : Nat}
    {path : String} {old stage : RequestStage ε} {r : PendingRequest ε}
    (hk : requests[k]? = some ⟨path, old⟩) (hm : Move options s.plugin path k ev old stage)
    (hr : (requests.modify k fun r => { r with stage })[j]? = some r) :
    requests[j]? = some r ∨ r.stage = .arrived ∨
      ∃ old, requests[j]? = some ⟨r.path, old⟩ ∧ Move options s.plugin r.path j ev old r.stage := by
  rw [getElem?_modify_stage hk] at hr
  split at hr
  · rename_i hj
    subst hj
    cases hr
    exact .inr (.inr ⟨old, hk, hm⟩)
  · exact .inl hr

/-- What a request is after an event: what it was, or one that arrived, or one that went on. -/
theorem requests_step {ev : SessionEvent ε} (h : s.step options ev = some s') {j : Nat}
    {r : PendingRequest ε} (hr : s'.requests[j]? = some r) :
    s.requests[j]? = some r ∨ r.stage = .arrived ∨
      ∃ old, s.requests[j]? = some ⟨r.path, old⟩ ∧
        Move options s.plugin r.path j ev old r.stage := by
  have hp := progress_step h
  generalize s'.requests = requests, s'.locked = locked at hp hr
  cases hp with
  | same => exact .inl hr
  | arrive =>
    rcases getElem?_append_arrived hr with hr | rfl
    · exact .inl hr
    · exact .inr (.inl rfl)
  | move hk hm _ => exact requests_modify hk hm hr
  | take hk hm _ _ => exact requests_modify hk hm hr
  | leave hk hm _ _ => exact requests_modify hk hm hr

theorem path_modify (requests : List (PendingRequest ε)) (j k : Nat) (stage : RequestStage ε) :
    (requests.modify k fun r => { r with stage })[j]?.map (·.path) =
      requests[j]?.map (·.path) := by
  rw [List.getElem?_modify, Option.map_eq_map, Option.map_map]
  congr 1
  funext r
  dsimp only [Function.comp]
  split <;> rfl

/-- Requests stay, with their paths. -/
theorem path_step {ev : SessionEvent ε} (h : s.step options ev = some s') {j : Nat}
    {path : String} (hj : s.requests[j]?.map (·.path) = some path) :
    s'.requests[j]?.map (·.path) = some path := by
  have hp := progress_step h
  generalize s'.requests = requests, s'.locked = locked at hp ⊢
  cases hp with
  | same => exact hj
  | arrive =>
    have hlt : j < s.requests.length := by
      obtain ⟨r, hr, -⟩ := Option.map_eq_some_iff.1 hj
      exact (List.getElem?_eq_some_iff.1 hr).1
    rwa [List.getElem?_append_left hlt]
  | move => rwa [path_modify]
  | take => rwa [path_modify]
  | leave => rwa [path_modify]

/-- An event of a request brings it on. -/
theorem exists_move {ev : SessionEvent ε} {k : Nat} {path : String} {stage : RequestStage ε}
    (hk : s.requests[k]? = some ⟨path, stage⟩) (hev : ev.request? = some k)
    (h : s.step options ev = some s') :
    ∃ new, s'.requests[k]? = some ⟨path, new⟩ ∧ Move options s.plugin path k ev stage new := by
  have hmove : ∀ {j q old new}, s.requests[j]? = some ⟨q, old⟩ →
      Move options s.plugin q j ev old new →
      ∃ new', (s.requests.modify j fun r => { r with stage := new })[k]? = some ⟨path, new'⟩ ∧
        Move options s.plugin path k ev stage new' := by
    intro j q old new hj hm
    cases hm.request?_eq.symm.trans hev
    cases hk.symm.trans hj
    exact ⟨new, getElem?_modify_self hk new, hm⟩
  have hp := progress_step h
  generalize s'.requests = requests, s'.locked = locked at hp ⊢
  cases hp with
  | same hnone =>
    rw [hnone] at hev
    cases hev
  | arrive => cases hev
  | move hj hm _ => exact hmove hj hm
  | take hj hm _ _ => exact hmove hj hm
  | leave hj hm _ _ => exact hmove hj hm

/-! ## What an event does to builds -/

/-- Whose build begins or ends found that it has to build. -/
theorem exists_isBuild_of_step {ev : SessionEvent ε} (h : s.step options ev = some s') {k : Nat}
    (hbuild : ev.build? = some k) :
    ∃ path stage, s.requests[k]? = some ⟨path, stage⟩ ∧ stage.isBuild := by
  cases ev with
  | beginBuild j =>
    cases hbuild
    obtain ⟨path, hk, -⟩ := step_beginBuild h
    exact ⟨path, _, hk, rfl⟩
  | finishBuild j outcome =>
    cases hbuild
    obtain ⟨path, request, hk, -⟩ := step_finishBuild h
    exact ⟨path, _, hk, rfl⟩
  | _ => cases hbuild

/-- An event neither begins nor ends a build of a path. -/
def IsElsewhere (s : Session ε) (path : String) (ev : SessionEvent ε) : Prop :=
  ∀ k, ev.build? = some k → ∃ other, s.requests[k]?.map (·.path) = some other ∧ other ≠ path

theorem IsElsewhere.step {path : String} {ev ev' : SessionEvent ε} (h : s.IsElsewhere path ev)
    (hstep : s.step options ev' = some s') : s'.IsElsewhere path ev := by
  intro k hk
  obtain ⟨other, hother, hne⟩ := h k hk
  exact ⟨other, path_step hstep hother, hne⟩

theorem IsElsewhere.run {path : String} {ev : SessionEvent ε} (h : s.IsElsewhere path ev)
    {evs : List (SessionEvent ε)} (hrun : s.run options evs = some s') : s'.IsElsewhere path ev :=
  run_induction (P := (·.IsElsewhere path ev)) hrun h fun _ _ _ ht hstep => ht.step hstep

/-- The build of a request concerns its path alone. -/
theorem isElsewhere_of_ne {ev : SessionEvent ε} {k : Nat} {path : String} {stage : RequestStage ε}
    (hstep : s.step options ev = some s') (hk : s.requests[k]? = some ⟨path, stage⟩)
    (hbuild : ev.build? = some k) {q : String} (hq : path ≠ q) : s'.IsElsewhere q ev := by
  intro j hj
  rw [hbuild] at hj
  cases hj
  exact ⟨path, path_step hstep (by rw [hk]; rfl), hq⟩

/-- Events that neither begin nor end a build. -/
theorem later_step {ev : SessionEvent ε} (h : s.step options ev = some s')
    (hbuild : ev.build? = none) : s.plugin.registry.Later s'.plugin.registry := by
  have he := effect_step h
  generalize s'.plugin = plugin, s'.maps = maps at he ⊢
  cases he with
  | same => exact .refl _
  | start => exact .refl _
  | serve => exact (s.plugin.later_canonicalize _ _ _).registry
  | storeMap => exact .refl _
  | change => exact (s.plugin.later_handleChange _).registry
  | emit => exact (s.plugin.later_emit _).registry
  | beginBuild => cases hbuild
  | beginBuild_unknown => cases hbuild
  | finishBuild => cases hbuild

/-! ## A run -/

/-- The events of a request that builds a worker. -/
def buildEvents (k : Nat) (path : String) (output : BundleOutput) : List (SessionEvent ε) :=
  [.arrive path, .look k, .lock k, .lookAgain k, .beginBuild k, .finishBuild k (.ok output)]

/-- Two workers of one script are built one after the other from a file that both need. -/
def sharedFileEvents : List (SessionEvent ε) :=
  let output : BundleOutput :=
    { code := "0;", map := .empty ⟨"/app"⟩, watchFiles := [⟨"/app/shared.js"⟩] }
  .serve {} "/main.js"
      ("new Worker('./v.js', \x7btype: 'module'\x7d); " ++
        "new Worker('./w.js', \x7btype: 'module'\x7d);") true ::
    buildEvents 0 "/v.js" output ++ buildEvents 1 "/w.js" output

end Session

end ModuleWorkers
