import ModuleWorkers.Plugin.Request
/-!
# Requests at the same time

Several requests take turns. One whose worker has to be built takes the lock of the path, and others
for the path wait for it in their order; when they get it they look again, so that they share the
build if it can be used. A build lets all others have their turns before it goes on.
-/

namespace ModuleWorkers

/-- A request for the content at a path, with its number among the requests. -/
structure ResolveTask where
  number : Nat
  path : String
  deriving DecidableEq, Inhabited, Repr

/-- How far a request is. -/
inductive ResolveStage
  | arrived
  /-- It was given the lock of its path, for which it waited. -/
  | holding
  /-- It has the lock, and its build began. -/
  | building (request : BundleRequest)
  deriving Inhabited, Repr

structure Schedule (σ ε : Type) where
  plugin : PluginState × σ
  /-- Requests that can go on, in their order. -/
  ready : List (ResolveTask × ResolveStage)
  /-- Requests whose builds let others have their turns, last one first. -/
  paused : List (ResolveTask × ResolveStage) := []
  /-- Requests that wait for a lock, in their order. -/
  waiting : List ResolveTask := []
  /-- The paths whose locks are taken. -/
  locked : List String := []
  answers : List (Nat × PluginAnswer ε) := []

namespace Schedule

variable {σ ε : Type}

/-- Passes the lock of a path on to the first request that waits for it. -/
def release (s : Schedule σ ε) (path : String) : Schedule σ ε :=
  match s.waiting.find? (·.path == path) with
  | some t =>
    { s with waiting := s.waiting.erase t, ready := s.ready ++ [(t, .holding)] }
  | none => { s with locked := s.locked.erase path }

def answer (s : Schedule σ ε) (t : ResolveTask) (a : PluginAnswer ε) : Schedule σ ε :=
  { s with answers := (t.number, a) :: s.answers }

/-- Begins the build of a request that has the lock. -/
def beginBuild (s : Schedule σ ε) (t : ResolveTask) : Schedule σ ε :=
  match s.plugin.1.beginBuild t.path with
  | some (request, state) =>
    { s with plugin := (state, s.plugin.2), paused := (t, .building request) :: s.paused }
  | none => (s.answer t (.ok none)).release t.path

/-- A request that arrives looks for content, and takes the lock if a build is needed. -/
def arrive (s : Schedule σ ε) (t : ResolveTask) : Schedule σ ε :=
  match s.plugin.1.lookup t.path with
  | .found content => s.answer t (.ok (some content))
  | .unknown => s.answer t (.ok none)
  | .unbuilt =>
    if s.locked.contains t.path then { s with waiting := s.waiting ++ [t] }
    else beginBuild { s with locked := t.path :: s.locked } t

/-- A request that got the lock looks again. -/
def proceed (s : Schedule σ ε) (t : ResolveTask) : Schedule σ ε :=
  match s.plugin.1.lookup t.path with
  | .found content => (s.answer t (.ok (some content))).release t.path
  | .unknown => (s.answer t (.ok none)).release t.path
  | .unbuilt => s.beginBuild t

/-- A request whose build began ends it. -/
def finish (p : Plugin σ ε) (fs : FileSystem) (s : Schedule σ ε) (t : ResolveTask)
    (request : BundleRequest) : Schedule σ ε :=
  let (code, plugin) := p.runBuild fs request s.plugin
  (answer { s with plugin } t (code.map fun c => some (.text c))).release t.path

/-- One turn. If no request can go on, the builds that paused do. -/
def turn (p : Plugin σ ε) (fs : FileSystem) (s : Schedule σ ε) : Schedule σ ε :=
  match s.ready with
  | [] =>
    { s with
      ready := if p.pipeline.lastEndsFirst then s.paused else s.paused.reverse
      paused := [] }
  | (t, stage) :: ready =>
    let s := { s with ready }
    match stage with
    | .arrived => s.arrive t
    | .holding => s.proceed t
    | .building request => finish p fs s t request

/-- Takes a number of turns. -/
def turns (p : Plugin σ ε) (fs : FileSystem) : Nat → Schedule σ ε → Schedule σ ε
  | 0, s => s
  | n + 1, s => turns p fs n (s.turn p fs)

end Schedule

namespace Plugin

variable {σ ε : Type}

/-- The contents at paths, requested at the same time. Each request has at most three turns of its
own, and goes on after a pause at most once. -/
def resolveAll (p : Plugin σ ε) (fs : FileSystem) (paths : List String) (s : PluginState × σ) :
    List (PluginAnswer ε) × PluginState × σ :=
  let tasks := paths.zipIdx.map fun (path, k) => ((⟨k, path⟩ : ResolveTask), ResolveStage.arrived)
  let done := Schedule.turns p fs (4 * paths.length) { plugin := s, ready := tasks }
  let answers := (List.range paths.length).map fun k => (done.answers.lookup k).getD (.ok none)
  (answers, done.plugin)

end Plugin

end ModuleWorkers
