import ModuleWorkers.Watch.Host
/-!
# Files that are watched for several listeners

Counts for each file how many listeners need it, so that a file is watched from the first listener
that needs it to the last one.
-/

namespace ModuleWorkers

/-- How many listeners need each file. No count is zero. -/
abbrev WatchCounts := List (Path × Nat)

namespace WatchCounts

def count (counts : WatchCounts) (file : Path) : Nat :=
  ((counts.find? fun (p, _) => p == file).map (·.2)).getD 0

/-- Counts one more listener for a file. -/
def increment (counts : WatchCounts) (file : Path) : WatchCounts :=
  if counts.count file = 0 then counts ++ [(file, 1)]
  else counts.map fun (p, n) => if p == file then (p, n + 1) else (p, n)

/-- Counts one listener less for a file, if there are any. -/
def decrement (counts : WatchCounts) (file : Path) : WatchCounts :=
  (counts.map fun (p, n) => if p == file then (p, n - 1) else (p, n)).filter fun (_, n) => n != 0

end WatchCounts

structure SharedWatcher (α : Type) where
  host : WatchHost α := {}
  counts : WatchCounts := []
  deriving Inhabited, Repr

namespace SharedWatcher

variable {α : Type}

/-- Watches files for a listener. -/
def watch (w : SharedWatcher α) (files : PathSet) (listener : α) : ListenerId × SharedWatcher α :=
  let host := w.host.watch (files.filter (w.counts.count · == 0))
  let (id, host) := host.listen listener
  (id, ⟨host, files.foldl WatchCounts.increment w.counts⟩)

/-- Removes a listener that files were watched for. -/
def unwatch (w : SharedWatcher α) (id : ListenerId) (files : PathSet) : SharedWatcher α :=
  let host := (w.host.unlisten id).unwatch (files.filter (w.counts.count · == 1))
  ⟨host, files.foldl WatchCounts.decrement w.counts⟩

/-- Adds a listener that hears of all changes. -/
def listen (w : SharedWatcher α) (listener : α) : ListenerId × SharedWatcher α :=
  let (id, host) := w.host.listen listener
  (id, { w with host })

end SharedWatcher

end ModuleWorkers
