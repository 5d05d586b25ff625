import ModuleWorkers.Path.File
/-!
# Watchers of files

A watcher is told which files to watch and who listens. A change is reported to all listeners, in
the order in which they were added. What listeners do is not known here: they are values of a type
of the user, who runs them.
-/

namespace ModuleWorkers

/-- The number of a listener. -/
abbrev ListenerId := Nat

structure WatchHost (α : Type) where
  watched : PathSet := []
  /-- Listeners in the order in which they were added. -/
  listeners : List (ListenerId × α) := []
  /-- The number of the listener that is added next. -/
  next : ListenerId := 0
  deriving Inhabited, Repr

namespace WatchHost

variable {α : Type}

def watch (h : WatchHost α) (files : List Path) : WatchHost α :=
  { h with watched := files.foldl (fun s p => PathSet.insert p s) h.watched }

def unwatch (h : WatchHost α) (files : List Path) : WatchHost α :=
  { h with watched := h.watched.filter (!files.contains ·) }

def isWatched (h : WatchHost α) (file : Path) : Bool := h.watched.contains file

/-- Adds a listener, which gets the next number. -/
def listen (h : WatchHost α) (listener : α) : ListenerId × WatchHost α :=
  (h.next, { h with listeners := h.listeners ++ [(h.next, listener)], next := h.next + 1 })

/-- Removes a listener, if it is there. -/
def unlisten (h : WatchHost α) (id : ListenerId) : WatchHost α :=
  { h with listeners := h.listeners.filter fun (k, _) => k != id }

end WatchHost

end ModuleWorkers
