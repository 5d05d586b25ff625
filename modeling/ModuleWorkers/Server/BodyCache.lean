/-!
# Bodies that were served

Bodies are kept by the path that was requested and by the partition of the clients that they are
for; `none` is the partition of all clients that have none of their own.
-/

namespace ModuleWorkers

/-- Bodies that were served, last one first; no two have the same path and partition. -/
structure BodyCache where
  bodies : List ((String × Option String) × String) := []
  deriving Inhabited, Repr

namespace BodyCache

def get? (c : BodyCache) (path : String) (partition : Option String) : Option String :=
  c.bodies.lookup (path, partition)

def insert (c : BodyCache) (path : String) (partition : Option String) (body : String) :
    BodyCache :=
  ⟨((path, partition), body) :: c.bodies.filter fun (k, _) => k != (path, partition)⟩

/-- Whether there is a body for a path, whatever its partition. -/
def contains (c : BodyCache) (path : String) : Bool := c.bodies.any fun ((p, _), _) => p == path

/-- Drops the bodies of a path for all partitions. -/
def erase (c : BodyCache) (path : String) : BodyCache :=
  ⟨c.bodies.filter fun ((p, _), _) => p != path⟩

@[simp]
theorem get?_insert_self (c : BodyCache) (path : String) (partition : Option String)
    (body : String) : (c.insert path partition body).get? path partition = some body := by
  simp [insert, get?]

end BodyCache

end ModuleWorkers
