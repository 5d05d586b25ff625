/-!
# Dependencies first

The order in which a depth-first walk of a graph leaves its nodes: what a node needs comes in front
of it, as far as nodes do not need each other.
-/

namespace ModuleWorkers.DepthFirst

/-- The nodes that were entered and those that were left, last one first. -/
structure Walk where
  entered : List Nat := []
  left : List Nat := []
  deriving Inhabited, Repr

/-- Walks from a node, unless it was entered or is left out. The depth bounds the nodes on the way
from the root. -/
def walk (edges : Nat → List Nat) (leftOut : Nat → Bool) : Nat → Walk → Nat → Walk
  | 0, w, _ => w
  | depth + 1, w, n =>
    if leftOut n || w.entered.contains n then w
    else
      let w := (edges n).foldl (walk edges leftOut depth) { w with entered := n :: w.entered }
      { w with left := n :: w.left }

/-- The nodes that a root needs, dependencies first. Nodes that are left out are not passed. A graph
of a size has no way without repetitions that is longer. -/
def order (size : Nat) (edges : Nat → List Nat) (leftOut : Nat → Bool) (root : Nat) :
    List Nat :=
  (walk edges leftOut (size + 1) {} root).left.reverse

end ModuleWorkers.DepthFirst
