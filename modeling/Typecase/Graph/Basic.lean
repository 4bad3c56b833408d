set_option autoImplicit false

/-!
# Directed graphs on an initial segment of the naturals

The vertices are `0, …, size - 1` and every vertex carries the list of its
successors in the order in which the edges were added.  An edge is recorded at
most once.
-/

namespace Typecase

/-- A directed graph given by its successor lists. -/
structure Graph where
  /-- Successors of each vertex, oldest edge first. -/
  successors : Array (List Nat)
  deriving DecidableEq, Repr, Inhabited

namespace Graph

/-- The graph on `n` vertices without edges. -/
def empty (n : Nat) : Graph := ⟨Array.replicate n []⟩

/-- Number of vertices. -/
def size (g : Graph) : Nat := g.successors.size

/-- Successors of `v`; a vertex outside the graph has none. -/
def succ (g : Graph) (v : Nat) : List Nat := g.successors.getD v []

def hasEdge (g : Graph) (v w : Nat) : Bool := (g.succ v).contains w

/-- Record the edge from `v` to `w` unless it is there already. -/
def addEdge (g : Graph) (v w : Nat) : Graph :=
  if g.hasEdge v w then g else ⟨g.successors.modify v (· ++ [w])⟩

@[simp] theorem size_empty (n : Nat) : (empty n).size = n := by
  simp [empty, size]

@[simp] theorem size_addEdge (g : Graph) (v w : Nat) : (g.addEdge v w).size = g.size := by
  unfold addEdge size
  split <;> simp

end Graph

end Typecase
