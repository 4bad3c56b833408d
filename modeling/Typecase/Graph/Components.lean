import Typecase.Graph.Basic
set_option autoImplicit false

/-!
# Strongly connected components

A depth-first search numbers the vertices as it discovers them and keeps the
discovered vertices whose component is still open on a stack.  A search from `v`
reports the least number it can reach on that stack; when this is the number of
`v` itself, the part of the stack down to `v` is a component.

A component is finished before every component that leads to it, so putting each
finished component in front of the earlier ones lists them in topological order:
the source of an edge between two components comes first.
-/

namespace Typecase.Graph

/-- The state of a search. -/
structure Search where
  /-- Discovery number of each vertex, `0` while it is undiscovered. -/
  number : Array Nat
  discovered : Nat
  /-- Discovered vertices whose component is open, latest first. -/
  stack : List Nat
  /-- Finished components, latest first. -/
  components : List (List Nat)
  deriving DecidableEq, Repr, Inhabited

namespace Search

/-- Nothing is discovered yet in a graph of `n` vertices. -/
def start (n : Nat) : Search := ⟨Array.replicate n 0, 0, [], []⟩

/-- The discovery number of a vertex. -/
def numberOf (s : Search) (v : Nat) : Nat := s.number.getD v 0

/-- Give `v` the next number and open it. -/
def discover (s : Search) (v : Nat) : Search :=
  { s with
    number := s.number.setIfInBounds v (s.discovered + 1)
    discovered := s.discovered + 1
    stack := v :: s.stack }

/-- Close the component of `v`: the stack down to and including `v`. -/
def close (s : Search) (v : Nat) : Search :=
  { s with
    stack := (s.stack.dropWhile (· != v)).tail
    components := (s.stack.takeWhile (· != v) ++ [v]) :: s.components }

end Search

/-- Follow the edges of one vertex.  `visit` searches from an undiscovered
target; the result is the least number reached, starting from `low`. -/
def explore (visit : Nat → Search → Nat × Search) : List Nat → Nat → Search → Nat × Search
  | [], low, s => (low, s)
  | w :: ws, low, s =>
    if s.numberOf w = 0 then
      let (reached, s) := visit w s
      explore visit ws (min low reached) s
    else if s.stack.contains w then
      explore visit ws (min low (s.numberOf w)) s
    else
      explore visit ws low s

/-- Search from the undiscovered vertex `v`.  The first argument bounds the depth
of the search; every level discovers a vertex, so the number of vertices is
enough. -/
def visit (g : Graph) : Nat → Nat → Search → Nat × Search
  | 0, _, s => (0, s)
  | depth + 1, v, s =>
    let s := s.discover v
    let number := s.discovered
    let (low, s) := explore (visit g depth) (g.succ v) number s
    (low, if low = number then s.close v else s)

/-- The strongly connected components in topological order.  Within a component
the vertices stand from the last to the first discovered. -/
def components (g : Graph) : List (List Nat) :=
  let search (s : Search) (v : Nat) : Search :=
    if s.numberOf v = 0 then (g.visit g.size v s).2 else s
  ((List.range g.size).foldl search (Search.start g.size)).components

/-- The strongly connected components in topological order, each ascending. -/
def sortedComponents (g : Graph) : List (List Nat) :=
  g.components.map (·.mergeSort)

end Typecase.Graph
