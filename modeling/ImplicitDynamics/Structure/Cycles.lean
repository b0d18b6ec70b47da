import ImplicitDynamics.Structure.Graph

/-!
# Cycles of a dependency graph

A depth-first traversal that meets a node on its own path has found a cycle.
The cycle is the part of the path from that node on, closed by the node itself.

The traversal goes deeper only at nodes that it has not seen, so its depth is
at most the number of nodes.
-/

namespace ImplicitDynamics.DependencyGraph

inductive Mark where
  | unseen
  | onPath
  | finished
  deriving Repr, DecidableEq

/-- A traversal: the marks of the nodes, the path with its last node first,
and the cycles found. -/
structure Traversal where
  marks : List Mark
  path : List Nat
  cycles : List (List Nat)

namespace Traversal

def mark (traversal : Traversal) (node : Nat) : Mark :=
  traversal.marks.getD node .finished

def enter (traversal : Traversal) (node : Nat) : Traversal :=
  { traversal with
    marks := traversal.marks.set node .onPath
    path := node :: traversal.path }

def leave (traversal : Traversal) (node : Nat) : Traversal :=
  { traversal with
    marks := traversal.marks.set node .finished
    path := traversal.path.tail }

/-- Records the cycle that an edge back to a node of the path closes. -/
def close (traversal : Traversal) (node : Nat) : Traversal :=
  let later := (traversal.path.takeWhile (· ≠ node)).reverse
  { traversal with cycles := traversal.cycles ++ [node :: later ++ [node]] }

end Traversal

/-- Visits a node that is not seen yet and all that can be reached from it
through unseen nodes, `depth` of them at most. -/
def visit (graph : DependencyGraph) : (depth : Nat) → Nat → Traversal → Traversal
  | 0, _, traversal => traversal
  | depth + 1, node, traversal =>
    let below := (graph.dependencies node).foldl
      (fun current next =>
        match current.mark next with
        | .onPath => current.close next
        | .unseen => graph.visit depth next current
        | .finished => current)
      (traversal.enter node)
    below.leave node

/-- One cycle for each edge that leads back to the path of the traversal, as a
path whose last node repeats the first. -/
def cycles (graph : DependencyGraph) : List (List Nat) :=
  let start : Traversal := ⟨List.replicate graph.size .unseen, [], []⟩
  let final := (List.range graph.size).foldl
    (fun current node =>
      match current.mark node with
      | .unseen => graph.visit graph.size node current
      | _ => current)
    start
  final.cycles

end ImplicitDynamics.DependencyGraph
