/-!
# Dependency graphs

Nodes are numbered from zero.  An edge from `i` to `j` says that the equation
of variable `i` depends on variable `j`; no node has an edge to itself.  A set
of nodes is a strictly ascending list.
-/

namespace ImplicitDynamics

/-- Adds a number to a strictly ascending list. -/
def insertAscending (n : Nat) : List Nat → List Nat
  | [] => [n]
  | m :: rest =>
    if n < m then n :: m :: rest
    else if n = m then m :: rest
    else m :: insertAscending n rest

/-- The numbers of a list in ascending order, each once. -/
def ascending (numbers : List Nat) : List Nat :=
  numbers.foldl (fun set n => insertAscending n set) []

structure DependencyGraph where
  edges : List (List Nat)
  deriving Repr, DecidableEq

namespace DependencyGraph

def ofSize (nodes : Nat) : DependencyGraph :=
  ⟨List.replicate nodes []⟩

def size (graph : DependencyGraph) : Nat :=
  graph.edges.length

def dependencies (graph : DependencyGraph) (node : Nat) : List Nat :=
  graph.edges.getD node []

def addEdge (graph : DependencyGraph) (source target : Nat) : DependencyGraph :=
  if source = target then graph
  else ⟨graph.edges.modify source (insertAscending target)⟩

def ofEdges (nodes : Nat) (edges : List (Nat × Nat)) : DependencyGraph :=
  edges.foldl (fun graph edge => graph.addEdge edge.1 edge.2) (ofSize nodes)

/-- The graph of a pattern by columns: entry `i` of column `j` says whether
row `i` reacts to coordinate `j`. -/
def ofPattern (pattern : List (List Bool)) : DependencyGraph :=
  ofEdges pattern.length
    (pattern.zipIdx.flatMap fun (column, j) =>
      column.zipIdx.filterMap fun (depends, i) => if depends then some (i, j) else none)

end DependencyGraph

end ImplicitDynamics
