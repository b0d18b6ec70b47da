import ImplicitDynamics.Structure.Graph

/-!
# Strongly connected components

One depth-first traversal numbers the nodes in the order in which it meets
them.  Nodes whose component is not complete stay on a stack.  The low link of
a node is the smallest number known to be reachable from it on that stack; a
node that is its own low link is the first of its component, and the component
is what lies on the stack down to it.

A component comes before the components that depend on it.
-/

namespace ImplicitDynamics.DependencyGraph

/-- A traversal: the next number, the numbers and low links of the nodes, the
stack with its top first, and the complete components. -/
structure Linking where
  counter : Nat
  numbers : List (Option Nat)
  low : List Nat
  onStack : List Bool
  stack : List Nat
  components : List (List Nat)

namespace Linking

def number? (linking : Linking) (node : Nat) : Option Nat :=
  (linking.numbers.getD node none)

def lowOf (linking : Linking) (node : Nat) : Nat :=
  linking.low.getD node 0

def isOnStack (linking : Linking) (node : Nat) : Bool :=
  linking.onStack.getD node false

def enter (linking : Linking) (node : Nat) : Linking :=
  { linking with
    counter := linking.counter + 1
    numbers := linking.numbers.set node (some linking.counter)
    low := linking.low.set node linking.counter
    onStack := linking.onStack.set node true
    stack := node :: linking.stack }

/-- Lowers the low link of a node to a number if that is smaller. -/
def lower (linking : Linking) (node number : Nat) : Linking :=
  { linking with low := linking.low.set node (min (linking.lowOf node) number) }

/-- Completes the component of a node that is its own low link. -/
def complete (linking : Linking) (node : Nat) : Linking :=
  if linking.number? node = some (linking.lowOf node) then
    let component := linking.stack.takeWhile (· ≠ node) ++ [node]
    { linking with
      onStack := component.foldl (fun flags member => flags.set member false) linking.onStack
      stack := (linking.stack.dropWhile (· ≠ node)).tail
      components := linking.components ++ [ascending component] }
  else linking

end Linking

/-- Visits a node without a number and all that can be reached from it through
such nodes, `depth` of them at most. -/
def connect (graph : DependencyGraph) : (depth : Nat) → Nat → Linking → Linking
  | 0, _, linking => linking
  | depth + 1, node, linking =>
    let below := (graph.dependencies node).foldl
      (fun current next =>
        match current.number? next with
        | none =>
          let deeper := graph.connect depth next current
          deeper.lower node (deeper.lowOf next)
        | some number =>
          if current.isOnStack next then current.lower node number else current)
      (linking.enter node)
    below.complete node

/-- The components, each in ascending order; a component comes after all that
it depends on. -/
def stronglyConnectedComponents (graph : DependencyGraph) : List (List Nat) :=
  let n := graph.size
  let start : Linking :=
    ⟨0, List.replicate n none, List.replicate n 0, List.replicate n false, [], []⟩
  let final := (List.range n).foldl
    (fun current node =>
      match current.number? node with
      | none => graph.connect n node current
      | some _ => current)
    start
  final.components

end ImplicitDynamics.DependencyGraph
