import ImplicitDynamics.Structure.Graph
import Mathlib.Data.Finset.Card
import Mathlib.Data.List.GetD
import Mathlib.Logic.Relation

/-!
# Ascending lists and dependency graphs

An ascending list has each of its numbers once.  A graph is well-formed if its
edges lead to nodes, no node has an edge to itself, and none has an edge twice;
adding edges to nodes keeps it so, and the graph of a pattern is well-formed.
-/

namespace ImplicitDynamics

theorem mem_insertAscending {n m : Nat} {numbers : List Nat} :
    m ∈ insertAscending n numbers ↔ m = n ∨ m ∈ numbers := by
  induction numbers with
  | nil => simp [insertAscending]
  | cons first rest ih =>
      rw [insertAscending]
      by_cases hlt : n < first
      · rw [if_pos hlt, List.mem_cons]
      · rw [if_neg hlt]
        by_cases heq : n = first
        · simp [heq]
        · rw [if_neg heq, List.mem_cons, ih, List.mem_cons]
          constructor
          · rintro (h | h | h)
            · exact .inr (.inl h)
            · exact .inl h
            · exact .inr (.inr h)
          · rintro (h | h | h)
            · exact .inr (.inl h)
            · exact .inl h
            · exact .inr (.inr h)

theorem mem_ascending {m : Nat} {numbers : List Nat} : m ∈ ascending numbers ↔ m ∈ numbers := by
  have hfold : ∀ set : List Nat,
      m ∈ numbers.foldl (fun set n => insertAscending n set) set ↔ m ∈ set ∨ m ∈ numbers := by
    induction numbers with
    | nil => simp
    | cons n numbers ih =>
        intro set
        rw [List.foldl_cons, ih, mem_insertAscending, List.mem_cons]
        constructor
        · rintro ((h | h) | h)
          · exact .inr (.inl h)
          · exact .inl h
          · exact .inr (.inr h)
        · rintro (h | h | h)
          · exact .inl (.inr h)
          · exact .inl (.inl h)
          · exact .inr h
  rw [ascending, hfold]
  simp

theorem pairwise_insertAscending {n : Nat} {numbers : List Nat}
    (hnumbers : numbers.Pairwise (· < ·)) : (insertAscending n numbers).Pairwise (· < ·) := by
  induction numbers with
  | nil => exact List.pairwise_singleton _ _
  | cons first rest ih =>
      obtain ⟨hfirst, hrest⟩ := List.pairwise_cons.mp hnumbers
      rw [insertAscending]
      by_cases hlt : n < first
      · rw [if_pos hlt]
        refine List.pairwise_cons.mpr ⟨fun m hm => ?_, hnumbers⟩
        rcases List.mem_cons.mp hm with rfl | hm
        · exact hlt
        · exact Nat.lt_trans hlt (hfirst m hm)
      · rw [if_neg hlt]
        by_cases heq : n = first
        · rw [if_pos heq]
          exact hnumbers
        · rw [if_neg heq]
          refine List.pairwise_cons.mpr ⟨fun m hm => ?_, ih hrest⟩
          rcases mem_insertAscending.mp hm with rfl | hm
          · omega
          · exact hfirst m hm

theorem pairwise_ascending (numbers : List Nat) : (ascending numbers).Pairwise (· < ·) := by
  have hfold : ∀ set : List Nat, set.Pairwise (· < ·) →
      (numbers.foldl (fun set n => insertAscending n set) set).Pairwise (· < ·) := by
    induction numbers with
    | nil => exact fun _ hset => hset
    | cons n numbers ih =>
        intro set hset
        rw [List.foldl_cons]
        exact ih _ (pairwise_insertAscending hset)
  exact hfold [] .nil

namespace DependencyGraph

variable {graph : DependencyGraph}

def Reaches (graph : DependencyGraph) : Nat → Nat → Prop :=
  Relation.ReflTransGen fun node next => next ∈ graph.dependencies node

/-- Every edge leads to a node. -/
def Closed (graph : DependencyGraph) : Prop :=
  ∀ {node next}, next ∈ graph.dependencies node → next < graph.size

theorem lt_size_of_mem {node next : Nat} (hnext : next ∈ graph.dependencies node) :
    node < graph.size := by
  by_contra hnode
  have hnone : graph.edges[node]? = none := List.getElem?_eq_none (Nat.le_of_not_lt hnode)
  simp [dependencies, hnone] at hnext

instance (graph : DependencyGraph) : Decidable graph.Closed :=
  decidable_of_iff (∀ node < graph.size, ∀ next ∈ graph.dependencies node, next < graph.size) <| by
    constructor
    · exact fun hall node next hnext => hall node (lt_size_of_mem hnext) next hnext
    · exact fun hclosed node _ next hnext => hclosed hnext

theorem size_addEdge (source target : Nat) : (graph.addEdge source target).size = graph.size := by
  unfold addEdge size
  split
  · rfl
  · exact List.length_modify _ _ _

theorem dependencies_addEdge (source target node : Nat) :
    (graph.addEdge source target).dependencies node = graph.dependencies node ∨
      source = node ∧ source ≠ target ∧ (graph.addEdge source target).dependencies node =
        insertAscending target (graph.dependencies node) := by
  unfold addEdge
  by_cases hloop : source = target
  · rw [if_pos hloop]
    exact .inl rfl
  · rw [if_neg hloop]
    simp only [dependencies, List.getD_eq_getElem?_getD, List.getElem?_modify]
    cases graph.edges[node]? with
    | none => exact .inl rfl
    | some targets =>
        by_cases hnode : source = node
        · exact .inr ⟨hnode, hloop, by simp [hnode]⟩
        · exact .inl (by simp [hnode])

/-- Edges lead from a node to other nodes, and to each of them once. -/
structure WellFormed (graph : DependencyGraph) : Prop where
  closed : graph.Closed
  irreflexive : ∀ {node}, node ∉ graph.dependencies node
  ascending : ∀ node, (graph.dependencies node).Pairwise (· < ·)

theorem dependencies_ofSize (nodes node : Nat) : (ofSize nodes).dependencies node = [] := by
  simp only [ofSize, dependencies, List.getD_eq_getElem?_getD, List.getElem?_replicate]
  split <;> rfl

theorem ofSize_wellFormed (nodes : Nat) : (ofSize nodes).WellFormed := by
  constructor
  · intro node next hnext
    rw [dependencies_ofSize] at hnext
    exact absurd hnext List.not_mem_nil
  · intro node hnext
    rw [dependencies_ofSize] at hnext
    exact absurd hnext List.not_mem_nil
  · intro node
    rw [dependencies_ofSize]
    exact .nil

theorem WellFormed.addEdge {source target : Nat} (hgraph : graph.WellFormed)
    (htarget : target < graph.size) : (graph.addEdge source target).WellFormed where
  closed := by
    intro node next hnext
    rw [size_addEdge]
    rcases dependencies_addEdge source target node with hsame | ⟨-, -, hmore⟩
    · exact hgraph.closed (hsame ▸ hnext)
    · rw [hmore, mem_insertAscending] at hnext
      rcases hnext with rfl | hnext
      · exact htarget
      · exact hgraph.closed hnext
  irreflexive := by
    intro node hnext
    rcases dependencies_addEdge source target node with hsame | ⟨rfl, hloop, hmore⟩
    · exact hgraph.irreflexive (hsame ▸ hnext)
    · rw [hmore, mem_insertAscending] at hnext
      exact hnext.elim hloop hgraph.irreflexive
  ascending := by
    intro node
    rcases dependencies_addEdge source target node with hsame | ⟨-, -, hmore⟩
    · rw [hsame]
      exact hgraph.ascending node
    · rw [hmore]
      exact pairwise_insertAscending (hgraph.ascending node)

theorem ofEdges_wellFormed {nodes : Nat} {edges : List (Nat × Nat)}
    (hedges : ∀ edge ∈ edges, edge.2 < nodes) : (ofEdges nodes edges).WellFormed := by
  have hfold : ∀ graph : DependencyGraph, graph.WellFormed → graph.size = nodes →
      (edges.foldl (fun graph edge => graph.addEdge edge.1 edge.2) graph).WellFormed := by
    induction edges with
    | nil => exact fun _ hgraph _ => hgraph
    | cons edge edges ih =>
        intro graph hgraph hsize
        rw [List.foldl_cons]
        have hedge := hedges edge List.mem_cons_self
        apply ih fun other hother => hedges other (List.mem_cons_of_mem _ hother)
        · exact hgraph.addEdge (hsize ▸ hedge)
        · rw [size_addEdge, hsize]
  exact hfold _ (ofSize_wellFormed nodes) List.length_replicate

theorem ofPattern_wellFormed (pattern : List (List Bool)) : (ofPattern pattern).WellFormed := by
  apply ofEdges_wellFormed
  intro edge hedge
  simp only [List.mem_flatMap, List.mem_filterMap, Prod.exists] at hedge
  obtain ⟨column, j, hcolumn, depends, i, -, hedge⟩ := hedge
  have hlt := (List.mem_zipIdx' hcolumn).1
  split at hedge
  · cases hedge
    exact hlt
  · cases hedge

theorem mem_dependencies_ofEdges {nodes node next : Nat} {edges : List (Nat × Nat)}
    (hnext : next ∈ (ofEdges nodes edges).dependencies node) : (node, next) ∈ edges := by
  have hfold : ∀ graph : DependencyGraph,
      next ∈ (edges.foldl (fun graph edge => graph.addEdge edge.1 edge.2) graph).dependencies node →
        next ∈ graph.dependencies node ∨ (node, next) ∈ edges := by
    clear hnext
    induction edges with
    | nil => exact fun _ hnext => .inl hnext
    | cons edge edges ih =>
        intro graph hnext
        rw [List.foldl_cons] at hnext
        rcases ih _ hnext with hnext | hmem
        · rcases dependencies_addEdge edge.1 edge.2 node with hsame | ⟨rfl, -, hmore⟩
          · exact .inl (hsame ▸ hnext)
          · rw [hmore, mem_insertAscending] at hnext
            rcases hnext with rfl | hnext
            · exact .inr List.mem_cons_self
            · exact .inl hnext
        · exact .inr (List.mem_cons_of_mem _ hmem)
  rcases hfold _ hnext with hnone | hmem
  · rw [dependencies_ofSize] at hnone
    exact absurd hnone List.not_mem_nil
  · exact hmem

theorem card_filter_range_lt {nodes node : Nat} {before after : Nat → Prop}
    [DecidablePred before] [DecidablePred after] (hless : ∀ {u}, after u → before u)
    (hnode : node < nodes) (hbefore : before node) (hafter : ¬ after node) :
    ((Finset.range nodes).filter after).card < ((Finset.range nodes).filter before).card := by
  apply Finset.card_lt_card
  rw [Finset.ssubset_iff_of_subset (Finset.monotone_filter_right _ fun _ _ => hless)]
  refine ⟨node, Finset.mem_filter.mpr ⟨Finset.mem_range.mpr hnode, hbefore⟩, fun hmem => ?_⟩
  exact hafter (Finset.mem_filter.mp hmem).2

end DependencyGraph

end ImplicitDynamics
