import ImplicitDynamics.Proofs.Graphs
import ImplicitDynamics.Structure.Components
import Mathlib.Data.List.Nodup

/-!
# Low links

The nodes on the stack are ranked by the order in which they were met.  A node
of the stack reaches every node that is ranked above it, and it reaches a node
of the current path that is not ranked above it.  The low link of a node is the
rank of some node of the stack that it reaches, and bounds the ranks of all
nodes below it to which an edge leads from its part of the stack.
-/

namespace ImplicitDynamics.DependencyGraph

namespace Linking

def Met (linking : Linking) (node : Nat) : Prop :=
  linking.number? node ≠ none

def rank (linking : Linking) (node : Nat) : Nat :=
  (linking.number? node).getD 0

/-- The component of the node is complete. -/
def Done (linking : Linking) (node : Nat) : Prop :=
  ∃ component ∈ linking.components, node ∈ component

/-- Each node has a number, a low link and a flag. -/
structure Sized (nodes : Nat) (linking : Linking) : Prop where
  numbers : linking.numbers.length = nodes
  low : linking.low.length = nodes
  onStack : linking.onStack.length = nodes

variable {linking : Linking} {nodes node other : Nat}

theorem number?_eq_of_met (hmet : linking.Met node) :
    linking.number? node = some (linking.rank node) := by
  obtain ⟨number, hnumber⟩ := Option.ne_none_iff_exists'.mp hmet
  rw [rank, hnumber, Option.getD_some]

theorem Sized.lt_of_met (hsized : linking.Sized nodes) (hmet : linking.Met node) :
    node < nodes := by
  by_contra hge
  have hlength : linking.numbers.length ≤ node := hsized.numbers ▸ Nat.le_of_not_lt hge
  exact hmet (by simp [number?, List.getElem?_eq_none hlength])

theorem number?_enter (hsized : linking.Sized nodes) (hnode : node < nodes) :
    (linking.enter node).number? other =
      if other = node then some linking.counter else linking.number? other := by
  simp only [number?, enter, List.getD_eq_getElem?_getD, List.getElem?_set]
  by_cases hother : node = other
  · subst hother
    simp [hsized.numbers, hnode]
  · simp [hother, Ne.symm hother]

theorem lowOf_enter (hsized : linking.Sized nodes) (hnode : node < nodes) :
    (linking.enter node).lowOf other =
      if other = node then linking.counter else linking.lowOf other := by
  simp only [lowOf, enter, List.getD_eq_getElem?_getD, List.getElem?_set]
  by_cases hother : node = other
  · subst hother
    simp [hsized.low, hnode]
  · simp [hother, Ne.symm hother]

theorem isOnStack_enter (hsized : linking.Sized nodes) (hnode : node < nodes) :
    (linking.enter node).isOnStack other = true ↔
      other = node ∨ linking.isOnStack other = true := by
  simp only [isOnStack, enter, List.getD_eq_getElem?_getD, List.getElem?_set]
  by_cases hother : node = other
  · subst hother
    simp [hsized.onStack, hnode]
  · simp [hother, Ne.symm hother]

theorem lowOf_lower (hsized : linking.Sized nodes) (hnode : node < nodes) (number : Nat) :
    (linking.lower node number).lowOf other =
      if other = node then min (linking.lowOf node) number else linking.lowOf other := by
  simp only [lowOf, lower, List.getD_eq_getElem?_getD, List.getElem?_set]
  by_cases hother : node = other
  · subst hother
    simp [hsized.low, hnode]
  · simp [hother, Ne.symm hother]

theorem Sized.enter (hsized : linking.Sized nodes) (node : Nat) :
    (linking.enter node).Sized nodes where
  numbers := by rw [Linking.enter, List.length_set, hsized.numbers]
  low := by rw [Linking.enter, List.length_set, hsized.low]
  onStack := by rw [Linking.enter, List.length_set, hsized.onStack]

theorem Sized.lower (hsized : linking.Sized nodes) (node number : Nat) :
    (linking.lower node number).Sized nodes where
  numbers := hsized.numbers
  low := by rw [Linking.lower, List.length_set, hsized.low]
  onStack := hsized.onStack

theorem length_clear (members : List Nat) (flags : List Bool) :
    (members.foldl (fun flags member => flags.set member false) flags).length = flags.length := by
  induction members generalizing flags with
  | nil => rfl
  | cons member members ih => rw [List.foldl_cons, ih, List.length_set]

theorem getD_clear (members : List Nat) (flags : List Bool) (node : Nat) :
    (members.foldl (fun flags member => flags.set member false) flags).getD node false = true ↔
      node ∉ members ∧ flags.getD node false = true := by
  induction members generalizing flags with
  | nil => simp
  | cons member members ih =>
      rw [List.foldl_cons, ih, List.mem_cons, not_or]
      simp only [List.getD_eq_getElem?_getD, List.getElem?_set]
      by_cases hnode : member = node
      · subst hnode
        by_cases hlt : member < flags.length <;> simp [hlt]
      · simp [hnode, Ne.symm hnode]

/-- Takes a component off the stack; `rest` is what lies below. -/
def cut (linking : Linking) (component rest : List Nat) : Linking :=
  { linking with
    onStack := component.foldl (fun flags member => flags.set member false) linking.onStack
    stack := rest
    components := linking.components ++ [ascending component] }

variable {component rest : List Nat}

theorem Sized.cut (hsized : linking.Sized nodes) (component rest : List Nat) :
    (linking.cut component rest).Sized nodes where
  numbers := hsized.numbers
  low := hsized.low
  onStack := (length_clear _ _).trans hsized.onStack

theorem isOnStack_cut : (linking.cut component rest).isOnStack node = true ↔
    node ∉ component ∧ linking.isOnStack node = true :=
  getD_clear _ _ _

theorem done_cut : (linking.cut component rest).Done node ↔
    linking.Done node ∨ node ∈ component := by
  constructor
  · rintro ⟨other, hother, hmem⟩
    rcases List.mem_append.mp hother with hother | hother
    · exact .inl ⟨other, hother, hmem⟩
    · rw [List.mem_singleton.mp hother] at hmem
      exact .inr (mem_ascending.mp hmem)
  · rintro (⟨other, hother, hmem⟩ | hmem)
    · exact ⟨other, List.mem_append_left _ hother, hmem⟩
    · exact ⟨_, List.mem_append_right _ List.mem_cons_self, mem_ascending.mpr hmem⟩

theorem complete_of_ne (hne : linking.number? node ≠ some (linking.lowOf node)) :
    linking.complete node = linking := by
  rw [complete, if_neg hne]

theorem complete_of_eq {upper : List Nat} (heq : linking.number? node = some (linking.lowOf node))
    (hstack : linking.stack = upper ++ node :: rest) (hnode : node ∉ upper) :
    linking.complete node = linking.cut (upper ++ [node]) rest := by
  have hupper : ∀ u ∈ upper, decide (u ≠ node) = true := by
    intro u hu
    rw [decide_eq_true_eq]
    rintro rfl
    exact hnode hu
  have htake : linking.stack.takeWhile (· ≠ node) = upper := by
    rw [hstack, List.takeWhile_append_of_pos hupper, List.takeWhile_cons_of_neg (by simp),
      List.append_nil]
  have hdrop : linking.stack.dropWhile (· ≠ node) = node :: rest := by
    rw [hstack, List.dropWhile_append_of_pos hupper, List.dropWhile_cons_of_neg (by simp)]
  rw [complete, if_pos heq]
  simp only [htake, hdrop, List.tail_cons, cut]

end Linking

variable {graph : DependencyGraph}

/-- Components that are complete: ascending classes of mutual reachability, of
which none leads to a later one. -/
structure Classified (graph : DependencyGraph) (components : List (List Nat)) : Prop where
  ascending : ∀ component ∈ components, component.Pairwise (· < ·)
  nonempty : ∀ component ∈ components, component ≠ []
  isClass : ∀ component ∈ components, ∀ u ∈ component, ∀ v,
    v ∈ component ↔ graph.Reaches u v ∧ graph.Reaches v u
  disjoint : components.Pairwise List.Disjoint
  order : components.Pairwise fun earlier later =>
    ∀ u ∈ earlier, ∀ v ∈ later, v ∉ graph.dependencies u

theorem classified_nil (graph : DependencyGraph) : graph.Classified [] :=
  ⟨by simp, by simp, by simp, .nil, .nil⟩

theorem Classified.concat {components : List (List Nat)} {component : List Nat}
    (hclassified : graph.Classified components) (hascending : component.Pairwise (· < ·))
    (hnonempty : component ≠ [])
    (hclass : ∀ u ∈ component, ∀ v,
      v ∈ component ↔ graph.Reaches u v ∧ graph.Reaches v u)
    (hdisjoint : ∀ earlier ∈ components, ∀ u ∈ earlier, u ∉ component)
    (horder : ∀ earlier ∈ components, ∀ u ∈ earlier, ∀ v ∈ component,
      v ∉ graph.dependencies u) :
    graph.Classified (components ++ [component]) where
  ascending c hc := by
    rcases List.mem_append.mp hc with hc | hc
    · exact hclassified.ascending c hc
    · exact List.mem_singleton.mp hc ▸ hascending
  nonempty c hc := by
    rcases List.mem_append.mp hc with hc | hc
    · exact hclassified.nonempty c hc
    · exact List.mem_singleton.mp hc ▸ hnonempty
  isClass c hc := by
    rcases List.mem_append.mp hc with hc | hc
    · exact hclassified.isClass c hc
    · exact List.mem_singleton.mp hc ▸ hclass
  disjoint := by
    refine List.pairwise_append.mpr ⟨hclassified.disjoint, List.pairwise_singleton _ _, ?_⟩
    intro earlier hearlier later hlater u hu hv
    rw [List.mem_singleton.mp hlater] at hv
    exact hdisjoint earlier hearlier u hu hv
  order := by
    refine List.pairwise_append.mpr ⟨hclassified.order, List.pairwise_singleton _ _, ?_⟩
    intro earlier hearlier later hlater
    rw [List.mem_singleton.mp hlater]
    exact horder earlier hearlier

/-! ## The invariant of a traversal -/

/-- A traversal whose open nodes are those of `path`. -/
structure Coherent (graph : DependencyGraph) (path : List Nat) (linking : Linking) : Prop where
  sized : linking.Sized graph.size
  rank_lt : ∀ {u}, linking.Met u → linking.rank u < linking.counter
  onStack_iff : ∀ {u}, linking.isOnStack u = true ↔ u ∈ linking.stack
  met_iff : ∀ {u}, linking.Met u ↔ u ∈ linking.stack ∨ linking.Done u
  not_done : ∀ {u}, u ∈ linking.stack → ¬ linking.Done u
  ranked : linking.stack.Pairwise fun upper lower => linking.rank lower < linking.rank upper
  open_mem : ∀ {u}, u ∈ path → u ∈ linking.stack
  /-- The dependencies of a node that is not open were met. -/
  scanned : ∀ {u v}, linking.Met u → u ∉ path → v ∈ graph.dependencies u → linking.Met v
  reaches : ∀ {u v}, u ∈ linking.stack → v ∈ linking.stack →
    linking.rank u ≤ linking.rank v → graph.Reaches u v
  returns : ∀ {u}, u ∈ linking.stack →
    ∃ v ∈ path, linking.rank v ≤ linking.rank u ∧ graph.Reaches u v
  classified : graph.Classified linking.components
  done_next : ∀ {u v}, linking.Done u → v ∈ graph.dependencies u → linking.Done v

/-- What a traversal keeps while it goes on. -/
structure Linking.Extends (before after : Linking) : Prop where
  number? : ∀ {u}, before.Met u → after.number? u = before.number? u
  lowOf : ∀ {u}, before.Met u → after.lowOf u = before.lowOf u
  stack : before.stack <:+ after.stack
  done : ∀ {u}, before.Done u → after.Done u

/-- What a visit of a node leaves behind. -/
structure Linked (graph : DependencyGraph) (path : List Nat) (node : Nat)
    (before after : Linking) : Prop where
  coherent : Coherent graph path after
  kept : before.Extends after
  met : after.Met node
  low_le : after.lowOf node ≤ after.rank node
  attained : node ∈ after.stack →
    ∃ u ∈ after.stack, after.rank u = after.lowOf node ∧ graph.Reaches node u
  low_of_done : node ∉ after.stack → before.counter ≤ after.lowOf node
  bound : ∀ {u v}, u ∈ after.stack → u ∉ before.stack → v ∈ graph.dependencies u →
    v ∈ before.stack → after.lowOf node ≤ after.rank v

/-- A visit of a node that has scanned some of its dependencies. -/
structure Scanning (graph : DependencyGraph) (path : List Nat) (node : Nat)
    (scanned : List Nat) (before current : Linking) : Prop where
  coherent : Coherent graph (node :: path) current
  kept : before.Extends current
  number? : current.number? node = some before.counter
  stack : ∃ upper, current.stack = upper ++ node :: before.stack
  low_le : current.lowOf node ≤ current.rank node
  attained : ∃ u ∈ current.stack, current.rank u = current.lowOf node ∧ graph.Reaches node u
  met : ∀ v ∈ scanned, current.Met v
  bound_own : ∀ v ∈ scanned, v ∈ current.stack → current.lowOf node ≤ current.rank v
  bound : ∀ {u v}, u ∈ current.stack → u ∉ before.stack → u ≠ node →
    v ∈ graph.dependencies u → v ∈ before.stack → current.lowOf node ≤ current.rank v

/-- A visit may begin: the node was not met, and every open node leads to it. -/
structure Enterable (graph : DependencyGraph) (path : List Nat) (node : Nat)
    (before : Linking) : Prop where
  coherent : Coherent graph path before
  lt : node < graph.size
  notMet : ¬ before.Met node
  leads : ∀ {u}, u ∈ path → graph.Reaches u node

variable {path scanned : List Nat} {node next : Nat} {before middle current after : Linking}

namespace Linking

theorem Extends.met (hkept : before.Extends after) {u : Nat} (hmet : before.Met u) :
    after.Met u := by
  rw [Met, hkept.number? hmet]
  exact hmet

theorem Extends.rank (hkept : before.Extends after) {u : Nat} (hmet : before.Met u) :
    after.rank u = before.rank u := by
  rw [Linking.rank, hkept.number? hmet, Linking.rank]

theorem Extends.mem (hkept : before.Extends after) {u : Nat} (hmem : u ∈ before.stack) :
    u ∈ after.stack :=
  hkept.stack.subset hmem

theorem Extends.refl (linking : Linking) : linking.Extends linking :=
  ⟨fun _ => rfl, fun _ => rfl, List.suffix_refl _, id⟩

theorem Extends.trans (hfirst : before.Extends middle) (hsecond : middle.Extends after) :
    before.Extends after where
  number? hmet := (hsecond.number? (hfirst.met hmet)).trans (hfirst.number? hmet)
  lowOf hmet := (hsecond.lowOf (hfirst.met hmet)).trans (hfirst.lowOf hmet)
  stack := hfirst.stack.trans hsecond.stack
  done hdone := hsecond.done (hfirst.done hdone)

end Linking

namespace Coherent

variable {linking : Linking}

theorem met_of_mem (hcoherent : Coherent graph path linking) {u : Nat}
    (hmem : u ∈ linking.stack) : linking.Met u :=
  hcoherent.met_iff.mpr (.inl hmem)

theorem nodup (hcoherent : Coherent graph path linking) : linking.stack.Nodup := by
  refine hcoherent.ranked.imp fun {u v} hlt heq => ?_
  rw [heq] at hlt
  exact Nat.lt_irrefl _ hlt

theorem done_of_reaches (hcoherent : Coherent graph path linking) {u v : Nat}
    (hdone : linking.Done u) (hreaches : graph.Reaches u v) : linking.Done v := by
  induction hreaches with
  | refl => exact hdone
  | tail _ hnext ih => exact hcoherent.done_next ih hnext

theorem lower (hcoherent : Coherent graph path linking) (node number : Nat) :
    Coherent graph path (linking.lower node number) where
  sized := hcoherent.sized.lower node number
  rank_lt := hcoherent.rank_lt
  onStack_iff := hcoherent.onStack_iff
  met_iff := hcoherent.met_iff
  not_done := hcoherent.not_done
  ranked := hcoherent.ranked
  open_mem := hcoherent.open_mem
  scanned := hcoherent.scanned
  reaches := hcoherent.reaches
  returns := hcoherent.returns
  classified := hcoherent.classified
  done_next := hcoherent.done_next

end Coherent

end ImplicitDynamics.DependencyGraph
