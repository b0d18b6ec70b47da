import ImplicitDynamics.Proofs.LowLinks

/-!
# Components are classes of mutual reachability

A node that is its own low link has no edge from its part of the stack to what
lies below: that part is closed but for components that are complete, and all of
it reaches the node.  A node with a smaller low link reaches the path below it,
so its part of the stack can wait.

The traversal is described by what a visit of one node leaves behind; the visit
of a node scans its dependencies one after the other, and visits those that
were not met before.
-/

namespace ImplicitDynamics.DependencyGraph

variable {graph : DependencyGraph} {path scanned : List Nat} {node next : Nat}
  {before current after : Linking}

namespace Enterable

theorem not_mem_stack (henter : Enterable graph path node before) : node ∉ before.stack :=
  fun hmem => henter.notMet (henter.coherent.met_of_mem hmem)

theorem number?_eq (henter : Enterable graph path node before) {u : Nat} (hne : u ≠ node) :
    (before.enter node).number? u = before.number? u := by
  rw [Linking.number?_enter henter.coherent.sized henter.lt, if_neg hne]

theorem number?_node (henter : Enterable graph path node before) :
    (before.enter node).number? node = some before.counter := by
  rw [Linking.number?_enter henter.coherent.sized henter.lt, if_pos rfl]

theorem met_iff (henter : Enterable graph path node before) {u : Nat} :
    (before.enter node).Met u ↔ u = node ∨ before.Met u := by
  by_cases hu : u = node
  · subst hu
    simp [Linking.Met, henter.number?_node]
  · simp [Linking.Met, henter.number?_eq hu, hu]

theorem rank_eq (henter : Enterable graph path node before) {u : Nat} (hne : u ≠ node) :
    (before.enter node).rank u = before.rank u := by
  rw [Linking.rank, henter.number?_eq hne, Linking.rank]

theorem rank_node (henter : Enterable graph path node before) :
    (before.enter node).rank node = before.counter := by
  rw [Linking.rank, henter.number?_node, Option.getD_some]

theorem ne_of_mem (henter : Enterable graph path node before) {u : Nat}
    (hmem : u ∈ before.stack) : u ≠ node := by
  rintro rfl
  exact henter.not_mem_stack hmem

theorem kept (henter : Enterable graph path node before) :
    before.Extends (before.enter node) where
  number? hmet := henter.number?_eq fun heq => henter.notMet (heq ▸ hmet)
  lowOf hmet := by
    rw [Linking.lowOf_enter henter.coherent.sized henter.lt, if_neg]
    exact fun heq => henter.notMet (heq ▸ hmet)
  stack := List.suffix_cons node before.stack
  done := id

theorem rank_lt (henter : Enterable graph path node before) {u : Nat}
    (hmem : u ∈ before.stack) : (before.enter node).rank u < (before.enter node).rank node := by
  rw [henter.rank_eq (henter.ne_of_mem hmem), henter.rank_node]
  exact henter.coherent.rank_lt (henter.coherent.met_of_mem hmem)

theorem coherent_enter (henter : Enterable graph path node before) :
    Coherent graph (node :: path) (before.enter node) where
  sized := henter.coherent.sized.enter node
  rank_lt {u} hmet := by
    change _ < before.counter + 1
    rcases henter.met_iff.mp hmet with rfl | hmet
    · rw [henter.rank_node]
      exact Nat.lt_succ_self _
    · by_cases hu : u = node
      · exact absurd (hu ▸ hmet) henter.notMet
      · rw [henter.rank_eq hu]
        exact Nat.lt_succ_of_lt (henter.coherent.rank_lt hmet)
  onStack_iff {u} := by
    rw [Linking.isOnStack_enter henter.coherent.sized henter.lt, henter.coherent.onStack_iff]
    exact List.mem_cons.symm
  met_iff {u} := by
    rw [henter.met_iff, henter.coherent.met_iff, ← or_assoc]
    exact or_congr List.mem_cons.symm Iff.rfl
  not_done {u} hmem := by
    rcases List.mem_cons.mp hmem with rfl | hmem
    · exact fun hdone => henter.notMet (henter.coherent.met_iff.mpr (.inr hdone))
    · exact henter.coherent.not_done hmem
  ranked := by
    refine List.pairwise_cons.mpr ⟨fun u hu => henter.rank_lt hu, ?_⟩
    refine henter.coherent.ranked.imp_of_mem fun hu hv hlt => ?_
    rw [henter.rank_eq (henter.ne_of_mem hu), henter.rank_eq (henter.ne_of_mem hv)]
    exact hlt
  open_mem hu := by
    rcases List.mem_cons.mp hu with rfl | hu
    · exact List.mem_cons_self
    · exact List.mem_cons_of_mem _ (henter.coherent.open_mem hu)
  scanned {u v} hmet hopen hnext := by
    obtain ⟨hne, hopen⟩ := not_or.mp (mt List.mem_cons.mpr hopen)
    have hmet := (henter.met_iff.mp hmet).resolve_left hne
    exact henter.met_iff.mpr (.inr (henter.coherent.scanned hmet hopen hnext))
  reaches {u v} hu hv hle := by
    rcases List.mem_cons.mp hu with hu | hu <;> rcases List.mem_cons.mp hv with hv | hv
    · rw [hu, hv]
      exact .refl
    · rw [hu] at hle
      exact absurd hle (Nat.not_le_of_lt (henter.rank_lt hv))
    · obtain ⟨w, hw, -, hreaches⟩ := henter.coherent.returns hu
      rw [hv]
      exact hreaches.trans (henter.leads hw)
    · rw [henter.rank_eq (henter.ne_of_mem hu), henter.rank_eq (henter.ne_of_mem hv)] at hle
      exact henter.coherent.reaches hu hv hle
  returns {u} hu := by
    rcases List.mem_cons.mp hu with rfl | hu
    · exact ⟨u, List.mem_cons_self, Nat.le_refl _, .refl⟩
    · obtain ⟨v, hv, hle, hreaches⟩ := henter.coherent.returns hu
      refine ⟨v, List.mem_cons_of_mem _ hv, ?_, hreaches⟩
      rw [henter.rank_eq (henter.ne_of_mem hu),
        henter.rank_eq (henter.ne_of_mem (henter.coherent.open_mem hv))]
      exact hle
  classified := henter.coherent.classified
  done_next := henter.coherent.done_next

theorem scanning (henter : Enterable graph path node before) :
    Scanning graph path node [] before (before.enter node) where
  coherent := henter.coherent_enter
  kept := henter.kept
  number? := henter.number?_node
  stack := ⟨[], rfl⟩
  low_le := by
    rw [Linking.lowOf_enter henter.coherent.sized henter.lt, if_pos rfl, henter.rank_node]
  attained := by
    refine ⟨node, List.mem_cons_self, ?_, .refl⟩
    rw [Linking.lowOf_enter henter.coherent.sized henter.lt, if_pos rfl, henter.rank_node]
  met v hv := absurd hv List.not_mem_nil
  bound_own v hv := absurd hv List.not_mem_nil
  bound hu hnot hne := absurd ((List.mem_cons.mp hu).resolve_left hne) hnot

end Enterable

/-! ## Scanning a dependency -/

namespace Scanning

theorem mem_node (hscanning : Scanning graph path node scanned before current) :
    node ∈ current.stack :=
  hscanning.coherent.open_mem List.mem_cons_self

theorem rank_node (hscanning : Scanning graph path node scanned before current) :
    current.rank node = before.counter := by
  rw [Linking.rank, hscanning.number?, Option.getD_some]

/-- A low link that is lowered at most to the rank of a node that was reached. -/
theorem attained_lower (hsized : current.Sized graph.size) (hnode : node < graph.size) {low : Nat}
    (hattained : ∃ u ∈ current.stack, current.rank u = current.lowOf node ∧ graph.Reaches node u)
    (hlow : low < current.lowOf node →
      ∃ u ∈ current.stack, current.rank u = low ∧ graph.Reaches node u) :
    ∃ u ∈ (current.lower node low).stack,
      (current.lower node low).rank u = (current.lower node low).lowOf node ∧
        graph.Reaches node u := by
  rw [Linking.lowOf_lower hsized hnode, if_pos rfl]
  by_cases hlt : low < current.lowOf node
  · rw [Nat.min_eq_right hlt.le]
    exact hlow hlt
  · rw [Nat.min_eq_left (Nat.le_of_not_lt hlt)]
    exact hattained

theorem kept_lower (hkept : before.Extends current) (hsized : current.Sized graph.size)
    (hnode : node < graph.size) (hnotMet : ¬ before.Met node) (number : Nat) :
    before.Extends (current.lower node number) where
  number? := hkept.number?
  lowOf hmet := by
    rw [Linking.lowOf_lower hsized hnode, if_neg, hkept.lowOf hmet]
    exact fun heq => hnotMet (heq ▸ hmet)
  stack := hkept.stack
  done := hkept.done

/-- The next dependency lies on the stack. -/
theorem lower_rank (henter : Enterable graph path node before)
    (hscanning : Scanning graph path node scanned before current)
    (hnext : next ∈ graph.dependencies node) (hmem : next ∈ current.stack) :
    Scanning graph path node (scanned ++ [next]) before
      (current.lower node (current.rank next)) := by
  have hsized := hscanning.coherent.sized
  have hlow : (current.lower node (current.rank next)).lowOf node =
      min (current.lowOf node) (current.rank next) := by
    rw [Linking.lowOf_lower hsized henter.lt, if_pos rfl]
  refine
    { coherent := hscanning.coherent.lower _ _
      kept := kept_lower hscanning.kept hsized henter.lt henter.notMet _
      number? := hscanning.number?
      stack := hscanning.stack
      low_le := hlow ▸ (Nat.min_le_left _ _).trans hscanning.low_le
      attained := attained_lower hsized henter.lt hscanning.attained fun _ =>
        ⟨next, hmem, rfl, .single hnext⟩
      met := ?_
      bound_own := ?_
      bound := fun hu hnot hne hdep hv =>
        hlow ▸ (Nat.min_le_left _ _).trans (hscanning.bound hu hnot hne hdep hv) }
  · intro v hv
    rcases List.mem_append.mp hv with hv | hv
    · exact hscanning.met v hv
    · rw [List.mem_singleton.mp hv]
      exact hscanning.coherent.met_of_mem hmem
  · intro v hv hstack
    rw [hlow]
    rcases List.mem_append.mp hv with hv | hv
    · exact (Nat.min_le_left _ _).trans (hscanning.bound_own v hv hstack)
    · rw [List.mem_singleton.mp hv]
      exact Nat.min_le_right _ _

/-- The component of the next dependency is complete. -/
theorem skip (hscanning : Scanning graph path node scanned before current)
    (hmet : current.Met next) (hnot : next ∉ current.stack) :
    Scanning graph path node (scanned ++ [next]) before current where
  coherent := hscanning.coherent
  kept := hscanning.kept
  number? := hscanning.number?
  stack := hscanning.stack
  low_le := hscanning.low_le
  attained := hscanning.attained
  met v hv := by
    rcases List.mem_append.mp hv with hv | hv
    · exact hscanning.met v hv
    · exact List.mem_singleton.mp hv ▸ hmet
  bound_own v hv hstack := by
    rcases List.mem_append.mp hv with hv | hv
    · exact hscanning.bound_own v hv hstack
    · exact absurd (List.mem_singleton.mp hv ▸ hstack) hnot
  bound := hscanning.bound

/-- What was met but is not on the stack does not come back to it. -/
theorem mem_of_kept (hcurrent : Coherent graph path current) {others : List Nat}
    (hafter : Coherent graph others after) (hkept : current.Extends after) {u : Nat}
    (hmet : current.Met u) (hmem : u ∈ after.stack) : u ∈ current.stack := by
  rcases hcurrent.met_iff.mp hmet with hstack | hdone
  · exact hstack
  · exact absurd (hkept.done hdone) (hafter.not_done hmem)

/-- The next dependency was visited. -/
theorem lower_low (henter : Enterable graph path node before)
    (hscanning : Scanning graph path node scanned before current)
    (hnext : next ∈ graph.dependencies node)
    (hlinked : Linked graph (node :: path) next current after) :
    Scanning graph path node (scanned ++ [next]) before
      (after.lower node (after.lowOf next)) := by
  have hsized := hlinked.coherent.sized
  have hmetNode : current.Met node := hscanning.coherent.met_of_mem hscanning.mem_node
  have hlowNode : after.lowOf node = current.lowOf node := hlinked.kept.lowOf hmetNode
  have hrankNode : after.rank node = current.rank node := hlinked.kept.rank hmetNode
  have hkept : before.Extends after := hscanning.kept.trans hlinked.kept
  have hlow : (after.lower node (after.lowOf next)).lowOf node =
      min (current.lowOf node) (after.lowOf next) := by
    rw [Linking.lowOf_lower hsized henter.lt, if_pos rfl, hlowNode]
  refine
    { coherent := hlinked.coherent.lower _ _
      kept := kept_lower hkept hsized henter.lt henter.notMet _
      number? := (hlinked.kept.number? hmetNode).trans hscanning.number?
      stack := ?_
      low_le := ?_
      attained := attained_lower hsized henter.lt ?_ ?_
      met := ?_
      bound_own := ?_
      bound := ?_ }
  · obtain ⟨upper, hupper⟩ := hscanning.stack
    obtain ⟨more, hmore⟩ := hlinked.kept.stack
    exact ⟨more ++ upper, by rw [List.append_assoc, ← hupper, hmore]; rfl⟩
  · rw [hlow]
    calc min (current.lowOf node) (after.lowOf next) ≤ current.lowOf node := Nat.min_le_left _ _
      _ ≤ current.rank node := hscanning.low_le
      _ = after.rank node := hrankNode.symm
  · obtain ⟨u, hu, hrank, hreaches⟩ := hscanning.attained
    refine ⟨u, hlinked.kept.mem hu, ?_, hreaches⟩
    rw [hlinked.kept.rank (hscanning.coherent.met_of_mem hu), hrank, hlowNode]
  · intro hlt
    -- A dependency whose component is complete has a low link that is too large.
    have hmem : next ∈ after.stack := by
      by_contra hnot
      have hcounter := hlinked.low_of_done hnot
      have hrank := hscanning.coherent.rank_lt hmetNode
      have hle := hscanning.low_le
      omega
    obtain ⟨u, hu, hrank, hreaches⟩ := hlinked.attained hmem
    exact ⟨u, hu, hrank, .head hnext hreaches⟩
  · intro v hv
    rcases List.mem_append.mp hv with hv | hv
    · exact hlinked.kept.met (hscanning.met v hv)
    · exact List.mem_singleton.mp hv ▸ hlinked.met
  · intro v hv hstack
    rw [hlow]
    rcases List.mem_append.mp hv with hv | hv
    · have hmet := hscanning.met v hv
      have hmem := mem_of_kept hscanning.coherent hlinked.coherent hlinked.kept hmet hstack
      have hrank : (after.lower node (after.lowOf next)).rank v = current.rank v :=
        hlinked.kept.rank hmet
      rw [hrank]
      exact (Nat.min_le_left _ _).trans (hscanning.bound_own v hv hmem)
    · rw [List.mem_singleton.mp hv]
      exact (Nat.min_le_right _ _).trans hlinked.low_le
  · intro u v hu hnot hne hdep hv
    have hmemV : v ∈ current.stack := hscanning.kept.mem hv
    have hrank : (after.lower node (after.lowOf next)).rank v = current.rank v :=
      hlinked.kept.rank (hscanning.coherent.met_of_mem hmemV)
    rw [hlow]
    by_cases hmemU : u ∈ current.stack
    · rw [hrank]
      exact (Nat.min_le_left _ _).trans (hscanning.bound hmemU hnot hne hdep hv)
    · exact (Nat.min_le_right _ _).trans (hlinked.bound hu hmemU hdep hmemV)

/-! ## Completing a node -/

/-- A node with a smaller low link stays on the stack. -/
theorem linked_of_lt
    (hscanning : Scanning graph path node (graph.dependencies node) before current)
    (hopen : ∀ {u}, u ∈ path → u ∈ before.stack)
    (hlt : current.lowOf node < current.rank node) :
    Linked graph path node before current where
  coherent :=
    { hscanning.coherent with
      open_mem := fun hu => hscanning.kept.mem (hopen hu)
      scanned := fun {u v} hmet hnot hnext => by
        by_cases hu : u = node
        · exact hscanning.met v (hu ▸ hnext)
        · exact hscanning.coherent.scanned hmet (by simp [hu, hnot]) hnext
      returns := fun {u} hu => by
        obtain ⟨v, hv, hle, hreaches⟩ := hscanning.coherent.returns hu
        rcases List.mem_cons.mp hv with rfl | hv
        · -- The low link leads on to the path below.
          obtain ⟨w, hw, hrank, hlow⟩ := hscanning.attained
          obtain ⟨x, hx, hbelow, hback⟩ := hscanning.coherent.returns hw
          have hne : x ≠ v := by
            rintro rfl
            omega
          have hx := (List.mem_cons.mp hx).resolve_left hne
          exact ⟨x, hx, by omega, hreaches.trans (hlow.trans hback)⟩
        · exact ⟨v, hv, hle, hreaches⟩ }
  kept := hscanning.kept
  met := hscanning.coherent.met_of_mem hscanning.mem_node
  low_le := hscanning.low_le
  attained _ := hscanning.attained
  low_of_done hnot := absurd hscanning.mem_node hnot
  bound {u v} hu hnot hdep hv := by
    by_cases heq : u = node
    · exact hscanning.bound_own v (heq ▸ hdep) (hscanning.kept.mem hv)
    · exact hscanning.bound hu hnot heq hdep hv

section Root

variable {upper : List Nat}

theorem rank_lt_of_mem_before
    (hscanning : Scanning graph path node scanned before current)
    (hstack : current.stack = upper ++ node :: before.stack) {u : Nat}
    (hu : u ∈ before.stack) : current.rank u < current.rank node := by
  have hranked := hscanning.coherent.ranked
  rw [hstack] at hranked
  exact (List.pairwise_cons.mp (List.pairwise_append.mp hranked).2.1).1 u hu

theorem rank_le_of_mem_upper
    (hscanning : Scanning graph path node scanned before current)
    (hstack : current.stack = upper ++ node :: before.stack) {u : Nat}
    (hu : u ∈ upper ++ [node]) : current.rank node ≤ current.rank u := by
  have hranked := hscanning.coherent.ranked
  rw [hstack] at hranked
  rcases List.mem_append.mp hu with hu | hu
  · exact ((List.pairwise_append.mp hranked).2.2 u hu node List.mem_cons_self).le
  · rw [List.mem_singleton.mp hu]

theorem mem_stack_iff (hstack : current.stack = upper ++ node :: before.stack) {u : Nat} :
    u ∈ current.stack ↔ u ∈ upper ++ [node] ∨ u ∈ before.stack := by
  rw [hstack]
  simp [or_assoc]

theorem not_mem_before_of_mem_upper
    (hscanning : Scanning graph path node scanned before current)
    (hstack : current.stack = upper ++ node :: before.stack) {u : Nat}
    (hu : u ∈ upper ++ [node]) : u ∉ before.stack := fun hbefore =>
  Nat.not_le_of_lt (hscanning.rank_lt_of_mem_before hstack hbefore)
    (hscanning.rank_le_of_mem_upper hstack hu)

/-- From the part of the stack above a node that is its own low link, edges
lead to this part or to complete components. -/
theorem mem_or_done_of_dependency
    (hscanning : Scanning graph path node (graph.dependencies node) before current)
    (hopen : ∀ {u}, u ∈ path → u ∈ before.stack)
    (hstack : current.stack = upper ++ node :: before.stack)
    (hroot : current.lowOf node = current.rank node) {u v : Nat}
    (hu : u ∈ upper ++ [node]) (hnext : v ∈ graph.dependencies u) :
    v ∈ upper ++ [node] ∨ current.Done v := by
  have hnot := hscanning.not_mem_before_of_mem_upper hstack hu
  have hmemU : u ∈ current.stack := (mem_stack_iff hstack).mpr (.inl hu)
  have hmet : current.Met v := by
    by_cases heq : u = node
    · exact hscanning.met v (heq ▸ hnext)
    · refine hscanning.coherent.scanned (hscanning.coherent.met_of_mem hmemU) ?_ hnext
      exact fun hmem => hnot (hopen ((List.mem_cons.mp hmem).resolve_left heq))
  rcases hscanning.coherent.met_iff.mp hmet with hmem | hdone
  · rcases (mem_stack_iff hstack).mp hmem with hupper | hbefore
    · exact .inl hupper
    · have hlow : current.lowOf node ≤ current.rank v := by
        by_cases heq : u = node
        · exact hscanning.bound_own v (heq ▸ hnext) hmem
        · exact hscanning.bound hmemU hnot heq hnext hbefore
      have hlt := hscanning.rank_lt_of_mem_before hstack hbefore
      omega
  · exact .inr hdone

theorem mutual_of_root (henter : Enterable graph path node before)
    (hscanning : Scanning graph path node (graph.dependencies node) before current)
    (hstack : current.stack = upper ++ node :: before.stack)
    (hroot : current.lowOf node = current.rank node) {u : Nat}
    (hu : u ∈ upper ++ [node]) (v : Nat) :
    v ∈ upper ++ [node] ↔ graph.Reaches u v ∧ graph.Reaches v u := by
  have hfrom : ∀ {w}, w ∈ upper ++ [node] → graph.Reaches node w := fun hw =>
    hscanning.coherent.reaches hscanning.mem_node ((mem_stack_iff hstack).mpr (.inl hw))
      (hscanning.rank_le_of_mem_upper hstack hw)
  have hto : ∀ {w}, w ∈ upper ++ [node] → graph.Reaches w node := by
    intro w hw
    obtain ⟨x, hx, -, hreaches⟩ :=
      hscanning.coherent.returns ((mem_stack_iff hstack).mpr (.inl hw))
    rcases List.mem_cons.mp hx with rfl | hx
    · exact hreaches
    · exact hreaches.trans (henter.leads hx)
  constructor
  · intro hv
    exact ⟨(hto hu).trans (hfrom hv), (hto hv).trans (hfrom hu)⟩
  · rintro ⟨huv, hvu⟩
    have hclosed : v ∈ upper ++ [node] ∨ current.Done v := by
      clear hvu
      induction huv with
      | refl => exact .inl hu
      | tail _ hnext ih =>
          rcases ih with hmem | hdone
          · exact hscanning.mem_or_done_of_dependency henter.coherent.open_mem hstack hroot hmem
              hnext
          · exact .inr (hscanning.coherent.done_next hdone hnext)
    refine hclosed.resolve_right fun hdone => ?_
    exact hscanning.coherent.not_done ((mem_stack_iff hstack).mpr (.inl hu))
      (hscanning.coherent.done_of_reaches hdone hvu)

theorem classified_cut (henter : Enterable graph path node before)
    (hscanning : Scanning graph path node (graph.dependencies node) before current)
    (hstack : current.stack = upper ++ node :: before.stack)
    (hroot : current.lowOf node = current.rank node) :
    graph.Classified (current.components ++ [ascending (upper ++ [node])]) := by
  have hcoherent := hscanning.coherent
  have hnotDone : ∀ {u}, u ∈ ascending (upper ++ [node]) → ¬ current.Done u := fun hu =>
    hcoherent.not_done ((mem_stack_iff hstack).mpr (.inl (mem_ascending.mp hu)))
  apply hcoherent.classified.concat (pairwise_ascending _)
  · exact List.ne_nil_of_mem (mem_ascending.mpr (List.mem_append_right _ List.mem_cons_self))
  · intro u hu v
    rw [mem_ascending]
    exact hscanning.mutual_of_root henter hstack hroot (mem_ascending.mp hu) v
  · intro earlier hearlier u hu hmem
    exact hnotDone hmem ⟨earlier, hearlier, hu⟩
  · intro earlier hearlier u hu v hv hnext
    exact hnotDone hv (hcoherent.done_next ⟨earlier, hearlier, hu⟩ hnext)

theorem coherent_cut (henter : Enterable graph path node before)
    (hscanning : Scanning graph path node (graph.dependencies node) before current)
    (hstack : current.stack = upper ++ node :: before.stack)
    (hroot : current.lowOf node = current.rank node) :
    Coherent graph path (current.cut (upper ++ [node]) before.stack) := by
  have hcoherent := hscanning.coherent
  have hmem : ∀ {u}, u ∈ before.stack → u ∈ current.stack := hscanning.kept.mem
  refine
    { sized := hcoherent.sized.cut _ _
      rank_lt := hcoherent.rank_lt
      onStack_iff := ?_
      met_iff := ?_
      not_done := ?_
      ranked := hcoherent.ranked.sublist hscanning.kept.stack.sublist
      open_mem := henter.coherent.open_mem
      scanned := ?_
      reaches := fun hu hv => hcoherent.reaches (hmem hu) (hmem hv)
      returns := ?_
      classified := hscanning.classified_cut henter hstack hroot
      done_next := ?_ }
  · intro u
    rw [Linking.isOnStack_cut, hcoherent.onStack_iff, mem_stack_iff hstack]
    constructor
    · exact fun h => h.2.resolve_left h.1
    · intro hu
      exact ⟨fun hupper => hscanning.not_mem_before_of_mem_upper hstack hupper hu, .inr hu⟩
  · intro u
    rw [Linking.done_cut]
    refine hcoherent.met_iff.trans ?_
    rw [mem_stack_iff hstack]
    constructor
    · rintro ((hu | hu) | hu)
      · exact .inr (.inr hu)
      · exact .inl hu
      · exact .inr (.inl hu)
    · rintro (hu | hu | hu)
      · exact .inl (.inr hu)
      · exact .inr hu
      · exact .inl (.inl hu)
  · intro u hu hdone
    rcases Linking.done_cut.mp hdone with hdone | hupper
    · exact hcoherent.not_done (hmem hu) hdone
    · exact hscanning.not_mem_before_of_mem_upper hstack hupper hu
  · intro u v hmet hnot hnext
    by_cases heq : u = node
    · exact hscanning.met v (heq ▸ hnext)
    · exact hcoherent.scanned hmet (by simp [heq, hnot]) hnext
  · intro u hu
    obtain ⟨v, hv, hle, hreaches⟩ := hcoherent.returns (hmem hu)
    have hlt := hscanning.rank_lt_of_mem_before hstack hu
    have hne : v ≠ node := by
      rintro rfl
      omega
    exact ⟨v, (List.mem_cons.mp hv).resolve_left hne, hle, hreaches⟩
  · intro u v hdone hnext
    rw [Linking.done_cut] at hdone ⊢
    rcases hdone with hdone | hupper
    · exact .inl (hcoherent.done_next hdone hnext)
    · exact (hscanning.mem_or_done_of_dependency henter.coherent.open_mem hstack hroot hupper
        hnext).symm

/-- The part of the stack above a node that is its own low link is a
component. -/
theorem linked_of_root (henter : Enterable graph path node before)
    (hscanning : Scanning graph path node (graph.dependencies node) before current)
    (hstack : current.stack = upper ++ node :: before.stack)
    (hroot : current.lowOf node = current.rank node) :
    Linked graph path node before (current.cut (upper ++ [node]) before.stack) where
  coherent := hscanning.coherent_cut henter hstack hroot
  kept :=
    { number? := hscanning.kept.number?
      lowOf := hscanning.kept.lowOf
      stack := List.suffix_refl _
      done := fun hdone => Linking.done_cut.mpr (.inl (hscanning.kept.done hdone)) }
  met := hscanning.coherent.met_of_mem hscanning.mem_node
  low_le := hscanning.low_le
  attained hmem := absurd hmem henter.not_mem_stack
  low_of_done _ := (hscanning.rank_node.symm.trans hroot.symm).le
  bound hu hnot := absurd hu hnot

end Root

theorem linked_complete (henter : Enterable graph path node before)
    (hscanning : Scanning graph path node (graph.dependencies node) before current) :
    Linked graph path node before (current.complete node) := by
  have hmet : current.Met node := hscanning.coherent.met_of_mem hscanning.mem_node
  obtain ⟨upper, hstack⟩ := hscanning.stack
  by_cases hroot : current.lowOf node = current.rank node
  · have hself : current.number? node = some (current.lowOf node) := by
      rw [hroot, Linking.number?_eq_of_met hmet]
    have hnode : node ∉ upper := by
      have hnodup := hscanning.coherent.nodup
      rw [hstack] at hnodup
      exact fun hmem => (List.nodup_append.mp hnodup).2.2 node hmem node List.mem_cons_self rfl
    rw [Linking.complete_of_eq hself hstack hnode]
    exact hscanning.linked_of_root henter hstack hroot
  · have hother : current.number? node ≠ some (current.lowOf node) := by
      rw [Linking.number?_eq_of_met hmet]
      exact fun heq => hroot (Option.some.inj heq).symm
    rw [Linking.complete_of_ne hother]
    exact hscanning.linked_of_lt henter.coherent.open_mem
      (Nat.lt_of_le_of_ne hscanning.low_le hroot)

end Scanning

/-! ## One visit -/

def Linking.unmet (linking : Linking) (nodes : Nat) : Finset Nat :=
  (Finset.range nodes).filter fun node => linking.number? node = none

theorem Linking.mem_unmet {linking : Linking} {nodes u : Nat} :
    u ∈ linking.unmet nodes ↔ u < nodes ∧ ¬ linking.Met u := by
  simp [Linking.unmet, Linking.Met]

theorem Scanning.card_unmet_lt (henter : Enterable graph path node before)
    (hscanning : Scanning graph path node scanned before current) :
    (current.unmet graph.size).card < (before.unmet graph.size).card := by
  have hless : ∀ {u}, current.number? u = none → before.number? u = none := by
    intro u hnone
    by_contra hmet
    exact hscanning.kept.met hmet hnone
  have hnode : current.Met node := hscanning.coherent.met_of_mem hscanning.mem_node
  exact card_filter_range_lt hless henter.lt (not_not.mp henter.notMet) hnode

def scan (graph : DependencyGraph) (depth node : Nat) (current : Linking) (next : Nat) : Linking :=
  match current.number? next with
  | none => (graph.connect depth next current).lower node
      ((graph.connect depth next current).lowOf next)
  | some number => if current.isOnStack next then current.lower node number else current

theorem connect_succ (graph : DependencyGraph) (depth node : Nat) (linking : Linking) :
    graph.connect (depth + 1) node linking =
      ((graph.dependencies node).foldl (graph.scan depth node) (linking.enter node)).complete
        node := by
  rw [connect]
  rfl

variable {depth : Nat}

theorem Scanning.scan (hclosed : graph.Closed) (henter : Enterable graph path node before)
    (hconnect : ∀ {path node linking}, Enterable graph path node linking →
      (linking.unmet graph.size).card ≤ depth →
      Linked graph path node linking (graph.connect depth node linking))
    (hscanning : Scanning graph path node scanned before current)
    (hdepth : (current.unmet graph.size).card ≤ depth)
    (hnext : next ∈ graph.dependencies node) :
    Scanning graph path node (scanned ++ [next]) before (graph.scan depth node current next) := by
  unfold DependencyGraph.scan
  cases hnumber : current.number? next with
  | none =>
      have hdeeper : Enterable graph (node :: path) next current :=
        { coherent := hscanning.coherent
          lt := hclosed hnext
          notMet := fun hmet => hmet hnumber
          leads := fun hu => by
            rcases List.mem_cons.mp hu with rfl | hu
            · exact .single hnext
            · exact (henter.leads hu).tail hnext }
      exact hscanning.lower_low henter hnext (hconnect hdeeper hdepth)
  | some number =>
      have hmet : current.Met next := by
        rw [Linking.Met, hnumber]
        exact Option.some_ne_none number
      have hrank : current.rank next = number := by
        rw [Linking.rank, hnumber, Option.getD_some]
      by_cases honStack : current.isOnStack next = true
      · simp only [honStack, if_true]
        rw [← hrank]
        exact hscanning.lower_rank henter hnext (hscanning.coherent.onStack_iff.mp honStack)
      · simp only [honStack]
        exact hscanning.skip hmet fun hmem => honStack (hscanning.coherent.onStack_iff.mpr hmem)

theorem Scanning.foldl_scan (hclosed : graph.Closed) (henter : Enterable graph path node before)
    (hconnect : ∀ {path node linking}, Enterable graph path node linking →
      (linking.unmet graph.size).card ≤ depth →
      Linked graph path node linking (graph.connect depth node linking))
    {rest : List Nat} (hrest : ∀ next ∈ rest, next ∈ graph.dependencies node)
    (hscanning : Scanning graph path node scanned before current)
    (hdepth : (before.unmet graph.size).card ≤ depth + 1) :
    Scanning graph path node (scanned ++ rest) before
      (rest.foldl (graph.scan depth node) current) := by
  induction rest generalizing scanned current with
  | nil => simpa using hscanning
  | cons next rest ih =>
      have hcurrent : (current.unmet graph.size).card ≤ depth :=
        Nat.le_of_lt_succ (Nat.lt_of_lt_of_le (hscanning.card_unmet_lt henter) hdepth)
      have hscan := hscanning.scan hclosed henter hconnect hcurrent (hrest next List.mem_cons_self)
      have hfold := ih (fun other hother => hrest other (List.mem_cons_of_mem _ hother)) hscan
      rwa [List.append_assoc] at hfold

/-- The depth counts the nodes that were not met, so it is never used up. -/
theorem connect_linked (hclosed : graph.Closed) (henter : Enterable graph path node before)
    (hdepth : (before.unmet graph.size).card ≤ depth) :
    Linked graph path node before (graph.connect depth node before) := by
  induction depth generalizing path node before with
  | zero =>
      have hempty := Finset.card_eq_zero.mp (Nat.le_zero.mp hdepth)
      have hmem : node ∈ before.unmet graph.size :=
        Linking.mem_unmet.mpr ⟨henter.lt, henter.notMet⟩
      rw [hempty] at hmem
      exact absurd hmem (Finset.notMem_empty node)
  | succ depth ih =>
      rw [connect_succ]
      have hfold := henter.scanning.foldl_scan hclosed henter ih (fun _ hnext => hnext) hdepth
      exact hfold.linked_complete henter

def visitRoot (graph : DependencyGraph) (current : Linking) (node : Nat) : Linking :=
  match current.number? node with
  | none => graph.connect graph.size node current
  | some _ => current

def unvisited (graph : DependencyGraph) : Linking :=
  ⟨0, List.replicate graph.size none, List.replicate graph.size 0,
    List.replicate graph.size false, [], []⟩

def visitedBefore (graph : DependencyGraph) (count : Nat) : Linking :=
  (List.range count).foldl graph.visitRoot graph.unvisited

theorem visitedBefore_succ (graph : DependencyGraph) (count : Nat) :
    graph.visitedBefore (count + 1) = graph.visitRoot (graph.visitedBefore count) count := by
  rw [visitedBefore, List.range_succ, List.foldl_append]
  rfl

theorem stronglyConnectedComponents_eq (graph : DependencyGraph) :
    graph.stronglyConnectedComponents = (graph.visitedBefore graph.size).components :=
  rfl

theorem coherent_unvisited (graph : DependencyGraph) : Coherent graph [] graph.unvisited := by
  have hnotMet : ∀ {u}, ¬ graph.unvisited.Met u := by
    intro u hmet
    apply hmet
    simp only [unvisited, Linking.number?, List.getD_eq_getElem?_getD, List.getElem?_replicate]
    split <;> rfl
  have hnotDone : ∀ {u}, ¬ graph.unvisited.Done u := by
    rintro u ⟨component, hcomponent, -⟩
    exact List.not_mem_nil hcomponent
  refine
    { sized := ⟨List.length_replicate, List.length_replicate, List.length_replicate⟩
      rank_lt := fun hmet => absurd hmet hnotMet
      onStack_iff := ?_
      met_iff := ?_
      not_done := fun hmem => absurd hmem List.not_mem_nil
      ranked := .nil
      open_mem := fun hmem => absurd hmem List.not_mem_nil
      scanned := fun hmet => absurd hmet hnotMet
      reaches := fun hmem => absurd hmem List.not_mem_nil
      returns := fun hmem => absurd hmem List.not_mem_nil
      classified := classified_nil graph
      done_next := fun hdone => absurd hdone hnotDone }
  · intro u
    simp only [unvisited, Linking.isOnStack, List.getD_eq_getElem?_getD, List.getElem?_replicate]
    split <;> simp
  · exact fun {u} => ⟨fun hmet => absurd hmet hnotMet, fun h =>
      h.elim (fun hmem => absurd hmem List.not_mem_nil) fun hdone => absurd hdone hnotDone⟩

theorem Coherent.visitRoot (hclosed : graph.Closed) (hcoherent : Coherent graph [] before)
    (hnode : node < graph.size) :
    Coherent graph [] (graph.visitRoot before node) ∧
      before.Extends (graph.visitRoot before node) ∧ (graph.visitRoot before node).Met node := by
  unfold DependencyGraph.visitRoot
  cases hnumber : before.number? node with
  | none =>
      have henter : Enterable graph [] node before :=
        { coherent := hcoherent
          lt := hnode
          notMet := fun hmet => hmet hnumber
          leads := fun hmem => absurd hmem List.not_mem_nil }
      have hdepth : (before.unmet graph.size).card ≤ graph.size :=
        (Finset.card_filter_le _ _).trans (Finset.card_range _).le
      have hlinked := connect_linked hclosed henter hdepth
      exact ⟨hlinked.coherent, hlinked.kept, hlinked.met⟩
  | some number =>
      refine ⟨hcoherent, .refl before, ?_⟩
      rw [Linking.Met, hnumber]
      exact Option.some_ne_none number

theorem coherent_visitedBefore (hclosed : graph.Closed) {count : Nat}
    (hcount : count ≤ graph.size) :
    Coherent graph [] (graph.visitedBefore count) ∧
      ∀ node < count, (graph.visitedBefore count).Met node := by
  induction count with
  | zero => exact ⟨coherent_unvisited graph, fun node hlt => absurd hlt (Nat.not_lt_zero node)⟩
  | succ count ih =>
      obtain ⟨hcoherent, hmet⟩ := ih (Nat.le_of_succ_le hcount)
      obtain ⟨hnext, hkept, hlast⟩ := hcoherent.visitRoot hclosed hcount
      rw [visitedBefore_succ]
      refine ⟨hnext, fun node hlt => ?_⟩
      rcases Nat.lt_succ_iff_lt_or_eq.mp hlt with hlt | rfl
      · exact hkept.met (hmet node hlt)
      · exact hlast

theorem classified_components (hclosed : graph.Closed) :
    graph.Classified graph.stronglyConnectedComponents := by
  rw [stronglyConnectedComponents_eq]
  exact (coherent_visitedBefore hclosed (Nat.le_refl graph.size)).1.classified

theorem exists_component_iff (hclosed : graph.Closed) {node : Nat} :
    (∃ component ∈ graph.stronglyConnectedComponents, node ∈ component) ↔ node < graph.size := by
  obtain ⟨hcoherent, hmet⟩ := coherent_visitedBefore hclosed (Nat.le_refl graph.size)
  rw [stronglyConnectedComponents_eq]
  constructor
  · intro hdone
    exact hcoherent.sized.lt_of_met (hcoherent.met_iff.mpr (.inr hdone))
  · intro hlt
    refine (hcoherent.met_iff.mp (hmet node hlt)).resolve_left fun hmem => ?_
    obtain ⟨v, hopen, -⟩ := hcoherent.returns hmem
    exact List.not_mem_nil hopen

theorem Classified.nodup {components : List (List Nat)} (hclassified : graph.Classified components) :
    ∀ component ∈ components, component.Nodup :=
  fun component hcomponent => (hclassified.ascending component hcomponent).imp fun hlt => hlt.ne

theorem Classified.nodup_flatten {components : List (List Nat)}
    (hclassified : graph.Classified components) : components.flatten.Nodup :=
  List.nodup_flatten.mpr ⟨hclassified.nodup, hclassified.disjoint⟩

/-- One member of a component is reached from another along members. -/
theorem Classified.reaches_inside {components : List (List Nat)}
    (hclassified : graph.Classified components) {component : List Nat}
    (hcomponent : component ∈ components) {u v : Nat} (hu : u ∈ component) (hv : v ∈ component) :
    Relation.ReflTransGen
      (fun node next => next ∈ graph.dependencies node ∧ next ∈ component) u v := by
  have hback : graph.Reaches v u := ((hclassified.isClass component hcomponent u hu v).mp hv).2
  have hto : graph.Reaches u v := ((hclassified.isClass component hcomponent u hu v).mp hv).1
  clear hv
  induction hto with
  | refl => exact .refl
  | @tail node next hnode hnext ih =>
      have hmem : next ∈ component :=
        (hclassified.isClass component hcomponent u hu next).mpr ⟨hnode.tail hnext, hback⟩
      exact (ih ((Relation.ReflTransGen.single hnext).trans hback)).tail ⟨hnext, hmem⟩

/-- The components are the classes of mutual reachability, each in ascending
order, and none of them depends on a later one. -/
theorem stronglyConnectedComponents_correct (hclosed : graph.Closed) :
    graph.stronglyConnectedComponents.flatten.Perm (List.range graph.size) ∧
      (∀ u < graph.size, ∀ v < graph.size,
        (∃ component ∈ graph.stronglyConnectedComponents, u ∈ component ∧ v ∈ component) ↔
          graph.Reaches u v ∧ graph.Reaches v u) ∧
      (∀ component ∈ graph.stronglyConnectedComponents,
        component ≠ [] ∧ component.Pairwise (· < ·)) ∧
      ∀ (i j : Nat) (source target : List Nat) (u v : Nat),
        graph.stronglyConnectedComponents[i]? = some source →
        graph.stronglyConnectedComponents[j]? = some target →
        u ∈ source → v ∈ target → v ∈ graph.dependencies u → i ≠ j → j < i := by
  have hclassified := classified_components hclosed
  refine ⟨?_, ?_, ?_, ?_⟩
  · rw [List.perm_ext_iff_of_nodup hclassified.nodup_flatten List.nodup_range]
    intro node
    rw [List.mem_flatten, List.mem_range]
    exact exists_component_iff hclosed
  · intro u hu v hv
    constructor
    · rintro ⟨component, hcomponent, hmemU, hmemV⟩
      exact (hclassified.isClass component hcomponent u hmemU v).mp hmemV
    · intro hmutual
      obtain ⟨component, hcomponent, hmemU⟩ := (exists_component_iff hclosed).mpr hu
      exact ⟨component, hcomponent, hmemU,
        (hclassified.isClass component hcomponent u hmemU v).mpr hmutual⟩
  · intro component hcomponent
    exact ⟨hclassified.nonempty component hcomponent, hclassified.ascending component hcomponent⟩
  · intro i j source target u v hsource htarget hu hv hnext hne
    obtain ⟨hi, rfl⟩ := List.getElem?_eq_some_iff.mp hsource
    obtain ⟨hj, rfl⟩ := List.getElem?_eq_some_iff.mp htarget
    by_contra hge
    have hlt : i < j := by omega
    exact List.pairwise_iff_getElem.mp hclassified.order i j hi hj hlt u hu v hv hnext

/-- Two nodes that depend on each other and on a third; a fourth depends on
the third as well. -/
theorem stronglyConnectedComponents_correct_coupled :
    let graph := ofEdges 4 [(0, 1), (1, 0), (1, 2), (3, 3), (3, 2)]
    graph.Closed ∧ graph.stronglyConnectedComponents = [[2], [0, 1], [3]] ∧
      (graph.Reaches 0 1 ∧ graph.Reaches 1 0) ∧ ¬ (graph.Reaches 1 2 ∧ graph.Reaches 2 1) := by
  intro graph
  have hclosed : graph.Closed := by decide
  have hcomponents : graph.stronglyConnectedComponents = [[2], [0, 1], [3]] := by decide
  obtain ⟨-, hmutual, -, -⟩ := stronglyConnectedComponents_correct hclosed
  rw [hcomponents] at hmutual
  refine ⟨hclosed, hcomponents, ?_, ?_⟩
  · rw [← hmutual 0 (by decide) 1 (by decide)]
    decide
  · rw [← hmutual 1 (by decide) 2 (by decide)]
    decide

end ImplicitDynamics.DependencyGraph
