import ImplicitDynamics.Analysis.Analyzer
import ImplicitDynamics.Proofs.StrongComponents
import Mathlib.Data.List.Chain

/-!
# Cycles and coupled components

The marks of a traversal tell which nodes lie on its path, so an edge back to
such a node closes a cycle.  When a node is left, each of its edges has closed a
cycle or leads to a node that was left before: every descent along edges that
close no cycle comes to an end.  In a component with several members a descent
can always go on inside, so one of its edges closes a cycle.
-/

namespace ImplicitDynamics

namespace DependencyGraph

variable {graph : DependencyGraph} {before middle current after : Traversal}
  {cycles : List (List Nat)} {path scanned upper lower : List Nat} {node next depth : Nat}

/-- A path along edges that returns to its first node and meets no other node
twice. -/
def IsCycle (graph : DependencyGraph) (path : List Nat) : Prop :=
  ∃ node later, path = node :: later ++ [node] ∧ (node :: later).Nodup ∧
    path.IsChain fun node next => next ∈ graph.dependencies node

/-- The edge from `node` to `next` is the last of a cycle. -/
def Closes (cycles : List (List Nat)) (node next : Nat) : Prop :=
  ∃ cycle ∈ cycles, [node, next] <:+ cycle

/-- An edge that closes no cycle leads from `node` down to `next`. -/
def Descends (graph : DependencyGraph) (cycles : List (List Nat)) (next node : Nat) : Prop :=
  next ∈ graph.dependencies node ∧ ¬ Closes cycles node next

theorem Closes.mono {more : List (List Nat)} (hmore : cycles <+: more) {u v : Nat} :
    Closes cycles u v → Closes more u v := by
  rintro ⟨cycle, hcycle, hsuffix⟩
  exact ⟨cycle, hmore.subset hcycle, hsuffix⟩

theorem closes_concat {cycle : List Nat} {u v : Nat} :
    Closes (cycles ++ [cycle]) u v ↔ Closes cycles u v ∨ [u, v] <:+ cycle := by
  simp only [Closes, List.mem_append, List.mem_singleton]
  constructor
  · rintro ⟨other, hother | rfl, hsuffix⟩
    · exact .inl ⟨other, hother, hsuffix⟩
    · exact .inr hsuffix
  · rintro (⟨other, hother, hsuffix⟩ | hsuffix)
    · exact ⟨other, .inl hother, hsuffix⟩
    · exact ⟨cycle, .inr rfl, hsuffix⟩

theorem acc_descends_mono {more : List (List Nat)} (hmore : cycles <+: more) {u : Nat}
    (hends : Acc (graph.Descends cycles) u) : Acc (graph.Descends more) u := by
  have hsub : Subrelation (graph.Descends more) (graph.Descends cycles) :=
    fun {_ _} hdescends => ⟨hdescends.1, fun hcloses => hdescends.2 (hcloses.mono hmore)⟩
  exact hsub.accessible hends

/-- The cycle that an edge back from the last node of a path closes. -/
def backCycle (upper : List Nat) (next : Nat) : List Nat :=
  (next :: (upper ++ [next])).reverse

theorem suffix_backCycle {u v : Nat} (hlast : (upper ++ [next]).head? = some node) :
    [u, v] <:+ backCycle upper next ↔ u = node ∧ v = next := by
  obtain ⟨rest, hrest⟩ := List.head?_eq_some_iff.mp hlast
  rw [backCycle, hrest, ← List.reverse_prefix, List.reverse_reverse]
  simp [and_comm]

theorem isCycle_backCycle (hnodup : (upper ++ next :: lower).Nodup)
    (hchain : (upper ++ next :: lower).IsChain fun later earlier =>
      later ∈ graph.dependencies earlier)
    (hlast : (upper ++ [next]).head? = some node) (hnext : next ∈ graph.dependencies node) :
    graph.IsCycle (backCycle upper next) := by
  rw [List.append_cons] at hnodup hchain
  refine ⟨next, upper.reverse, by simp [backCycle], ?_, ?_⟩
  · have hupper : (upper ++ [next]).reverse.Nodup :=
      List.nodup_reverse.mpr (List.nodup_append.mp hnodup).1
    rwa [List.reverse_append] at hupper
  · rw [backCycle, List.isChain_reverse, List.isChain_cons]
    refine ⟨fun last hmem => ?_, hchain.left_of_append⟩
    rw [hlast, Option.mem_some] at hmem
    exact hmem ▸ hnext

namespace Traversal

variable {traversal : Traversal} {other : Nat}

theorem mark_enter (hnode : node < traversal.marks.length) :
    (traversal.enter node).mark other = if other = node then .onPath else traversal.mark other := by
  simp only [mark, enter, List.getD_eq_getElem?_getD, List.getElem?_set]
  by_cases hother : node = other
  · subst hother
    simp [hnode]
  · simp [hother, Ne.symm hother]

theorem mark_leave_self : (traversal.leave node).mark node = .finished := by
  simp only [mark, leave, List.getD_eq_getElem?_getD, List.getElem?_set]
  by_cases hlt : node < traversal.marks.length <;> simp [hlt]

theorem mark_leave_of_ne (hother : other ≠ node) :
    (traversal.leave node).mark other = traversal.mark other := by
  simp [mark, leave, List.getD_eq_getElem?_getD, Ne.symm hother]

theorem prefix_close (next : Nat) : traversal.cycles <+: (traversal.close next).cycles :=
  List.prefix_append _ _

theorem cycles_close (hpath : traversal.path = upper ++ next :: lower) (hnext : next ∉ upper) :
    (traversal.close next).cycles = traversal.cycles ++ [backCycle upper next] := by
  have hupper : ∀ u ∈ upper, decide (u ≠ next) = true := by
    intro u hu
    rw [decide_eq_true_eq]
    rintro rfl
    exact hnext hu
  have htake : traversal.path.takeWhile (· ≠ next) = upper := by
    rw [hpath, List.takeWhile_append_of_pos hupper, List.takeWhile_cons_of_neg (by simp),
      List.append_nil]
  simp only [close, htake]
  simp [backCycle]

end Traversal

/-! ## The invariant of a traversal -/

/-- The marks tell the path, the cycles found are cycles, each found once, and
every descent from a node that was left comes to an end. -/
structure Traced (graph : DependencyGraph) (traversal : Traversal) : Prop where
  sized : traversal.marks.length = graph.size
  onPath_iff : ∀ {u}, traversal.mark u = .onPath ↔ u ∈ traversal.path
  nodup : traversal.path.Nodup
  chain : traversal.path.IsChain fun later earlier => later ∈ graph.dependencies earlier
  isCycle : ∀ cycle ∈ traversal.cycles, graph.IsCycle cycle
  distinct : traversal.cycles.Nodup
  met : ∀ {u v}, Closes traversal.cycles u v → traversal.mark u ≠ .unseen
  ends : ∀ {u}, u < graph.size → traversal.mark u = .finished →
    Acc (graph.Descends traversal.cycles) u

/-- What a traversal keeps while it goes on. -/
structure Traversal.Extends (before after : Traversal) : Prop where
  finished : ∀ {u}, before.mark u = .finished → after.mark u = .finished
  unseen : ∀ {u}, after.mark u = .unseen → before.mark u = .unseen
  cycles : before.cycles <+: after.cycles
  closes : ∀ {u v}, Closes after.cycles u v → Closes before.cycles u v ∨ before.mark u = .unseen

/-- A visit may begin: the node is unseen, and the last node of the path leads
to it. -/
structure Fresh (graph : DependencyGraph) (node : Nat) (before : Traversal) : Prop where
  traced : Traced graph before
  lt : node < graph.size
  unseen : before.mark node = .unseen
  leads : ∀ last ∈ before.path.head?, node ∈ graph.dependencies last

/-- A visit that has scanned some of the dependencies of its node. -/
structure Tracing (graph : DependencyGraph) (node : Nat) (scanned : List Nat)
    (before current : Traversal) : Prop where
  traced : Traced graph current
  kept : before.Extends current
  path : current.path = node :: before.path
  settled : ∀ v ∈ scanned, current.mark v = .finished ∨ Closes current.cycles node v
  scanned : ∀ {v}, Closes current.cycles node v → v ∈ scanned

/-- What a visit of a node leaves behind. -/
structure Left (graph : DependencyGraph) (node : Nat) (before after : Traversal) : Prop where
  traced : Traced graph after
  kept : before.Extends after
  path : after.path = before.path
  finished : after.mark node = .finished

namespace Traversal

theorem Extends.refl (traversal : Traversal) : traversal.Extends traversal :=
  ⟨id, id, List.prefix_refl _, .inl⟩

theorem Extends.trans (hfirst : before.Extends middle) (hsecond : middle.Extends after) :
    before.Extends after where
  finished hfinished := hsecond.finished (hfirst.finished hfinished)
  unseen hunseen := hfirst.unseen (hsecond.unseen hunseen)
  cycles := hfirst.cycles.trans hsecond.cycles
  closes hcloses := by
    rcases hsecond.closes hcloses with hcloses | hunseen
    · exact hfirst.closes hcloses
    · exact .inr (hfirst.unseen hunseen)

end Traversal

namespace Fresh

theorem mark_enter (hfresh : Fresh graph node before) {u : Nat} :
    (before.enter node).mark u = if u = node then .onPath else before.mark u :=
  Traversal.mark_enter (hfresh.traced.sized ▸ hfresh.lt)

theorem not_mem_path (hfresh : Fresh graph node before) : node ∉ before.path := by
  intro hmem
  have honPath := hfresh.traced.onPath_iff.mpr hmem
  rw [hfresh.unseen] at honPath
  cases honPath

theorem traced_enter (hfresh : Fresh graph node before) : Traced graph (before.enter node) where
  sized := by rw [Traversal.enter, List.length_set, hfresh.traced.sized]
  onPath_iff {u} := by
    rw [hfresh.mark_enter]
    by_cases hu : u = node
    · simp [hu, Traversal.enter]
    · simp [hu, Traversal.enter, hfresh.traced.onPath_iff]
  nodup := List.nodup_cons.mpr ⟨hfresh.not_mem_path, hfresh.traced.nodup⟩
  chain := List.isChain_cons.mpr ⟨hfresh.leads, hfresh.traced.chain⟩
  isCycle := hfresh.traced.isCycle
  distinct := hfresh.traced.distinct
  met {u v} hcloses := by
    rw [hfresh.mark_enter]
    by_cases hu : u = node
    · simp [hu]
    · rw [if_neg hu]
      exact hfresh.traced.met hcloses
  ends {u} hlt hfinished := by
    rw [hfresh.mark_enter] at hfinished
    by_cases hu : u = node
    · simp [hu] at hfinished
    · rw [if_neg hu] at hfinished
      exact hfresh.traced.ends hlt hfinished

theorem tracing (hfresh : Fresh graph node before) :
    Tracing graph node [] before (before.enter node) where
  traced := hfresh.traced_enter
  kept :=
    { finished := fun {u} hfinished => by
        rw [hfresh.mark_enter, if_neg]
        · exact hfinished
        · rintro rfl
          simp [hfresh.unseen] at hfinished
      unseen := fun {u} hunseen => by
        rw [hfresh.mark_enter] at hunseen
        by_cases hu : u = node
        · simp [hu] at hunseen
        · rwa [if_neg hu] at hunseen
      cycles := List.prefix_refl _
      closes := .inl }
  path := rfl
  settled v hv := absurd hv List.not_mem_nil
  scanned hcloses := absurd hfresh.unseen (hfresh.traced.met hcloses)

end Fresh

namespace Tracing

theorem onPath (htracing : Tracing graph node scanned before current) :
    current.mark node = .onPath := by
  rw [htracing.traced.onPath_iff, htracing.path]
  exact List.mem_cons_self

/-- The node was left after a visit, or before. -/
theorem follow (htracing : Tracing graph node scanned before current)
    (hleft : Left graph next current after) :
    Tracing graph node (scanned ++ [next]) before after where
  traced := hleft.traced
  kept := htracing.kept.trans hleft.kept
  path := hleft.path.trans htracing.path
  settled v hv := by
    rcases List.mem_append.mp hv with hv | hv
    · rcases htracing.settled v hv with hfinished | hcloses
      · exact .inl (hleft.kept.finished hfinished)
      · exact .inr (hcloses.mono hleft.kept.cycles)
    · rw [List.mem_singleton.mp hv]
      exact .inl hleft.finished
  scanned {v} hcloses := by
    rcases hleft.kept.closes hcloses with hcloses | hunseen
    · exact List.mem_append_left _ (htracing.scanned hcloses)
    · simp [htracing.onPath] at hunseen

theorem skip (htracing : Tracing graph node scanned before current)
    (hfinished : current.mark next = .finished) :
    Tracing graph node (scanned ++ [next]) before current :=
  htracing.follow ⟨htracing.traced, .refl current, rfl, hfinished⟩

theorem exists_cycle_of_close (htracing : Tracing graph node scanned before current)
    (hnext : next ∈ graph.dependencies node) (honPath : current.mark next = .onPath) :
    ∃ cycle, graph.IsCycle cycle ∧ (∀ {u v}, [u, v] <:+ cycle ↔ u = node ∧ v = next) ∧
      (current.close next).cycles = current.cycles ++ [cycle] := by
  have htraced := htracing.traced
  obtain ⟨upper, lower, hsplit⟩ := List.append_of_mem (htraced.onPath_iff.mp honPath)
  have hnodup := htraced.nodup
  have hchain := htraced.chain
  rw [hsplit] at hnodup hchain
  have hupper : next ∉ upper := by
    intro hmem
    exact (List.nodup_append.mp hnodup).2.2 next hmem next List.mem_cons_self rfl
  have hlast : (upper ++ [next]).head? = some node := by
    have hhead : (upper ++ next :: lower).head? = some node := by
      rw [← hsplit, htracing.path, List.head?_cons]
    rw [← hhead]
    cases upper <;> rfl
  exact ⟨backCycle upper next, isCycle_backCycle hnodup hchain hlast hnext,
    suffix_backCycle hlast, Traversal.cycles_close hsplit hupper⟩

theorem closes_close_iff (htracing : Tracing graph node scanned before current)
    (hnext : next ∈ graph.dependencies node) (honPath : current.mark next = .onPath) {u v : Nat} :
    Closes (current.close next).cycles u v ↔
      Closes current.cycles u v ∨ u = node ∧ v = next := by
  obtain ⟨cycle, -, hedge, hcycles⟩ := htracing.exists_cycle_of_close hnext honPath
  rw [hcycles, closes_concat, hedge]

/-- An edge closes a cycle when it is scanned and not again, so its cycle is
new. -/
theorem traced_close (htracing : Tracing graph node scanned before current)
    (hnext : next ∈ graph.dependencies node) (honPath : current.mark next = .onPath)
    (hnew : next ∉ scanned) : Traced graph (current.close next) := by
  have htraced := htracing.traced
  obtain ⟨cycle, hcycle, hedge, hcycles⟩ := htracing.exists_cycle_of_close hnext honPath
  refine
    { sized := htraced.sized
      onPath_iff := htraced.onPath_iff
      nodup := htraced.nodup
      chain := htraced.chain
      isCycle := ?_
      distinct := ?_
      met := ?_
      ends := fun hlt hfinished =>
        acc_descends_mono (Traversal.prefix_close next) (htraced.ends hlt hfinished) }
  · intro other hother
    rw [hcycles, List.mem_append, List.mem_singleton] at hother
    rcases hother with hother | rfl
    · exact htraced.isCycle other hother
    · exact hcycle
  · rw [hcycles, ← List.concat_eq_append, List.nodup_concat]
    exact ⟨fun hmem => hnew (htracing.scanned ⟨cycle, hmem, hedge.mpr ⟨rfl, rfl⟩⟩),
      htraced.distinct⟩
  · intro u v hclose
    rcases (htracing.closes_close_iff hnext honPath).mp hclose with hclose | ⟨rfl, -⟩
    · exact htraced.met hclose
    · rw [show (current.close next).mark u = .onPath from htracing.onPath]
      exact nofun

theorem close (htracing : Tracing graph node scanned before current)
    (hfresh : Fresh graph node before) (hnext : next ∈ graph.dependencies node)
    (honPath : current.mark next = .onPath) (hnew : next ∉ scanned) :
    Tracing graph node (scanned ++ [next]) before (current.close next) where
  traced := htracing.traced_close hnext honPath hnew
  kept :=
    { finished := htracing.kept.finished
      unseen := htracing.kept.unseen
      cycles := htracing.kept.cycles.trans (Traversal.prefix_close next)
      closes := by
        intro u v hclose
        rcases (htracing.closes_close_iff hnext honPath).mp hclose with hclose | ⟨rfl, -⟩
        · exact htracing.kept.closes hclose
        · exact .inr hfresh.unseen }
  path := htracing.path
  settled v hv := by
    rcases List.mem_append.mp hv with hv | hv
    · exact (htracing.settled v hv).imp_right fun hclose =>
        hclose.mono (Traversal.prefix_close next)
    · rw [List.mem_singleton.mp hv]
      exact .inr ((htracing.closes_close_iff hnext honPath).mpr (.inr ⟨rfl, rfl⟩))
  scanned {v} hclose := by
    rcases (htracing.closes_close_iff hnext honPath).mp hclose with hclose | ⟨-, rfl⟩
    · exact List.mem_append_left _ (htracing.scanned hclose)
    · exact List.mem_append_right _ List.mem_cons_self

theorem path_leave (htracing : Tracing graph node scanned before current) :
    (current.leave node).path = before.path := by
  rw [Traversal.leave, htracing.path, List.tail_cons]

theorem traced_leave (hclosed : graph.Closed) (hfresh : Fresh graph node before)
    (htracing : Tracing graph node (graph.dependencies node) before current) :
    Traced graph (current.leave node) := by
  have htraced := htracing.traced
  have hpath := htracing.path_leave
  have hnodup := htraced.nodup
  have hchain := htraced.chain
  rw [htracing.path] at hnodup hchain
  refine
    { sized := by rw [Traversal.leave, List.length_set, htraced.sized]
      onPath_iff := ?_
      nodup := hpath ▸ (List.nodup_cons.mp hnodup).2
      chain := hpath ▸ (List.isChain_cons.mp hchain).2
      isCycle := htraced.isCycle
      distinct := htraced.distinct
      met := ?_
      ends := ?_ }
  · intro u
    rw [hpath]
    by_cases hu : u = node
    · simp [hu, Traversal.mark_leave_self, hfresh.not_mem_path]
    · rw [Traversal.mark_leave_of_ne hu, htraced.onPath_iff, htracing.path, List.mem_cons]
      exact or_iff_right hu
  · intro u v hclose
    by_cases hu : u = node
    · simp [hu, Traversal.mark_leave_self]
    · rw [Traversal.mark_leave_of_ne hu]
      exact htraced.met hclose
  · intro u hlt hfinished
    by_cases hu : u = node
    · -- each edge of the node has closed a cycle or leads to where descents end
      subst hu
      refine Acc.intro u fun v hdescends => ?_
      obtain ⟨hnext, hopen⟩ := hdescends
      exact htraced.ends (hclosed hnext) ((htracing.settled v hnext).resolve_right hopen)
    · rw [Traversal.mark_leave_of_ne hu] at hfinished
      exact htraced.ends hlt hfinished

theorem left (hclosed : graph.Closed) (hfresh : Fresh graph node before)
    (htracing : Tracing graph node (graph.dependencies node) before current) :
    Left graph node before (current.leave node) where
  traced := htracing.traced_leave hclosed hfresh
  kept :=
    { finished := by
        intro u hfinished
        by_cases hu : u = node
        · rw [hu, Traversal.mark_leave_self]
        · rw [Traversal.mark_leave_of_ne hu]
          exact htracing.kept.finished hfinished
      unseen := by
        intro u hunseen
        by_cases hu : u = node
        · rw [hu]
          exact hfresh.unseen
        · rw [Traversal.mark_leave_of_ne hu] at hunseen
          exact htracing.kept.unseen hunseen
      cycles := htracing.kept.cycles
      closes := htracing.kept.closes }
  path := htracing.path_leave
  finished := Traversal.mark_leave_self

end Tracing

/-! ## One visit -/

def Traversal.unmet (traversal : Traversal) (nodes : Nat) : Finset Nat :=
  (Finset.range nodes).filter fun node => traversal.mark node = .unseen

theorem Tracing.card_unmet_lt (hfresh : Fresh graph node before)
    (htracing : Tracing graph node scanned before current) :
    (current.unmet graph.size).card < (before.unmet graph.size).card := by
  have hnode : ¬ current.mark node = .unseen := by
    rw [htracing.onPath]
    exact nofun
  exact card_filter_range_lt htracing.kept.unseen hfresh.lt hfresh.unseen hnode

def trace (graph : DependencyGraph) (depth : Nat) (current : Traversal) (next : Nat) : Traversal :=
  match current.mark next with
  | .onPath => current.close next
  | .unseen => graph.visit depth next current
  | .finished => current

theorem visit_succ (graph : DependencyGraph) (depth node : Nat) (traversal : Traversal) :
    graph.visit (depth + 1) node traversal =
      ((graph.dependencies node).foldl (graph.trace depth) (traversal.enter node)).leave node :=
  rfl

theorem Tracing.trace (hclosed : graph.Closed) (hfresh : Fresh graph node before)
    (hvisit : ∀ {node traversal}, Fresh graph node traversal →
      (traversal.unmet graph.size).card ≤ depth →
      Left graph node traversal (graph.visit depth node traversal))
    (htracing : Tracing graph node scanned before current)
    (hdepth : (before.unmet graph.size).card ≤ depth + 1)
    (hnext : next ∈ graph.dependencies node) (hnew : next ∉ scanned) :
    Tracing graph node (scanned ++ [next]) before (graph.trace depth current next) := by
  unfold DependencyGraph.trace
  cases hmark : current.mark next with
  | onPath => exact htracing.close hfresh hnext hmark hnew
  | finished => exact htracing.skip hmark
  | unseen =>
      have hdeeper : Fresh graph next current :=
        { traced := htracing.traced
          lt := hclosed hnext
          unseen := hmark
          leads := by
            rw [htracing.path, List.head?_cons]
            rintro last ⟨⟩
            exact hnext }
      have hcurrent : (current.unmet graph.size).card ≤ depth :=
        Nat.le_of_lt_succ (Nat.lt_of_lt_of_le (htracing.card_unmet_lt hfresh) hdepth)
      exact htracing.follow (hvisit hdeeper hcurrent)

theorem Tracing.foldl_trace (hclosed : graph.Closed) (hfresh : Fresh graph node before)
    (hvisit : ∀ {node traversal}, Fresh graph node traversal →
      (traversal.unmet graph.size).card ≤ depth →
      Left graph node traversal (graph.visit depth node traversal))
    (hdepth : (before.unmet graph.size).card ≤ depth + 1) {rest : List Nat}
    (hrest : ∀ next ∈ rest, next ∈ graph.dependencies node) (hnodup : (scanned ++ rest).Nodup)
    (htracing : Tracing graph node scanned before current) :
    Tracing graph node (scanned ++ rest) before (rest.foldl (graph.trace depth) current) := by
  induction rest generalizing scanned current with
  | nil => simpa using htracing
  | cons next rest ih =>
      have hnew : next ∉ scanned := by
        intro hmem
        exact (List.nodup_append.mp hnodup).2.2 next hmem next List.mem_cons_self rfl
      have htrace := htracing.trace hclosed hfresh hvisit hdepth (hrest next List.mem_cons_self) hnew
      rw [List.append_cons] at hnodup ⊢
      exact ih (fun other hother => hrest other (List.mem_cons_of_mem _ hother)) hnodup htrace

theorem visit_left (hgraph : graph.WellFormed) (hfresh : Fresh graph node before)
    (hdepth : (before.unmet graph.size).card ≤ depth) :
    Left graph node before (graph.visit depth node before) := by
  induction depth generalizing node before with
  | zero =>
      have hempty := Finset.card_eq_zero.mp (Nat.le_zero.mp hdepth)
      have hmem : node ∈ before.unmet graph.size :=
        Finset.mem_filter.mpr ⟨Finset.mem_range.mpr hfresh.lt, hfresh.unseen⟩
      rw [hempty] at hmem
      exact absurd hmem (Finset.notMem_empty node)
  | succ depth ih =>
      rw [visit_succ]
      have hnodup : (graph.dependencies node).Nodup :=
        (hgraph.ascending node).imp fun hlt => hlt.ne
      exact (hfresh.tracing.foldl_trace hgraph.closed hfresh ih hdepth (fun _ hnext => hnext)
        hnodup).left hgraph.closed hfresh

def traceRoot (graph : DependencyGraph) (current : Traversal) (node : Nat) : Traversal :=
  match current.mark node with
  | .unseen => graph.visit graph.size node current
  | _ => current

def untraced (graph : DependencyGraph) : Traversal :=
  ⟨List.replicate graph.size .unseen, [], []⟩

def tracedBefore (graph : DependencyGraph) (count : Nat) : Traversal :=
  (List.range count).foldl graph.traceRoot graph.untraced

theorem tracedBefore_succ (graph : DependencyGraph) (count : Nat) :
    graph.tracedBefore (count + 1) = graph.traceRoot (graph.tracedBefore count) count := by
  rw [tracedBefore, List.range_succ, List.foldl_append]
  rfl

theorem cycles_eq (graph : DependencyGraph) :
    graph.cycles = (graph.tracedBefore graph.size).cycles :=
  rfl

theorem mark_untraced {node : Nat} :
    graph.untraced.mark node = if node < graph.size then .unseen else .finished := by
  simp only [untraced, Traversal.mark, List.getD_eq_getElem?_getD, List.getElem?_replicate]
  split <;> rfl

theorem traced_untraced (graph : DependencyGraph) : Traced graph graph.untraced where
  sized := List.length_replicate
  onPath_iff {u} := by
    rw [mark_untraced]
    split <;> simp [untraced]
  nodup := .nil
  chain := .nil
  isCycle cycle hcycle := absurd hcycle List.not_mem_nil
  distinct := .nil
  met := fun ⟨_, hcycle, _⟩ => absurd hcycle List.not_mem_nil
  ends {u} hlt hfinished := by
    rw [mark_untraced, if_pos hlt] at hfinished
    cases hfinished

theorem Traced.traceRoot (hgraph : graph.WellFormed) (htraced : Traced graph before)
    (hpath : before.path = []) (hnode : node < graph.size) :
    Left graph node before (graph.traceRoot before node) := by
  unfold DependencyGraph.traceRoot
  cases hmark : before.mark node with
  | unseen =>
      have hfresh : Fresh graph node before :=
        { traced := htraced
          lt := hnode
          unseen := hmark
          leads := by simp [hpath] }
      have hdepth : (before.unmet graph.size).card ≤ graph.size :=
        (Finset.card_filter_le _ _).trans (Finset.card_range _).le
      exact visit_left hgraph hfresh hdepth
  | onPath =>
      have hmem := htraced.onPath_iff.mp hmark
      rw [hpath] at hmem
      exact absurd hmem List.not_mem_nil
  | finished => exact ⟨htraced, .refl before, rfl, hmark⟩

theorem traced_tracedBefore (hgraph : graph.WellFormed) {count : Nat} (hcount : count ≤ graph.size) :
    Traced graph (graph.tracedBefore count) ∧ (graph.tracedBefore count).path = [] ∧
      ∀ node < count, (graph.tracedBefore count).mark node = .finished := by
  induction count with
  | zero => exact ⟨traced_untraced graph, rfl, fun node hlt => absurd hlt (Nat.not_lt_zero node)⟩
  | succ count ih =>
      obtain ⟨htraced, hpath, hfinished⟩ := ih (Nat.le_of_succ_le hcount)
      have hleft := htraced.traceRoot hgraph hpath hcount
      rw [tracedBefore_succ]
      refine ⟨hleft.traced, hleft.path.trans hpath, fun node hlt => ?_⟩
      rcases Nat.lt_succ_iff_lt_or_eq.mp hlt with hlt | rfl
      · exact hleft.kept.finished (hfinished node hlt)
      · exact hleft.finished

theorem isCycle_of_mem_cycles (hgraph : graph.WellFormed) (hpath : path ∈ graph.cycles) :
    graph.IsCycle path := by
  rw [cycles_eq] at hpath
  exact (traced_tracedBefore hgraph (Nat.le_refl graph.size)).1.isCycle path hpath

theorem nodup_cycles (hgraph : graph.WellFormed) : graph.cycles.Nodup := by
  rw [cycles_eq]
  exact (traced_tracedBefore hgraph (Nat.le_refl graph.size)).1.distinct

/-- Without the edges that close its cycles a graph has none. -/
theorem acc_descends (hgraph : graph.WellFormed) (hnode : node < graph.size) :
    Acc (graph.Descends graph.cycles) node := by
  obtain ⟨htraced, -, hfinished⟩ := traced_tracedBefore hgraph (Nat.le_refl graph.size)
  rw [cycles_eq]
  exact htraced.ends hnode (hfinished node hnode)

/-! ## Cycles in components -/

theorem IsCycle.reaches (hcycle : graph.IsCycle path) {u v : Nat} (hu : u ∈ path) (hv : v ∈ path) :
    graph.Reaches u v := by
  obtain ⟨node, later, rfl, -, hchain⟩ := hcycle
  have hpairwise : (node :: later ++ [node]).Pairwise graph.Reaches :=
    (hchain.imp fun _ _ hnext => Relation.ReflTransGen.single hnext).pairwise
  obtain ⟨-, -, hback⟩ := List.pairwise_append.mp hpairwise
  have hto : graph.Reaches u node := by
    rcases List.mem_append.mp hu with hu | hu
    · exact hback u hu node List.mem_cons_self
    · rw [List.mem_singleton.mp hu]
      exact .refl
  rcases List.mem_cons.mp hv with rfl | hv
  · exact hto
  · exact hto.trans ((List.pairwise_cons.mp hpairwise).1 v hv)

theorem IsCycle.subset_of_mem (hclosed : graph.Closed) (hcycle : graph.IsCycle path)
    {component : List Nat} (hcomponent : component ∈ graph.stronglyConnectedComponents)
    {u : Nat} (hu : u ∈ path) (hmem : u ∈ component) : ∀ v ∈ path, v ∈ component := by
  intro v hv
  have hclass := (classified_components hclosed).isClass component hcomponent u hmem v
  exact hclass.mpr ⟨hcycle.reaches hu hv, hcycle.reaches hv hu⟩

/-- A cycle leaves its first node for another one. -/
theorem IsCycle.exists_two (hgraph : graph.WellFormed) (hcycle : graph.IsCycle path) :
    ∃ u ∈ path, ∃ v ∈ path, v ≠ u ∧ u < graph.size := by
  obtain ⟨node, later, rfl, hnodup, hchain⟩ := hcycle
  cases later with
  | nil =>
      have hloop : node ∈ graph.dependencies node := by simpa using hchain
      exact absurd hloop hgraph.irreflexive
  | cons next later =>
      have hnext : next ∈ graph.dependencies node := (List.isChain_cons_cons.mp hchain).1
      refine ⟨node, by simp, next, by simp, ?_, lt_size_of_mem hnext⟩
      rintro rfl
      exact (List.nodup_cons.mp hnodup).1 List.mem_cons_self

theorem IsCycle.exists_component (hgraph : graph.WellFormed) (hcycle : graph.IsCycle path) :
    ∃ component ∈ graph.stronglyConnectedComponents, 1 < component.length ∧
      ∀ node ∈ path, node ∈ component := by
  obtain ⟨u, hu, v, hv, hne, hlt⟩ := hcycle.exists_two hgraph
  obtain ⟨component, hcomponent, hmem⟩ := (exists_component_iff hgraph.closed).mpr hlt
  have hall := hcycle.subset_of_mem hgraph.closed hcomponent hu hmem
  have hnodup := (classified_components hgraph.closed).nodup component hcomponent
  refine ⟨component, hcomponent, ?_, hall⟩
  rw [← List.toFinset_card_of_nodup hnodup, Finset.one_lt_card]
  exact ⟨v, List.mem_toFinset.mpr (hall v hv), u, List.mem_toFinset.mpr hmem, hne⟩

theorem exists_next_of_component (hclosed : graph.Closed) {component : List Nat}
    (hcomponent : component ∈ graph.stronglyConnectedComponents) (hlength : 1 < component.length)
    (hnode : node ∈ component) : ∃ next ∈ component, next ∈ graph.dependencies node := by
  have hclassified := classified_components hclosed
  have hclass := hclassified.isClass component hcomponent node hnode
  rw [← List.toFinset_card_of_nodup (hclassified.nodup component hcomponent)] at hlength
  obtain ⟨other, hother, hne⟩ := Finset.exists_mem_ne hlength node
  obtain ⟨hto, hback⟩ := (hclass other).mp (List.mem_toFinset.mp hother)
  rcases hto.cases_head with heq | ⟨next, hnext, hrest⟩
  · exact absurd heq.symm hne
  · exact ⟨next, (hclass next).mpr ⟨.single hnext, hrest.trans hback⟩, hnext⟩

theorem exists_cycle_of_component (hgraph : graph.WellFormed) {component : List Nat}
    (hcomponent : component ∈ graph.stronglyConnectedComponents)
    (hlength : 1 < component.length) :
    ∃ path ∈ graph.cycles, ∀ node ∈ path, node ∈ component := by
  have hfrom : ∀ node, Acc (graph.Descends graph.cycles) node → node ∈ component →
      ∃ path ∈ graph.cycles, ∀ node ∈ path, node ∈ component := by
    intro node hends
    induction hends with
    | intro node _ ih =>
        intro hnode
        obtain ⟨next, hmem, hnext⟩ :=
          exists_next_of_component hgraph.closed hcomponent hlength hnode
        by_cases hcloses : Closes graph.cycles node next
        · obtain ⟨path, hpath, hsuffix⟩ := hcloses
          have hcycle := isCycle_of_mem_cycles hgraph hpath
          exact ⟨path, hpath, hcycle.subset_of_mem hgraph.closed hcomponent
            (hsuffix.subset List.mem_cons_self) hnode⟩
        · exact ih next ⟨hnext, hcloses⟩ hmem
  obtain ⟨node, hnode⟩ := List.exists_mem_of_length_pos (Nat.zero_lt_of_lt hlength)
  have hlt := (exists_component_iff hgraph.closed).mp ⟨component, hcomponent, hnode⟩
  exact hfrom node (acc_descends hgraph hlt) hnode

theorem cycles_eq_nil_iff (hgraph : graph.WellFormed) :
    graph.cycles = [] ↔ (Decomposition.mk graph.stronglyConnectedComponents).coupled = [] := by
  simp only [List.eq_nil_iff_forall_not_mem, Decomposition.coupled, List.mem_filter,
    decide_eq_true_eq, not_and]
  constructor
  · intro hnone component hcomponent hlength
    obtain ⟨path, hpath, -⟩ := exists_cycle_of_component hgraph hcomponent hlength
    exact hnone path hpath
  · intro hnone path hpath
    obtain ⟨component, hcomponent, hlength, -⟩ :=
      (isCycle_of_mem_cycles hgraph hpath).exists_component hgraph
    exact hnone component hcomponent hlength

end DependencyGraph

namespace Analyzer

variable {α β γ : Type}

/-- Whenever a part of an analysis goes on, its result has a property. -/
def Ensures (part : Observed α β) (holds : β → Prop) : Prop :=
  ∀ observation result, (part.run.run observation).1 = .ok result → holds result

theorem Ensures.pure {result : β} {holds : β → Prop} (hholds : holds result) :
    Ensures (Pure.pure result : Observed α β) holds := by
  rintro observation other ⟨⟩
  exact hholds

theorem Ensures.bind_of {part : Observed α β} {next : β → Observed α γ} {given : β → Prop}
    {holds : γ → Prop} (hpart : Ensures part given)
    (hnext : ∀ result, given result → Ensures (next result) holds) :
    Ensures (part >>= next) holds := by
  intro observation result hresult
  rw [ExceptT.run_bind, StateT.run_bind] at hresult
  rcases houtcome : part.run.run observation with ⟨outcome, after⟩
  rw [houtcome] at hresult
  cases outcome with
  | ok value => exact hnext value (hpart _ _ (congrArg Prod.fst houtcome)) after result hresult
  | error cause => cases hresult

theorem Ensures.bind {part : Observed α β} {next : β → Observed α γ} {holds : γ → Prop}
    (hnext : ∀ result, Ensures (next result) holds) : Ensures (part >>= next) holds :=
  Ensures.bind_of (fun _ _ _ => trivial) fun result _ => hnext result

variable [Scalar α]

theorem stages_ensures (settings : AnalyzerSettings α) (react : AnalysisEvent α → Bool)
    (probe : Probe α) : Ensures (stages settings react probe) fun analysis =>
      analysis.dependencies.WellFormed ∧ analysis.cycles = analysis.dependencies.cycles ∧
        analysis.decomposition = ⟨analysis.dependencies.stronglyConnectedComponents⟩ := by
  unfold stages
  repeat refine Ensures.bind fun _ => ?_
  exact Ensures.pure ⟨DependencyGraph.ofPattern_wellFormed _, rfl, rfl⟩

theorem run_ok {settings : AnalyzerSettings α} {react : AnalysisEvent α → Bool}
    {system : ResidualSystem α} {state : List α} {time : α} {control : Control}
    {analysis : Analysis α} (hrun : (run settings react system state time control).1 = .ok analysis) :
    analysis.dependencies.WellFormed ∧ analysis.cycles = analysis.dependencies.cycles ∧
      analysis.decomposition = ⟨analysis.dependencies.stronglyConnectedComponents⟩ := by
  unfold run at hrun
  simp only at hrun
  split at hrun
  · cases hrun
  · split at hrun
    · cases hrun
    · exact stages_ensures settings react _ _ analysis hrun

theorem hasCircularDependency_run (settings : AnalyzerSettings α) (react : AnalysisEvent α → Bool)
    (system : ResidualSystem α) (state : List α) (time : α) (control : Control) :
    (run settings react system state time control).1.map Analysis.hasCircularDependency =
      (run settings react system state time control).1.map fun analysis =>
        !analysis.decomposition.coupled.isEmpty := by
  cases hrun : (run settings react system state time control).1 with
  | error cause => rfl
  | ok analysis =>
      obtain ⟨hgraph, hcycles, hdecomposition⟩ := run_ok hrun
      have hempty : analysis.cycles.isEmpty = analysis.decomposition.coupled.isEmpty := by
        rw [Bool.eq_iff_iff, List.isEmpty_iff, List.isEmpty_iff, hcycles, hdecomposition]
        exact DependencyGraph.cycles_eq_nil_iff hgraph
      simp only [Except.map, Analysis.hasCircularDependency, hempty]

end Analyzer

/-- The cycles of a graph are distinct, each runs inside a component, and each
component with several members has one of them: an analysis reports a circular
dependency if and only if it reports a coupled component. -/
theorem DependencyGraph.cycles_match_components {graph : DependencyGraph}
    (hgraph : graph.WellFormed) :
    (∀ path ∈ graph.cycles, graph.IsCycle path ∧
      ∃ component ∈ graph.stronglyConnectedComponents, ∀ node ∈ path, node ∈ component) ∧
    graph.cycles.Nodup ∧
    (∀ component ∈ graph.stronglyConnectedComponents, 1 < component.length →
      ∃ path ∈ graph.cycles, ∀ node ∈ path, node ∈ component) ∧
    (graph.cycles ≠ [] ↔ ∃ component ∈ graph.stronglyConnectedComponents, 1 < component.length) ∧
    ∀ {α : Type} [Scalar α] (settings : AnalyzerSettings α) (react : AnalysisEvent α → Bool)
      (system : ResidualSystem α) (state : List α) (time : α) (control : Control),
      (Analyzer.run settings react system state time control).1.map
          Analysis.hasCircularDependency =
        (Analyzer.run settings react system state time control).1.map fun analysis =>
          !analysis.decomposition.coupled.isEmpty := by
  refine ⟨fun path hpath => ?_, nodup_cycles hgraph, fun component => exists_cycle_of_component hgraph,
    ?_, fun settings react system state time control =>
      Analyzer.hasCircularDependency_run settings react system state time control⟩
  · have hcycle := isCycle_of_mem_cycles hgraph hpath
    obtain ⟨component, hcomponent, -, hall⟩ := hcycle.exists_component hgraph
    exact ⟨hcycle, component, hcomponent, hall⟩
  · rw [ne_eq, cycles_eq_nil_iff hgraph, Decomposition.coupled, List.filter_eq_nil_iff]
    push Not
    simp

/-- Three nodes that depend on one another in a ring, and a fourth that one of
them depends on. -/
theorem DependencyGraph.cycles_match_components_ring :
    let graph := ofEdges 4 [(0, 1), (1, 2), (2, 0), (2, 3)]
    graph.WellFormed ∧ graph.stronglyConnectedComponents = [[3], [0, 1, 2]] ∧
      ∃ path ∈ graph.cycles, path = [0, 1, 2, 0] ∧ ∀ node ∈ path, node ∈ [0, 1, 2] := by
  intro graph
  have hgraph : graph.WellFormed := ofEdges_wellFormed (by decide)
  have hcomponents : graph.stronglyConnectedComponents = [[3], [0, 1, 2]] := by decide
  have hcycles : graph.cycles = [[0, 1, 2, 0]] := by decide
  obtain ⟨-, -, hexists, -⟩ := cycles_match_components hgraph
  obtain ⟨path, hpath, hinside⟩ := hexists [0, 1, 2] (by simp [hcomponents]) (by decide)
  rw [hcycles, List.mem_singleton] at hpath
  exact ⟨hgraph, hcomponents, path, by simp [hcycles, hpath], hpath, hinside⟩

end ImplicitDynamics
