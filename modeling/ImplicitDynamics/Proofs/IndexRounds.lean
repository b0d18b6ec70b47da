import ImplicitDynamics.Proofs.Renumbering

/-!
# The rounds of the structural index

The search for the index goes from round to round until all constraints are
matched or the largest index is reached.  What happens in a round does not
depend on the largest index, so a smaller one only cuts the search short.

Whether the first round is the last one is a question about the system: its
constraints can then be assigned algebraic variables, no two the same.
-/

namespace ImplicitDynamics.StructuralIndex

namespace Incidence

variable {incidence : Incidence} {maxIndex index : Nat} {constraints others : List (List Nat)}

/-- The constraints after a round.  Those that are not matched are
differentiated. -/
def round (incidence : Incidence) (constraints : List (List Nat)) : List (List Nat) :=
  constraints.zipWith
    (fun dependencies isDone =>
      if isDone then dependencies else incidence.differentiate dependencies)
    (incidence.matched constraints)

theorem advance_succ (incidence : Incidence) (rounds index : Nat)
    (constraints : List (List Nat)) :
    incidence.advance (rounds + 1) index constraints =
      if (incidence.matched constraints).all id then index
      else incidence.advance rounds (index + 1) (incidence.round constraints) := rfl

theorem advance_le (rounds index : Nat) (constraints : List (List Nat)) :
    incidence.advance rounds index constraints ≤ index + rounds := by
  induction rounds generalizing index constraints with
  | zero => exact Nat.le_refl index
  | succ rounds ih =>
      rw [advance_succ]
      split
      · exact Nat.le_add_right _ _
      · have hrest := ih (index + 1) (incidence.round constraints)
        omega

/-- With fewer rounds the search ends where it would have been after them. -/
theorem advance_eq_min (rounds more index : Nat) (constraints : List (List Nat)) :
    incidence.advance rounds index constraints =
      min (index + rounds) (incidence.advance (rounds + more) index constraints) := by
  induction rounds generalizing index constraints with
  | zero => exact (Nat.min_eq_left (le_advance _ _ _)).symm
  | succ rounds ih =>
      have hmore : rounds + 1 + more = rounds + more + 1 := by omega
      have hindex : index + 1 + rounds = index + (rounds + 1) := by omega
      rw [hmore, advance_succ, advance_succ]
      split
      · omega
      · rw [ih, hindex]

/-- No round follows: all constraints are matched, or the index may not grow. -/
def Final (incidence : Incidence) (maxIndex index : Nat) (constraints : List (List Nat)) :
    Prop :=
  (incidence.matched constraints).all id = true ∨ maxIndex ≤ index

/-- The rounds of the search, each with its index and the constraints at its
beginning. -/
inductive Round (incidence : Incidence) (maxIndex : Nat) : Nat → List (List Nat) → Prop where
  | first : Round incidence maxIndex 1 incidence.constraints
  | next {index : Nat} {constraints : List (List Nat)} :
      Round incidence maxIndex index constraints →
      ¬ incidence.Final maxIndex index constraints →
      Round incidence maxIndex (index + 1) (incidence.round constraints)

/-- The search has a last round, and `result` is its index. -/
structure EndsWith (incidence : Incidence) (maxIndex result : Nat) : Prop where
  last : ∃ constraints, incidence.Round maxIndex result constraints ∧
    incidence.Final maxIndex result constraints
  le : ∀ index constraints, incidence.Round maxIndex index constraints → index ≤ result

theorem Round.pos (hround : incidence.Round maxIndex index constraints) : 1 ≤ index := by
  cases hround with
  | first => exact Nat.le_refl 1
  | next => exact Nat.succ_pos _

/-- A round has a single predecessor, so its index determines it. -/
theorem Round.unique (hround : incidence.Round maxIndex index constraints)
    (hother : incidence.Round maxIndex index others) : constraints = others := by
  induction hround generalizing others with
  | first =>
      cases hother with
      | first => rfl
      | next hprevious => exact absurd hprevious.pos (Nat.not_succ_le_zero 0)
  | next hprevious _ ih =>
      cases hother with
      | first => exact absurd hprevious.pos (Nat.not_succ_le_zero 0)
      | next hprevious' => rw [ih hprevious']

theorem Round.le_of_final {result index : Nat}
    (hlast : incidence.Round maxIndex result constraints)
    (hfinal : incidence.Final maxIndex result constraints)
    (hround : incidence.Round maxIndex index others) : index ≤ result := by
  induction hround with
  | first => exact hlast.pos
  | next hprevious hmore ih =>
      refine Nat.lt_of_le_of_ne ih fun heq => hmore ?_
      subst heq
      rwa [hprevious.unique hlast]

theorem Round.advance (hround : incidence.Round maxIndex index constraints) (rounds : Nat)
    (hrounds : maxIndex ≤ index + rounds) (hindex : rounds ≠ 0 → index + rounds ≤ maxIndex) :
    ∃ last, incidence.Round maxIndex (incidence.advance rounds index constraints) last ∧
      incidence.Final maxIndex (incidence.advance rounds index constraints) last := by
  induction rounds generalizing index constraints with
  | zero => exact ⟨constraints, hround, .inr hrounds⟩
  | succ rounds ih =>
      rw [advance_succ]
      split
      · next hall => exact ⟨constraints, hround, .inl hall⟩
      · next hleft =>
        have hle := hindex (Nat.succ_ne_zero _)
        have hmore : ¬ incidence.Final maxIndex index constraints := by
          rintro (hall | hreached)
          · exact hleft hall
          · omega
        exact ih (hround.next hmore) (by omega) fun _ => by omega

end Incidence

theorem compute_endsWith (incidence : Incidence) (maxIndex : Nat) :
    incidence.EndsWith maxIndex (compute incidence maxIndex) := by
  have hfirst : incidence.Round maxIndex 1 incidence.constraints := .first
  obtain ⟨last, hlast, hfinal⟩ := hfirst.advance (maxIndex - 1) (by omega) (by omega)
  exact ⟨⟨last, hlast, hfinal⟩, fun index constraints hround => hlast.le_of_final hfinal hround⟩

/-- The index is that of the last round.  It is at least one and at most the
largest index, which does nothing but cut it off; and it is one exactly if the
constraints can be assigned algebraic variables of their own. -/
theorem compute_cuts_off (incidence : Incidence) :
    (∀ maxIndex, 1 ≤ compute incidence maxIndex ∧ compute incidence maxIndex ≤ max 1 maxIndex) ∧
      (∀ lower upper, 1 ≤ lower → lower ≤ upper →
        compute incidence lower = min lower (compute incidence upper)) ∧
      (∀ maxIndex, 2 ≤ maxIndex → (compute incidence maxIndex = 1 ↔ incidence.Assignable)) ∧
      ∀ maxIndex, incidence.EndsWith maxIndex (compute incidence maxIndex) := by
  refine ⟨fun maxIndex => ⟨Incidence.le_advance _ _ _, ?_⟩, fun lower upper hpos hle => ?_,
    fun maxIndex htwo => ?_, compute_endsWith incidence⟩
  · have hbound : compute incidence maxIndex ≤ 1 + (maxIndex - 1) := Incidence.advance_le _ _ _
    omega
  · have hmin := incidence.advance_eq_min (lower - 1) (upper - lower) 1 incidence.constraints
    have hlower : 1 + (lower - 1) = lower := by omega
    have hupper : lower - 1 + (upper - lower) = upper - 1 := by omega
    rwa [hlower, hupper] at hmin
  · rw [compute_eq_one_iff_assignable]
    exact or_iff_right (by omega)

/-- A mass on a rod, with its position, its velocity and the force of the rod.
The last row says how long the rod is. -/
def pendulum : Incidence :=
  ⟨[[2, 4], [3, 4], [0], [1], [2, 3]], [[0], [1], [2], [3], []],
    [false, false, false, false, true]⟩

theorem compute_cuts_off_pendulum :
    compute pendulum 4 = 3 ∧ compute pendulum 2 = 2 ∧ ¬ pendulum.Assignable := by
  obtain ⟨-, hcut, hone, -⟩ := compute_cuts_off pendulum
  have hthree : compute pendulum 4 = 3 := by decide
  refine ⟨hthree, ?_, ?_⟩
  · rw [hcut 2 4 (by decide) (by decide), hthree]
    rfl
  · rw [← hone 4 (by decide), hthree]
    decide

end ImplicitDynamics.StructuralIndex
