import ImplicitDynamics.FiniteDifference
import ImplicitDynamics.Proofs.BdfAttempt

/-!
# What a sweep sees

A move is taken back after the residual has been evaluated, so each move of a
sweep starts from the probed point.  Only the contents of the buffer are passed
on.  A sweep that comes to its end has read off one residual for each move; one
that does not was cancelled, or one of these residuals failed.
-/

namespace ImplicitDynamics

theorem set_getD_of_modify {α : Type} (values : List α) (j : Nat) (f : α → α) (default : α) :
    (values.modify j f).set j (values.getD j default) = values := by
  apply List.ext_getElem?
  intro k
  by_cases hjk : j = k
  · subst hjk
    by_cases hj : j < values.length
    · simp [hj]
    · simp [hj]
  · simp [List.getElem?_set_ne hjk, hjk]

theorem set_getD_self {α : Type} (values : List α) (j : Nat) (default : α) :
    values.set j (values.getD j default) = values := by
  have hset := set_getD_of_modify values j id default
  rwa [List.modify_id] at hset

variable {α σ β : Type} [Scalar α] {probe : Probe α} {perturbation : Perturbation α}

theorem Scratch.restore_move (scratch : Scratch α) (perturbation : Perturbation α) (j : Nat)
    (h : α) (out : List α) :
    ({ scratch.move perturbation j h with out }).restore scratch j = { scratch with out } := by
  cases perturbation <;>
    simp only [Scratch.move, Scratch.restore, set_getD_of_modify, set_getD_self]

namespace Probe

/-- The probed point with a buffer. -/
def on (probe : Probe α) (out : List α) : Scratch α :=
  ⟨probe.state, probe.derivatives, out⟩

/-- The residual after a move from the probed point, written over `out`. -/
def written (probe : Probe α) (perturbation : Perturbation α) (move : Move α) (out : List α) :
    Written α :=
  let moved := (probe.on out).move perturbation move.coordinate move.distance
  probe.system.residual probe.time moved.state moved.derivatives out

theorem evaluate_on (move : Move α) (out : List α) :
    (probe.on out).evaluate probe.system probe.time perturbation move.coordinate move.distance =
      ((probe.written perturbation move out).failure,
        probe.on (probe.written perturbation move out).out) := by
  have hout : ((probe.on out).move perturbation move.coordinate move.distance).out = out := by
    cases perturbation <;> rfl
  rw [Scratch.evaluate]
  simp only [hout, Scratch.restore_move]
  rfl

theorem length_written (hsystem : probe.system.FillsBuffer) (move : Move α) (out : List α) :
    (probe.written perturbation move out).out.length = out.length :=
  hsystem _ _ _ _

/-- What a sweep reads off a move from the probed point. -/
def Sees (probe : Probe α) (perturbation : Perturbation α) (readOff : Move α → List α → β)
    (height : Nat) (move : Move α) (result : β) : Prop :=
  ∃ out, out.length = height ∧ (probe.written perturbation move out).failure = none ∧
    result = readOff move (probe.written perturbation move out).out

variable {supervisor : Supervisor σ} {readOff : Move α → List α → β} {finished total : Nat}
  {moves : List (Move α)} {out : List α} {s : σ}

theorem sweep_sees (probe : Probe α) (hsystem : probe.system.FillsBuffer) {results : List β}
    (hsweep : (probe.sweep supervisor perturbation readOff finished total (probe.on out) moves
      s).1 = .ok results) :
    List.Forall₂ (probe.Sees perturbation readOff out.length) moves results := by
  induction moves generalizing finished out s results with
  | nil =>
      cases hsweep
      exact .nil
  | cons move rest ih =>
      rw [sweep, evaluate_on] at hsweep
      split at hsweep
      · cases hsweep
      · cases hfailure : (probe.written perturbation move out).failure with
        | some cause =>
            rw [hfailure] at hsweep
            cases hsweep
        | none =>
            rw [hfailure] at hsweep
            simp only at hsweep
            split at hsweep
            · next others _ hothers =>
              cases hsweep
              have hrest := ih (congrArg Prod.fst hothers)
              rw [length_written hsystem] at hrest
              exact .cons ⟨out, rfl, hfailure, rfl⟩ hrest
            · cases hsweep

/-- A sweep in which no residual fails comes to its end unless it is
cancelled. -/
theorem sweep_completes (probe : Probe α) (hsystem : probe.system.FillsBuffer)
    (hmoves : ∀ move ∈ moves, ∀ buffer, buffer.length = out.length →
      (probe.written perturbation move buffer).failure = none) :
    (probe.sweep supervisor perturbation readOff finished total (probe.on out) moves s).1 =
        .error .cancelled ∨
      ∃ results,
        (probe.sweep supervisor perturbation readOff finished total (probe.on out) moves s).1 =
          .ok results := by
  induction moves generalizing finished out s with
  | nil => exact .inr ⟨[], rfl⟩
  | cons move rest ih =>
      have hfailure := hmoves move List.mem_cons_self out rfl
      rw [sweep, evaluate_on, hfailure]
      rcases supervisor.proceed s with ⟨_ | _, looked⟩
      · exact .inl rfl
      · have hlater : ∀ other ∈ rest, ∀ buffer,
            buffer.length = (probe.written perturbation move out).out.length →
              (probe.written perturbation other buffer).failure = none := by
          intro other hother buffer hbuffer
          rw [length_written hsystem] at hbuffer
          exact hmoves other (List.mem_cons_of_mem move hother) buffer hbuffer
        simp only
        split
        · exact .inr ⟨_, rfl⟩
        · next cause _ hothers =>
          rcases ih hlater with hstopped | ⟨others, hcompleted⟩
          · rw [hothers] at hstopped
            cases hstopped
            exact .inl rfl
          · rw [hothers] at hcompleted
            cases hcompleted

variable {base increments : List α} {indices : List Nat}

theorem columns_eq_sweep (probe : Probe α) (supervisor : Supervisor σ) (hbase : base ≠ [])
    (indices : List Nat) (perturbation : Perturbation α) (increments : List α) (s : σ) :
    probe.columns supervisor base indices perturbation increments s =
      probe.sweep supervisor perturbation (quotients base) 0 indices.length
        (probe.on (List.replicate base.length 0))
        (indices.map fun j => ⟨j, increments.getD j 0⟩) s :=
  if_neg (by rwa [List.isEmpty_iff])

theorem columns_sees (probe : Probe α) (hsystem : probe.system.FillsBuffer) (hbase : base ≠ [])
    {columns : List (List α)}
    (hcolumns : (probe.columns supervisor base indices perturbation increments s).1 = .ok columns) :
    List.Forall₂ (fun j => probe.Sees perturbation (quotients base) base.length
      ⟨j, increments.getD j 0⟩) indices columns := by
  rw [columns_eq_sweep probe supervisor hbase] at hcolumns
  have hsees := probe.sweep_sees hsystem hcolumns
  rwa [List.length_replicate, List.forall₂_map_left_iff] at hsees

theorem cancelled_of_columns (probe : Probe α) (hsystem : probe.system.FillsBuffer)
    (hbase : base ≠ []) (hmoves : ∀ j ∈ indices, ∀ buffer, buffer.length = base.length →
      (probe.written perturbation ⟨j, increments.getD j 0⟩ buffer).failure = none)
    {cause : JacobianError α}
    (hcolumns : (probe.columns supervisor base indices perturbation increments s).1 =
      .error cause) : cause = .cancelled := by
  have hwritten : ∀ move ∈ indices.map fun j => (⟨j, increments.getD j 0⟩ : Move α), ∀ buffer,
      buffer.length = (List.replicate base.length (0 : α)).length →
        (probe.written perturbation move buffer).failure = none := by
    rwa [List.forall_mem_map, List.length_replicate]
  rw [columns_eq_sweep probe supervisor hbase] at hcolumns
  rcases probe.sweep_completes hsystem hwritten with hcancelled | ⟨columns, hcompleted⟩
  · cases hcancelled.symm.trans hcolumns
    rfl
  · cases hcompleted.symm.trans hcolumns

end Probe

theorem FiniteDifference.increment_pos (value : ℝ) {scale : ℝ} (hscale : 0 < scale) :
    0 < increment value scale := by
  have hepsilon : (0 : ℝ) < Real.sqrt Scalar.epsilon := by
    rw [Exact.epsilon_eq]
    positivity
  have hlarger : 0 < max |value| scale := lt_max_of_lt_right hscale
  exact mul_pos hepsilon hlarger

end ImplicitDynamics
