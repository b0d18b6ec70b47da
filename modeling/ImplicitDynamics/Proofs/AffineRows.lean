import ImplicitDynamics.Proofs.BdfStart
import ImplicitDynamics.Proofs.Interruption
import ImplicitDynamics.Proofs.LinearVerdicts
import ImplicitDynamics.Proofs.Sweeps
import Mathlib

/-!
# Newton iterations on affine rows

The rows that an iteration makes vanish may depend on the coordinates that it
moves as an affine function, while all else is held fixed.  Differences for these
coordinates are then the columns of the slope, the column of a coordinate in its
place, and the update that solves the linearized rows makes them vanish exactly.
So there is a first update at most, and none where the slope is refused.
-/

open Matrix

namespace ImplicitDynamics

noncomputable section

open Linear (tableOf vectorOf)

variable {indices : List Nat}

theorem Linear.l2Norm_eq_zero {values : List ℝ} (hzeros : ∀ value ∈ values, value = 0) :
    l2Norm values = 0 := by
  have hsquares : (values.map fun value => value * value).sum = 0 := by
    apply List.sum_eq_zero
    intro square hsquare
    rcases List.mem_map.mp hsquare with ⟨value, hvalue, heq⟩
    rw [← heq, hzeros value hvalue, mul_zero]
  simp only [l2Norm, Exact.sum_eq, Exact.mul_eq, hsquares]
  exact Real.sqrt_zero

/-- The selected entries as a vector. -/
def Newton.selected (indices : List Nat) (values : List ℝ) : Fin indices.length → ℝ :=
  vectorOf indices.length (Newton.select indices values)

namespace Newton

variable {values updates : List ℝ}

theorem selected_apply (indices : List Nat) (values : List ℝ) (k : Fin indices.length) :
    selected indices values k = values.getD indices[(k : Nat)] 0 := by
  simp [selected, vectorOf, select, Exact.zero_eq]

theorem ofFn_selected (indices : List Nat) (values : List ℝ) :
    List.ofFn (selected indices values) = select indices values :=
  Linear.ofFn_vectorOf (List.length_map _)

theorem getD_addTo (hnodup : indices.Nodup) (hlt : ∀ i ∈ indices, i < values.length)
    (updates : List ℝ) {k : Nat} (hk : k < indices.length) :
    (Unknowns.addTo indices updates values).getD indices[k] 0 =
      values.getD indices[k] 0 + updates.getD k 0 := by
  induction indices generalizing values updates k with
  | nil => cases hk
  | cons index rest ih =>
      rw [List.nodup_cons] at hnodup
      rw [List.forall_mem_cons] at hlt
      cases updates with
      | nil => simp [Unknowns.addTo]
      | cons update updates =>
          change (Unknowns.addTo rest updates (values.modify index (· + update))).getD _ 0 = _
          have hlater : ∀ i ∈ rest, i < (values.modify index (· + update)).length := by
            rw [List.length_modify]
            exact hlt.2
          cases k with
          | zero =>
              rw [List.getElem_cons_zero, Unknowns.getD_addTo_of_not_mem hnodup.1,
                Unknowns.getD_modify_self _ hlt.1, List.getD_cons_zero]
          | succ k =>
              have hk' : k < rest.length := Nat.lt_of_succ_lt_succ hk
              have hne : index ≠ rest[k] := fun heq => hnodup.1 (heq ▸ List.getElem_mem hk')
              rw [List.getElem_cons_succ, ih hnodup.2 hlater updates hk',
                Unknowns.getD_modify_of_ne _ hne, List.getD_cons_succ]

theorem selected_addTo (hnodup : indices.Nodup) (hlt : ∀ i ∈ indices, i < values.length)
    (updates : List ℝ) :
    selected indices (Unknowns.addTo indices updates values) =
      selected indices values + vectorOf indices.length updates := by
  funext k
  rw [Pi.add_apply, selected_apply, selected_apply, getD_addTo hnodup hlt updates k.isLt]
  rfl

/-- Moving one of the selected coordinates moves its own entry only. -/
theorem selected_addTo_single (hnodup : indices.Nodup) (hlt : ∀ i ∈ indices, i < values.length)
    (k : Fin indices.length) (d : ℝ) :
    selected indices (Unknowns.addTo [indices[(k : Nat)]] [d] values) =
      selected indices values + Pi.single k d := by
  funext l
  rw [Pi.add_apply, selected_apply, selected_apply]
  change (values.modify indices[(k : Nat)] (· + d)).getD indices[(l : Nat)] 0 = _
  by_cases hlk : l = k
  · subst hlk
    rw [Pi.single_eq_same, Unknowns.getD_modify_self _ (hlt _ (List.getElem_mem _))]
  · have hne : indices[(k : Nat)] ≠ indices[(l : Nat)] := fun heq =>
      hlk (Fin.ext (hnodup.getElem_inj_iff.mp heq).symm)
    rw [Pi.single_eq_of_ne hlk, add_zero, Unknowns.getD_modify_of_ne _ hne]

/-- An iteration that starts from a point of the system and moves coordinates
that it has, each of them once. -/
structure Moves (system : ResidualSystem ℝ) (unknowns : Unknowns) (indices : List Nat)
    (start : Point ℝ) : Prop where
  fillsBuffer : system.FillsBuffer
  nodup : indices.Nodup
  lt_dimension : ∀ i ∈ indices, i < system.dimension
  length : (unknowns.values start).length = system.dimension

end Newton

/-! ## Affine rows -/

/-- At all points that differ from `start` in the coordinates that are moved, the
residual can be evaluated, and its rows `indices` are `offset + slope x`, where `x`
are these coordinates. -/
structure ResidualSystem.AffineOn (system : ResidualSystem ℝ) (unknowns : Unknowns)
    (indices : List Nat) (start : Point ℝ)
    (slope : Matrix (Fin indices.length) (Fin indices.length) ℝ)
    (offset : Fin indices.length → ℝ) : Prop where
  succeeds : ∀ {point out}, unknowns.Spares indices start point → out.length = system.dimension →
    (system.residual point.time point.state point.derivatives out).failure = none
  rows : ∀ {point out}, unknowns.Spares indices start point → out.length = system.dimension →
    Newton.selected indices (system.residual point.time point.state point.derivatives out).out =
      offset + slope *ᵥ Newton.selected indices (unknowns.values point)

variable {system : ResidualSystem ℝ} {unknowns : Unknowns} {start point : Point ℝ}
  {slope : Matrix (Fin indices.length) (Fin indices.length) ℝ} {offset : Fin indices.length → ℝ}

theorem Unknowns.Spares.nudge (hspares : unknowns.Spares indices start point) {j : Nat}
    (hj : j ∈ indices) (d : ℝ) : unknowns.Spares indices start (unknowns.update [j] [d] point) where
  fixed := (fixed_update _ _ _ _).trans hspares.fixed
  length := by rw [values_update, length_addTo, hspares.length]
  entries i hi := by
    have hne : i ∉ [j] := fun hmem => hi (List.mem_singleton.mp hmem ▸ hj)
    rw [values_update, getElem?_addTo_of_not_mem hne, hspares.entries i hi]

theorem Newton.Moves.lt_length (hmoves : Newton.Moves system unknowns indices start)
    (hspares : unknowns.Spares indices start point) :
    ∀ i ∈ indices, i < (unknowns.values point).length := by
  rw [hspares.length, hmoves.length]
  exact hmoves.lt_dimension

theorem Newton.Moves.ne_nil (hmoves : Newton.Moves system unknowns indices start)
    (hindices : indices ≠ []) {residual : List ℝ} (hlength : residual.length = system.dimension) :
    residual ≠ [] := by
  rcases List.exists_mem_of_ne_nil indices hindices with ⟨i, hi⟩
  exact List.ne_nil_of_length_pos (hlength ▸ (hmoves.lt_dimension i hi).pos)

/-- A move for a difference quotient is an update of one coordinate. -/
theorem Probe.written_update (system : ResidualSystem ℝ) (unknowns : Unknowns) (point : Point ℝ)
    (j : Nat) (d : ℝ) (out : List ℝ) :
    let moved := unknowns.update [j] [d] point
    (Probe.mk system point.time point.state point.derivatives).written unknowns.perturbation ⟨j, d⟩
      out = system.residual moved.time moved.state moved.derivatives out := by
  cases unknowns <;> rfl

namespace ResidualSystem.AffineOn

variable (hmoves : Newton.Moves system unknowns indices start)
  (haffine : system.AffineOn unknowns indices start slope offset)
  (hspares : unknowns.Spares indices start point)

include hmoves haffine hspares

theorem exists_residual : ∃ residual, system.residualAt point = .ok residual ∧
    residual.length = system.dimension ∧ Newton.selected indices residual =
      offset + slope *ᵥ Newton.selected indices (unknowns.values point) := by
  have hbuffer : (List.replicate system.dimension (0 : ℝ)).length = system.dimension :=
    List.length_replicate
  refine ⟨_, ?_, (hmoves.fillsBuffer _ _ _ _).trans hbuffer, haffine.rows hspares hbuffer⟩
  rw [ResidualSystem.residualAt, ResidualSystem.evaluate, Exact.zero_eq]
  simp only [haffine.succeeds hspares hbuffer]

/-- The difference quotients for one of the coordinates are its column of the
slope. -/
theorem quotient (k : Fin indices.length) {d : ℝ} (hd : d ≠ 0) {residual column : List ℝ}
    (hresidual : system.residualAt point = .ok residual)
    (hcolumn : (Probe.mk system point.time point.state point.derivatives).Sees unknowns.perturbation
      (Probe.quotients residual) system.dimension ⟨indices[(k : Nat)], d⟩ column) :
    Newton.selected indices column = slope.col k := by
  rcases hcolumn with ⟨out, hout, -, rfl⟩
  rw [Probe.written_update]
  have hmoved := hspares.nudge (List.getElem_mem k.isLt) d
  let after := system.residual (unknowns.update [indices[(k : Nat)]] [d] point).time
    (unknowns.update [indices[(k : Nat)]] [d] point).state
    (unknowns.update [indices[(k : Nat)]] [d] point).derivatives out
  have hafter : Newton.selected indices after.out = offset +
      slope *ᵥ (Newton.selected indices (unknowns.values point) + Pi.single k d) := by
    rw [← Newton.selected_addTo_single hmoves.nodup (hmoves.lt_length hspares), ←
      Unknowns.values_update]
    exact haffine.rows hmoved hout
  have hheight : after.out.length = system.dimension := (hmoves.fillsBuffer _ _ _ _).trans hout
  rcases exists_residual hmoves haffine hspares with ⟨base, hbase, hlength, hrows⟩
  cases hbase.symm.trans hresidual
  funext l
  have hlt := hmoves.lt_dimension _ (List.getElem_mem l.isLt)
  have hdifference : after.out.getD indices[(l : Nat)] 0 - residual.getD indices[(l : Nat)] 0 =
      slope l k * d := by
    rw [← Newton.selected_apply, ← Newton.selected_apply, hafter, hrows, Matrix.mulVec_add,
      Matrix.mulVec_single]
    simp [Matrix.col_apply, mul_comm]
  rw [Newton.selected_apply]
  change (after.out.zipWith (fun f f0 => (f - f0) / d) residual).getD indices[(l : Nat)] 0 = _
  rw [Bdf.getD_zipWith (hheight ▸ hlt) (hlength ▸ hlt), hdifference]
  exact mul_div_cancel_right₀ _ hd

/-- The columns of a sweep are those of the slope, in the order of the
coordinates. -/
theorem columns_eq {residual : List ℝ} {columns : List (List ℝ)}
    (hlinearizes : Newton.Linearizes system unknowns indices point residual columns) :
    columns.map (Newton.selected indices) = List.ofFn slope.col := by
  rcases hlinearizes with ⟨hresidual, control, hcolumns⟩
  rcases exists_residual hmoves haffine hspares with ⟨base, hbase, hlength, -⟩
  cases hbase.symm.trans hresidual
  by_cases hindices : indices = []
  · subst hindices
    rw [Probe.columns] at hcolumns
    split at hcolumns <;> cases hcolumns <;> rfl
  have hsees := List.forall₂_iff_get.mp
    (Probe.columns_sees _ hmoves.fillsBuffer (hmoves.ne_nil hindices hlength) hcolumns)
  apply List.ext_getElem
  · rw [List.length_map, List.length_ofFn, ← hsees.1]
  · intro k hk hk'
    have hlt : k < indices.length := by rwa [List.length_ofFn] at hk'
    have hcolumn := hsees.2 k hlt (by rwa [List.length_map] at hk)
    rw [hlength, Exact.zero_eq, Exact.one_eq] at hcolumn
    have hincrement : ((unknowns.values point).map fun v => FiniteDifference.increment v 1).getD
        indices[k] 0 ≠ 0 := by
      have hmember := hmoves.lt_length hspares _ (List.getElem_mem hlt)
      rw [List.getD_eq_getElem _ _ (by rwa [List.length_map]), List.getElem_map]
      exact ne_of_gt (FiniteDifference.increment_pos _ one_pos)
    rw [List.getElem_map, List.getElem_ofFn]
    exact quotient hmoves haffine hspares ⟨k, hlt⟩ hincrement hresidual hcolumn

theorem matrix_eq {residual : List ℝ} {columns : List (List ℝ)}
    (hlinearizes : Newton.Linearizes system unknowns indices point residual columns) :
    (indices.map fun i => columns.map fun column => column.getD i 0) = tableOf slope := by
  have hcolumns := columns_eq hmoves haffine hspares hlinearizes
  apply List.ext_getElem
  · simp [tableOf]
  · intro a ha ha'
    have hlt : a < indices.length := by rwa [List.length_map] at ha
    have hrow := congrArg (List.map fun column => column ⟨a, hlt⟩) hcolumns
    rw [List.map_map, List.map_ofFn] at hrow
    have hentries : (tableOf slope)[a] = List.ofFn fun j => slope ⟨a, hlt⟩ j := by simp [tableOf]
    rw [List.getElem_map, hentries]
    refine Eq.trans (List.map_congr_left fun column _ => ?_) hrow
    exact (Newton.selected_apply indices column ⟨a, hlt⟩).symm

theorem correction_eq {residual : List ℝ} {columns : List (List ℝ)}
    (hlinearizes : Newton.Linearizes system unknowns indices point residual columns) :
    Newton.correction indices columns (Newton.select indices residual) =
      Linear.solve (tableOf slope)
        (List.ofFn (-(offset + slope *ᵥ Newton.selected indices (unknowns.values point)))) := by
  have hmatrix := matrix_eq hmoves haffine hspares hlinearizes
  rcases exists_residual hmoves haffine hspares with ⟨base, hbase, -, hrows⟩
  cases hbase.symm.trans hlinearizes.evaluates
  unfold Newton.correction
  rw [← hrows, ← Newton.ofFn_selected]
  simp only [Exact.zero_eq, Exact.neg_eq, hmatrix, List.map_ofFn]
  rfl

/-- An update makes the rows vanish. -/
theorem solved_of_correction {residual updates : List ℝ} {columns : List (List ℝ)}
    (hlinearizes : Newton.Linearizes system unknowns indices point residual columns)
    (hupdates : Newton.correction indices columns (Newton.select indices residual) =
      some updates) :
    offset + slope *ᵥ Newton.selected indices
      (unknowns.values (unknowns.update indices updates point)) = 0 := by
  rw [correction_eq hmoves haffine hspares hlinearizes] at hupdates
  have hsolves := (Linear.solve_mulVec hupdates).2
  rw [Unknowns.values_update, Newton.selected_addTo hmoves.nodup (hmoves.lt_length hspares),
    Matrix.mulVec_add, hsolves, ← add_assoc, add_neg_cancel]

omit hspares

theorem vanishes_of_iterates {tolerance : ℝ} {k : Nat} (hiterates : Newton.Iterates system tolerance
    unknowns indices start (k + 1) point) {residual : List ℝ}
    (hresidual : system.residualAt point = .ok residual) :
    ∀ value ∈ Newton.select indices residual, value = 0 := by
  rcases exists_residual hmoves haffine hiterates.spares with ⟨base, hbase, -, hrows⟩
  cases hbase.symm.trans hresidual
  cases hiterates with
  | update hbefore hlinearizes _ hupdates =>
      rw [solved_of_correction hmoves haffine hbefore.spares hlinearizes hupdates] at hrows
      rw [← Newton.ofFn_selected, hrows]
      exact List.forall_mem_ofFn_iff.mpr fun _ => rfl

theorem l2Norm_of_iterates {tolerance : ℝ} {k : Nat} (hiterates : Newton.Iterates system tolerance
    unknowns indices start (k + 1) point) {residual : List ℝ}
    (hresidual : system.residualAt point = .ok residual) :
    Linear.l2Norm (Newton.select indices residual) = 0 :=
  Linear.l2Norm_eq_zero (vanishes_of_iterates hmoves haffine hiterates hresidual)

/-- Rows are below the tolerance after an update, so there is no second one. -/
theorem le_one_of_iterates {tolerance : ℝ} (htolerance : 0 < tolerance) {k : Nat}
    (hiterates : Newton.Iterates system tolerance unknowns indices start k point) : k ≤ 1 := by
  cases hiterates with
  | start => exact Nat.zero_le 1
  | @update k _ _ _ _ hbefore hlinearizes hnorm _ =>
      cases k with
      | zero => exact Nat.le_refl 1
      | succ k =>
          rw [l2Norm_of_iterates hmoves haffine hbefore hlinearizes.evaluates] at hnorm
          exact absurd htolerance hnorm

include hspares

/-- Nothing but a cancellation can stop an iteration on affine rows. -/
theorem cancelled_of_stops (hindices : indices ≠ []) {residual : List ℝ} {cause : SolverError ℝ}
    (hresidual : system.residualAt point = .ok residual)
    (hstops : Newton.Stops system unknowns indices point residual cause) : cause = .cancelled := by
  cases hstops with
  | cancelled => rfl
  | columns hcolumns =>
      rcases exists_residual hmoves haffine hspares with ⟨base, hbase, hlength, -⟩
      cases hbase.symm.trans hresidual
      refine (SolverError.ofJacobian_eq_cancelled _).mpr (Probe.cancelled_of_columns _
        hmoves.fillsBuffer (hmoves.ne_nil hindices hlength) ?_ hcolumns)
      intro j hj buffer hbuffer
      rw [Probe.written_update]
      exact haffine.succeeds (hspares.nudge hj _) (hbuffer.trans hlength)

end ResidualSystem.AffineOn

/-! ## One update -/

/-- How an iteration on affine rows ends that may make an update. -/
inductive Newton.AtOnce (system : ResidualSystem ℝ) (tolerance : ℝ) (unknowns : Unknowns)
    (indices : List Nat) (slope : Matrix (Fin indices.length) (Fin indices.length) ℝ)
    (start : Point ℝ) : NewtonOutcome ℝ → Point ℝ → Prop where
  | near {residual : List ℝ} : system.residualAt start = .ok residual →
      Linear.l2Norm (select indices residual) < tolerance →
      AtOnce system tolerance unknowns indices slope start
        ⟨true, 0, Linear.l2Norm (select indices residual), false⟩ start
  | solved {residual after : List ℝ} {point : Point ℝ} : system.residualAt start = .ok residual →
      ¬ Linear.l2Norm (select indices residual) < tolerance →
      unknowns.Spares indices start point → system.residualAt point = .ok after →
      (∀ i ∈ indices, after.getD i 0 = 0) →
      AtOnce system tolerance unknowns indices slope start ⟨true, 1, 0, false⟩ point
  | singular {residual : List ℝ} : system.residualAt start = .ok residual →
      ¬ Linear.l2Norm (select indices residual) < tolerance →
      Linear.Refused slope → Linear.NearlySingular slope →
      AtOnce system tolerance unknowns indices slope start
        ⟨false, 0, Linear.l2Norm (select indices residual), true⟩ start

theorem Newton.AtOnce.converged {tolerance : ℝ} {outcome : NewtonOutcome ℝ}
    (hatOnce : Newton.AtOnce system tolerance unknowns indices slope start outcome point)
    (hslope : ¬ Linear.Refused slope) : outcome.converged = true := by
  cases hatOnce with
  | near => rfl
  | solved => rfl
  | singular _ _ hrefused _ => exact absurd hrefused hslope

theorem ResidualSystem.AffineOn.atOnce_of_ends
    (hmoves : Newton.Moves system unknowns indices start)
    (haffine : system.AffineOn unknowns indices start slope offset) (hindices : indices ≠ [])
    {tolerance : ℝ} (htolerance : 0 < tolerance) {allowed : Nat} (hallowed : 1 ≤ allowed)
    {run : NewtonRun ℝ}
    (hends : Newton.Ends system tolerance unknowns indices allowed start run) :
    run.result = .error .cancelled ∨ ∃ outcome, run.result = .ok outcome ∧
      Newton.AtOnce system tolerance unknowns indices slope start outcome run.point := by
  cases hends with
  | failed hiterates _ hfailed =>
      rcases haffine.exists_residual hmoves hiterates.spares with ⟨residual, hresidual, -⟩
      cases hresidual.symm.trans hfailed
  | stopped hiterates _ hresidual _ hstops =>
      cases haffine.cancelled_of_stops hmoves hiterates.spares hindices hresidual hstops
      exact .inl rfl
  | exhausted hiterates hresidual hnorm =>
      rcases Nat.exists_eq_add_of_le' hallowed with ⟨left, rfl⟩
      rw [haffine.l2Norm_of_iterates hmoves hiterates hresidual] at hnorm
      exact absurd htolerance hnorm
  | @converged k _ residual _ hiterates _ hresidual hnorm =>
      refine .inr ⟨_, rfl, ?_⟩
      cases hiterates with
      | start => exact .near hresidual hnorm
      | @update k _ _ _ _ hbefore hlinearizes hlarge hupdates =>
          have hiterates := hbefore.update hlinearizes hlarge hupdates
          have hvanishes := haffine.vanishes_of_iterates hmoves hiterates hresidual
          have hone := haffine.le_one_of_iterates hmoves htolerance hiterates
          obtain rfl : k = 0 := Nat.le_zero.mp (Nat.le_of_succ_le_succ hone)
          cases hbefore
          rw [haffine.l2Norm_of_iterates hmoves hiterates hresidual]
          exact .solved hlinearizes.evaluates hlarge hiterates.spares hresidual
            (Exact.zero_eq ▸ List.forall_mem_map.mp hvanishes)
  | @singular k _ _ _ _ hiterates _ hlinearizes hnorm hsingular =>
      cases k with
      | zero =>
          cases hiterates
          rw [haffine.correction_eq hmoves (.refl _ _ _) hlinearizes] at hsingular
          have hrefused := Linear.refused_of_solve hsingular
          exact .inr ⟨_, rfl, .singular hlinearizes.evaluates hnorm hrefused.1 hrefused.2⟩
      | succ k =>
          rw [haffine.l2Norm_of_iterates hmoves hiterates hlinearizes.evaluates] at hnorm
          exact absurd htolerance hnorm

/-- An iteration on affine rows ends at its start or after one update with all
the rows exactly zero, or it finds the slope singular at its start.  Only a
cancellation prevents this. -/
theorem Newton.solve_atOnce (hmoves : Newton.Moves system unknowns indices start)
    (haffine : system.AffineOn unknowns indices start slope offset) {settings : NewtonSettings ℝ}
    (htolerance : 0 < settings.tolerance) (hiterations : 1 ≤ settings.maxIterations)
    (control : Control) :
    let run := solve system settings unknowns indices start control
    (run.result = .error .cancelled ∧ ¬ control.Calm) ∨
      ∃ outcome, run.result = .ok outcome ∧
        AtOnce system settings.tolerance unknowns indices slope start outcome run.point := by
  intro run
  by_cases hindices : indices = []
  · subst hindices
    rcases haffine.exists_residual hmoves (.refl _ _ _) with ⟨residual, hresidual, -⟩
    have hnorm : (0 : ℝ) = Linear.l2Norm (select [] residual) :=
      (Linear.l2Norm_eq_zero (List.forall_mem_nil _)).symm
    refine .inr ⟨_, rfl, ?_⟩
    rw [Exact.zero_eq, hnorm]
    exact .near hresidual (hnorm ▸ htolerance)
  · have hpasses : control.Calm → run.reached.1 ≠ .error .cancelled :=
      (solve_interruptible system settings unknowns indices start).passes
    have hends := solve_ends hindices system settings unknowns start control
    refine (haffine.atOnce_of_ends hmoves hindices htolerance hiterations hends).imp_left
      fun hcancelled => ⟨hcancelled, fun hcalm => hpasses hcalm ?_⟩
    exact NewtonRun.reached_eq_error.mpr ⟨hcancelled, rfl⟩ |> congrArg Prod.fst

namespace Newton

/-- Two equations of three variables for the last and the first of them, which
have to be solved in this order; the middle one is held fixed. -/
def coupled : ResidualSystem ℝ :=
  .ofFunction 3 fun t y _ _ => [y.getD 0 0 + y.getD 2 0 + y.getD 2 0 - 1,
    y.getD 0 0 * y.getD 2 0 - t, y.getD 1 0 * y.getD 0 0 + y.getD 2 0]

variable {out : List ℝ}

theorem residual_coupled
    (hspares : Unknowns.state.Spares [2, 0] ⟨0, [0, 1, 0], [0, 0, 0]⟩ point)
    (hout : out.length = 3) : ∃ x z, point = ⟨0, [x, 1, z], [0, 0, 0]⟩ ∧
      coupled.residual point.time point.state point.derivatives out =
        ⟨[x + z + z - 1, x * z, x + z], none⟩ := by
  rcases point with ⟨t, state, derivatives⟩
  obtain ⟨rfl, rfl⟩ : t = 0 ∧ derivatives = [0, 0, 0] := Prod.mk.inj hspares.fixed
  rcases List.length_eq_three.mp hspares.length with ⟨x, y, z, hstate⟩
  change state = [x, y, z] at hstate
  subst hstate
  have hmiddle : [x, y, z][1]? = some 1 := hspares.entries 1 (by decide)
  obtain rfl : y = 1 := by simpa using hmiddle
  have hpoint : [x, 1, z].length = 3 := rfl
  have hslope : [(0 : ℝ), 0, 0].length = 3 := rfl
  refine ⟨x, z, rfl, ?_⟩
  rw [coupled, ResidualSystem.residual_ofFunction hpoint hslope hout]
  simp

theorem coupled_affineOn : coupled.AffineOn .state [2, 0] ⟨0, [0, 1, 0], [0, 0, 0]⟩
    (!![1, 1; 2, 1] : Matrix (Fin 2) (Fin 2) ℝ) (![0, -1] : Fin 2 → ℝ) := by
  constructor
  · intro point out hspares hout
    rcases residual_coupled hspares hout with ⟨x, z, -, hresidual⟩
    rw [hresidual]
  · intro point out hspares hout
    rcases residual_coupled hspares hout with ⟨x, z, hpoint, hresidual⟩
    rw [hresidual, hpoint]
    funext k
    fin_cases k
    · simp [selected_apply, Unknowns.values, dotProduct, Fin.sum_univ_two]
      ring
    · simp [selected_apply, Unknowns.values, dotProduct, Fin.sum_univ_two]
      ring

theorem solve_atOnce_coupled :
    let start : Point ℝ := ⟨0, [0, 1, 0], [0, 0, 0]⟩
    let run := solve coupled .standard .state [2, 0] start .fresh
    run.result = .ok ⟨true, 1, 0, false⟩ ∧ run.point = ⟨0, [-1, 1, 1], [0, 0, 0]⟩ := by
  intro start run
  have hmoves : Moves coupled .state [2, 0] start :=
    ⟨ResidualSystem.ofFunction_fillsBuffer fun _ _ _ => rfl, by decide, by decide,
      rfl⟩
  have htolerance : (0 : ℝ) < NewtonSettings.standard.tolerance ∧
      (NewtonSettings.standard.tolerance : ℝ) < 1 := by
    rw [NewtonSettings.standard, Exact.scientific_eq]
    norm_num
  have hbuffer : (List.replicate 3 (@OfNat.ofNat ℝ 0 (Scalar.instOfNat 0))).length = 3 := rfl
  have hresidual : ∀ {point residual}, Unknowns.state.Spares [2, 0] start point →
      coupled.residualAt point = .ok residual → ∃ x z, point = ⟨0, [x, 1, z], [0, 0, 0]⟩ ∧
        residual = [x + z + z - 1, x * z, x + z] := by
    intro point residual hspares hresidual
    rcases residual_coupled hspares hbuffer with ⟨x, z, hpoint, hwritten⟩
    refine ⟨x, z, hpoint, ?_⟩
    rw [ResidualSystem.residualAt, ResidualSystem.evaluate] at hresidual
    simp only [coupled, ResidualSystem.ofFunction] at hresidual hwritten
    simp only [hwritten] at hresidual
    exact (Except.ok.inj hresidual).symm
  have hends := solve_atOnce hmoves coupled_affineOn htolerance.1 (by decide) .fresh
  rcases hends with ⟨-, hdisturbed⟩ | ⟨outcome, hresult, hatOnce⟩
  · exact absurd ⟨rfl, rfl⟩ hdisturbed
  · change AtOnce _ _ _ _ _ _ outcome run.point at hatOnce
    generalize run.point = last at hatOnce ⊢
    cases hatOnce with
    | near hstart hnorm =>
        rcases hresidual (.refl _ _ _) hstart with ⟨x, z, hpoint, rfl⟩
        obtain ⟨rfl, rfl⟩ : 0 = x ∧ 0 = z := by simpa [start] using hpoint
        have hlarge : (1 : ℝ) ≤
            Linear.l2Norm (select [2, 0] [0 + 0 + 0 - 1, 0 * 0, 0 + 0]) := by
          simp only [Linear.l2Norm, Exact.sum_eq, Scalar.sqrt]
          apply Real.one_le_sqrt.mpr
          norm_num [select]
        exact absurd (hnorm.trans htolerance.2) (not_lt.mpr hlarge)
    | solved hstart hnorm hspares hafter hrows =>
        rcases hresidual hspares hafter with ⟨x, z, rfl, rfl⟩
        have hfirst : x + z + z - 1 = 0 := hrows 0 (by decide)
        have hlast : x + z = 0 := hrows 2 (by decide)
        obtain rfl : x = -1 := by linarith
        obtain rfl : z = 1 := by linarith
        exact ⟨hresult, rfl⟩
    | singular hstart hnorm hrefused hnearly =>
        have hlargest : Linear.largestEntry (tableOf (!![1, 1; 2, 1] : Matrix (Fin 2) (Fin 2) ℝ)) =
            2 := by
          simp [Linear.largestEntry, Linear.entriesByColumn, tableOf, Exact.zero_eq,
            Linear.largerOrLater_eq_max, List.range_succ]
        have hdet := Linear.abs_det_le_of_nearlySingular hnearly
        rw [hlargest, Matrix.det_fin_two] at hdet
        norm_num at hdet

end Newton

end

end ImplicitDynamics
