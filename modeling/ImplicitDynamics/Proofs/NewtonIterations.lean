import ImplicitDynamics.Integration.Newton
import ImplicitDynamics.Proofs.Exact

/-!
# What a Newton iteration reports of its last point

An iteration goes from point to point by updates and has five ways out: the rows
are below the tolerance, the updates are used up, the residual cannot be
evaluated, a control stops it, or the linearized rows are singular.  None of
them touches the point again after its rows were measured, so what is reported
is true of the point that is returned.

Each update moves entries of one vector at the given indices.  Whatever the
iteration returns, it has left everything else alone.
-/

namespace ImplicitDynamics

variable {α : Type}

/-- What an iteration does not move. -/
def Unknowns.fixed : Unknowns → Point α → α × List α
  | state, point => (point.time, point.derivatives)
  | derivatives, point => (point.time, point.state)

variable {unknowns : Unknowns} {indices : List Nat} {before after point : Point α}

namespace Unknowns

/-- Two points differ at most in entries, at the given indices, of the vector
that is moved. -/
structure Spares (unknowns : Unknowns) (indices : List Nat) (before after : Point α) : Prop where
  fixed : unknowns.fixed after = unknowns.fixed before
  length : (unknowns.values after).length = (unknowns.values before).length
  entries : ∀ i, i ∉ indices → (unknowns.values after)[i]? = (unknowns.values before)[i]?

theorem Spares.refl (unknowns : Unknowns) (indices : List Nat) (point : Point α) :
    unknowns.Spares indices point point :=
  ⟨rfl, rfl, fun _ _ => rfl⟩

theorem Spares.time (hspares : unknowns.Spares indices before after) :
    after.time = before.time := by
  cases unknowns <;> exact (Prod.mk.inj hspares.fixed).1

theorem Spares.lengths (hspares : unknowns.Spares indices before after) :
    after.state.length = before.state.length ∧
      after.derivatives.length = before.derivatives.length := by
  cases unknowns with
  | state => exact ⟨hspares.length, congrArg List.length (Prod.mk.inj hspares.fixed).2⟩
  | derivatives => exact ⟨congrArg List.length (Prod.mk.inj hspares.fixed).2, hspares.length⟩

variable [Scalar α]

theorem fixed_update (unknowns : Unknowns) (indices : List Nat) (updates : List α)
    (point : Point α) : unknowns.fixed (unknowns.update indices updates point) =
      unknowns.fixed point := by
  cases unknowns <;> rfl

theorem values_update (unknowns : Unknowns) (indices : List Nat) (updates : List α)
    (point : Point α) : unknowns.values (unknowns.update indices updates point) =
      addTo indices updates (unknowns.values point) := by
  cases unknowns <;> rfl

theorem addTo_cons (index : Nat) (indices : List Nat) (update : α) (updates values : List α) :
    addTo (index :: indices) (update :: updates) values =
      addTo indices updates (values.modify index fun value => Scalar.add value update) := rfl

theorem length_addTo (indices : List Nat) (updates values : List α) :
    (addTo indices updates values).length = values.length := by
  induction indices generalizing updates values with
  | nil => rfl
  | cons index indices ih =>
      cases updates with
      | nil => rfl
      | cons update updates => rw [addTo_cons, ih, List.length_modify]

theorem getElem?_addTo_of_not_mem {i : Nat} (hi : i ∉ indices) (updates values : List α) :
    (addTo indices updates values)[i]? = values[i]? := by
  induction indices generalizing updates values with
  | nil => rfl
  | cons index indices ih =>
      cases updates with
      | nil => rfl
      | cons update updates =>
          rw [List.mem_cons, not_or] at hi
          rw [addTo_cons, ih hi.2, List.getElem?_modify_ne _ _ (Ne.symm hi.1)]

theorem Spares.update (hspares : unknowns.Spares indices before point) (updates : List α) :
    unknowns.Spares indices before (unknowns.update indices updates point) where
  fixed := (fixed_update _ _ _ _).trans hspares.fixed
  length := by rw [values_update, length_addTo, hspares.length]
  entries i hi := by rw [values_update, getElem?_addTo_of_not_mem hi, hspares.entries i hi]

end Unknowns

variable [Scalar α]

def ResidualSystem.residualAt (system : ResidualSystem α) (point : Point α) :
    Except (EvalError α) (List α) :=
  system.evaluate point.time point.state point.derivatives

namespace Newton

variable {system : ResidualSystem α} {tolerance : α} {start : Point α} {k : Nat}

/-- The residual at a point, and the differences there for the coordinates that
are moved. -/
structure Linearizes (system : ResidualSystem α) (unknowns : Unknowns) (indices : List Nat)
    (point : Point α) (residual : List α) (columns : List (List α)) : Prop where
  evaluates : system.residualAt point = .ok residual
  differences : ∃ control, (Probe.columns ⟨system, point.time, point.state, point.derivatives⟩
    Supervisor.controlled residual indices unknowns.perturbation
    ((unknowns.values point).map fun v => FiniteDifference.increment v 1) control).1 = .ok columns

/-- The points that an iteration passes through, each with the number of updates
that led to it.  Only rows that are not below the tolerance are updated. -/
inductive Iterates (system : ResidualSystem α) (tolerance : α) (unknowns : Unknowns)
    (indices : List Nat) (start : Point α) : Nat → Point α → Prop where
  | start : Iterates system tolerance unknowns indices start 0 start
  | update {k : Nat} {point : Point α} {residual : List α} {columns : List (List α)}
      {updates : List α} : Iterates system tolerance unknowns indices start k point →
      Linearizes system unknowns indices point residual columns →
      ¬ Linear.l2Norm (select indices residual) < tolerance →
      correction indices columns (select indices residual) = some updates →
      Iterates system tolerance unknowns indices start (k + 1)
        (unknowns.update indices updates point)

theorem Iterates.spares (hiterates : Iterates system tolerance unknowns indices start k point) :
    unknowns.Spares indices start point := by
  induction hiterates with
  | start => exact .refl unknowns indices start
  | update _ _ _ _ ih => exact ih.update _

/-! ## The ways out -/

/-- What stops an iteration before its next update. -/
inductive Stops (system : ResidualSystem α) (unknowns : Unknowns) (indices : List Nat)
    (point : Point α) (residual : List α) : SolverError α → Prop where
  | cancelled : Stops system unknowns indices point residual .cancelled
  | columns {control : Control} {cause : JacobianError α} :
      (Probe.columns ⟨system, point.time, point.state, point.derivatives⟩
        Supervisor.controlled residual indices unknowns.perturbation
        ((unknowns.values point).map fun v => FiniteDifference.increment v 1) control).1 =
          .error cause →
      Stops system unknowns indices point residual (.ofJacobian cause)

/-- How an iteration from `start` ends that may make `allowed` updates. -/
inductive Ends (system : ResidualSystem α) (tolerance : α) (unknowns : Unknowns)
    (indices : List Nat) (allowed : Nat) (start : Point α) : NewtonRun α → Prop where
  | failed {k : Nat} {point : Point α} {cause : EvalError α} {control : Control} :
      Iterates system tolerance unknowns indices start k point → k ≤ allowed →
      system.residualAt point = .error cause →
      Ends system tolerance unknowns indices allowed start
        ⟨.error (.evaluation cause), point, control⟩
  | converged {k : Nat} {point : Point α} {residual : List α} {control : Control} :
      Iterates system tolerance unknowns indices start k point → k ≤ allowed →
      system.residualAt point = .ok residual → Linear.l2Norm (select indices residual) < tolerance →
      Ends system tolerance unknowns indices allowed start
        ⟨.ok ⟨true, k, Linear.l2Norm (select indices residual), false⟩, point, control⟩
  | exhausted {point : Point α} {residual : List α} {control : Control} :
      Iterates system tolerance unknowns indices start allowed point →
      system.residualAt point = .ok residual →
      ¬ Linear.l2Norm (select indices residual) < tolerance →
      Ends system tolerance unknowns indices allowed start
        ⟨.ok ⟨false, allowed, Linear.l2Norm (select indices residual), false⟩, point, control⟩
  | stopped {k : Nat} {point : Point α} {residual : List α} {cause : SolverError α}
      {control : Control} :
      Iterates system tolerance unknowns indices start k point → k < allowed →
      system.residualAt point = .ok residual →
      ¬ Linear.l2Norm (select indices residual) < tolerance →
      Stops system unknowns indices point residual cause →
      Ends system tolerance unknowns indices allowed start ⟨.error cause, point, control⟩
  | singular {k : Nat} {point : Point α} {residual : List α} {columns : List (List α)}
      {control : Control} :
      Iterates system tolerance unknowns indices start k point → k < allowed →
      Linearizes system unknowns indices point residual columns →
      ¬ Linear.l2Norm (select indices residual) < tolerance →
      correction indices columns (select indices residual) = none →
      Ends system tolerance unknowns indices allowed start
        ⟨.ok ⟨false, k, Linear.l2Norm (select indices residual), true⟩, point, control⟩

theorem iterate_ends {left iterations allowed : Nat}
    (hiterates : Iterates system tolerance unknowns indices start iterations point)
    (hallowed : iterations + left = allowed) (control : Control) :
    Ends system tolerance unknowns indices allowed start
      (iterate system tolerance unknowns indices left iterations point control) := by
  induction left generalizing iterations point control with
  | zero =>
      subst hallowed
      rw [iterate]
      split
      · next cause hresidual => exact .failed hiterates (Nat.le_refl _) hresidual
      · next residual hresidual =>
        simp only
        split
        · next hnorm => exact .converged hiterates (Nat.le_refl _) hresidual hnorm
        · next hnorm => exact .exhausted hiterates hresidual hnorm
  | succ left ih =>
      have hlt : iterations < allowed := by omega
      have hle := Nat.le_of_lt hlt
      rw [iterate]
      split
      · next cause hresidual => exact .failed hiterates hle hresidual
      · next residual hresidual =>
        simp only
        split
        · next hnorm => exact .converged hiterates hle hresidual hnorm
        · next hnorm =>
          split
          · exact .stopped hiterates hlt hresidual hnorm .cancelled
          · split
            · next cause _ hcolumns =>
              exact .stopped hiterates hlt hresidual hnorm (.columns (congrArg Prod.fst hcolumns))
            · next columns _ hcolumns =>
              have hlinearizes : Linearizes system unknowns indices point residual columns :=
                ⟨hresidual, _, congrArg Prod.fst hcolumns⟩
              split
              · next hsingular => exact .singular hiterates hlt hlinearizes hnorm hsingular
              · next updates hupdates =>
                exact ih (hiterates.update hlinearizes hnorm hupdates) (by omega) _

theorem solve_of_nonempty (hindices : indices ≠ []) (system : ResidualSystem α)
    (settings : NewtonSettings α) (unknowns : Unknowns) (point : Point α) (control : Control) :
    solve system settings unknowns indices point control =
      iterate system settings.tolerance unknowns indices settings.maxIterations 0 point control :=
  if_neg (by rwa [List.isEmpty_iff])

theorem solve_ends (hindices : indices ≠ []) (system : ResidualSystem α)
    (settings : NewtonSettings α) (unknowns : Unknowns) (point : Point α) (control : Control) :
    Ends system settings.tolerance unknowns indices settings.maxIterations point
      (solve system settings unknowns indices point control) := by
  rw [solve_of_nonempty hindices]
  exact iterate_ends .start (Nat.zero_add _) control

theorem Ends.spares {allowed : Nat} {run : NewtonRun α}
    (hends : Ends system tolerance unknowns indices allowed start run) :
    unknowns.Spares indices start run.point := by
  cases hends with
  | failed hiterates | converged hiterates | exhausted hiterates | stopped hiterates
  | singular hiterates => exact hiterates.spares

theorem solve_spares (system : ResidualSystem α) (settings : NewtonSettings α)
    (unknowns : Unknowns) (indices : List Nat) (point : Point α) (control : Control) :
    unknowns.Spares indices point
      (solve system settings unknowns indices point control).point := by
  by_cases hindices : indices = []
  · rw [solve, if_pos (by rwa [List.isEmpty_iff])]
    exact .refl unknowns indices point
  · exact (solve_ends hindices _ _ _ _ _).spares

/-! ## What is reported -/

/-- What an outcome says of the last point of an iteration from `start`. -/
structure OutcomeAt (system : ResidualSystem α) (settings : NewtonSettings α) (unknowns : Unknowns)
    (indices : List Nat) (start last : Point α) (outcome : NewtonOutcome α) : Prop where
  norm : ∃ residual, system.residualAt last = .ok residual ∧
    outcome.residualNorm = Linear.l2Norm (select indices residual)
  converged_iff : outcome.converged = true ↔ outcome.residualNorm < settings.tolerance
  iterates : Iterates system settings.tolerance unknowns indices start outcome.iterations last
  iterations_le : outcome.iterations ≤ settings.maxIterations
  exhausted : outcome.converged = false → outcome.singular = false →
    outcome.iterations = settings.maxIterations
  singular : outcome.singular = true → outcome.converged = false ∧
    ∃ residual columns, Linearizes system unknowns indices last residual columns ∧
      correction indices columns (select indices residual) = none

theorem Ends.outcomeAt {settings : NewtonSettings α} {run : NewtonRun α}
    (hends : Ends system settings.tolerance unknowns indices settings.maxIterations start run)
    {outcome : NewtonOutcome α} (hresult : run.result = .ok outcome) :
    OutcomeAt system settings unknowns indices start run.point outcome := by
  cases hends with
  | failed => cases hresult
  | stopped => cases hresult
  | converged hiterates hle hresidual hnorm =>
      cases hresult
      exact ⟨⟨_, hresidual, rfl⟩, iff_of_true rfl hnorm, hiterates, hle, nofun, nofun⟩
  | exhausted hiterates hresidual hnorm =>
      cases hresult
      exact ⟨⟨_, hresidual, rfl⟩, iff_of_false nofun hnorm, hiterates, Nat.le_refl _,
        fun _ _ => rfl, nofun⟩
  | singular hiterates hlt hlinearizes hnorm hsingular =>
      cases hresult
      exact ⟨⟨_, hlinearizes.evaluates, rfl⟩, iff_of_false nofun hnorm, hiterates,
        Nat.le_of_lt hlt, nofun, fun _ => ⟨rfl, _, _, hlinearizes, hsingular⟩⟩

/-- Whatever an iteration returns, nothing but the entries at the given indices
has moved.  It ends in one of five ways, and an outcome describes the point that
is returned. -/
theorem solve_describes_point (system : ResidualSystem α) (settings : NewtonSettings α)
    (unknowns : Unknowns) (indices : List Nat) (point : Point α) (control : Control) :
    let run := solve system settings unknowns indices point control
    unknowns.Spares indices point run.point ∧
      (indices ≠ [] → Ends system settings.tolerance unknowns indices settings.maxIterations
        point run) ∧
      ∀ outcome, run.result = .ok outcome → indices ≠ [] →
        OutcomeAt system settings unknowns indices point run.point outcome :=
  ⟨solve_spares system settings unknowns indices point control,
    fun hindices => solve_ends hindices system settings unknowns point control,
    fun _ hresult hindices => (solve_ends hindices _ _ _ _ _).outcomeAt hresult⟩

/-- A constant row cannot be solved, which the first attempt to do so finds
out. -/
theorem solve_describes_point_flat :
    let system : ResidualSystem ℝ := .ofFunction 1 fun _ _ _ _ => [1]
    let start : Point ℝ := ⟨0, [2], [3]⟩
    let run := solve system .standard .state [0] start .fresh
    run.result = .ok ⟨false, 0, 1, true⟩ ∧ run.point = start ∧
      OutcomeAt system .standard .state [0] start start ⟨false, 0, 1, true⟩ := by
  intro system start run
  have hresidual : system.evaluate 0 [2] [3] = .ok [1] := rfl
  have hnorm : Linear.l2Norm (select [0] [1]) = (1 : ℝ) := by
    simp [Linear.l2Norm, select, Exact.sum_eq, Scalar.sqrt]
  have htolerance : ¬ (1 : ℝ) < (NewtonSettings.standard : NewtonSettings ℝ).tolerance := by
    rw [NewtonSettings.standard, Exact.scientific_eq]
    norm_num
  have hcolumns : (Probe.mk system 0 [2] [3]).columns Supervisor.controlled [1] [0] .state
      ([2].map fun v => FiniteDifference.increment v 1) .fresh = (.ok [[0]], .fresh) := by
    simp [Probe.columns, Probe.quotients, Probe.sweep, Supervisor.controlled, Control.look,
      Control.fresh, Probe.scratch, Scratch.evaluate, Scratch.move, Scratch.restore, system,
      ResidualSystem.ofFunction, ResidualSystem.mismatch?]
  have hsingular : correction [0] [[0]] (select [0] [1]) = (none : Option (List ℝ)) := by
    simp [correction, Linear.solve, Linear.solveMatrix, Linear.largestEntry,
      Linear.entriesByColumn, Exact.zero_eq]
  have hrun : run = ⟨.ok ⟨false, 0, 1, true⟩, start, .fresh⟩ := by
    have hlook : Control.fresh.look = (true, .fresh) := rfl
    change iterate system _ .state [0] (9 + 1) 0 start .fresh = _
    rw [iterate]
    simp only [start, hresidual, hnorm, if_neg htolerance, hlook, Unknowns.values,
      Unknowns.perturbation, Exact.literal_eq, Nat.cast_one, hcolumns, hsingular]
  have hdescribes := (solve_describes_point system .standard .state [0] start .fresh).2.2
    ⟨false, 0, 1, true⟩ (congrArg NewtonRun.result hrun) (List.cons_ne_nil _ _)
  rw [show (solve system .standard .state [0] start .fresh).point = start from
    congrArg NewtonRun.point hrun] at hdescribes
  exact ⟨congrArg NewtonRun.result hrun, congrArg NewtonRun.point hrun, hdescribes⟩

end Newton

end ImplicitDynamics
