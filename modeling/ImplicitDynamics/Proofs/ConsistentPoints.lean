import ImplicitDynamics.Proofs.Classification
import ImplicitDynamics.Proofs.Interruption
import ImplicitDynamics.Proofs.RateEquations
import Mathlib

/-!
# Points that are made consistent

A Newton iteration that reports convergence leaves its rows below the tolerance.
A point is made consistent by two of them: first the algebraic states are moved,
then the derivatives.  After the second one the differential rows are below the
tolerance.  The algebraic rows were, with the derivatives of before, and still
are if no constraint looks at a derivative; the equation language does not
exclude constraints that do.
-/

namespace ImplicitDynamics

section Convergence

variable {α : Type}

/-- Where an iteration reports convergence its point has a property. -/
def NewtonRun.Reports (run : NewtonRun α) (P : Point α → Prop) : Prop :=
  ∀ outcome, run.result = .ok outcome → outcome.converged = true → P run.point

def NewtonRun.Converged (run : NewtonRun α) : Prop :=
  ∃ outcome, run.result = .ok outcome ∧ outcome.converged = true

theorem NewtonRun.Converged.reports {run : NewtonRun α} {P : Point α → Prop}
    (hconverged : run.Converged) (hreports : run.Reports P) : P run.point := by
  rcases hconverged with ⟨outcome, hresult, hflag⟩
  exact hreports outcome hresult hflag

variable [Scalar α]

/-- The residual exists at a point and its rows `indices` are below a
tolerance. -/
def ResidualSystem.RowsBelow (system : ResidualSystem α) (tolerance : α) (indices : List Nat)
    (point : Point α) : Prop :=
  ∃ residual, system.residualAt point = .ok residual ∧
    Linear.l2Norm (Newton.select indices residual) < tolerance

namespace Newton

variable {system : ResidualSystem α} {indices : List Nat} {point : Point α}

theorem solve_reports (hindices : indices ≠ []) (system : ResidualSystem α)
    (settings : NewtonSettings α) (unknowns : Unknowns) (point : Point α) (control : Control) :
    (solve system settings unknowns indices point control).Reports
      (system.RowsBelow settings.tolerance indices) := by
  intro outcome hresult hconverged
  have houtcome := (solve_ends hindices _ _ _ _ _).outcomeAt hresult
  obtain ⟨residual, hresidual, hnorm⟩ := houtcome.norm
  exact ⟨residual, hresidual, hnorm ▸ houtcome.converged_iff.mp hconverged⟩

/-- Rows that are below the tolerance are left alone. -/
theorem solve_of_below {settings : NewtonSettings α}
    (hbelow : system.RowsBelow settings.tolerance indices point) (unknowns : Unknowns)
    (control : Control) :
    ∃ norm, solve system settings unknowns indices point control =
      ⟨.ok ⟨true, 0, norm, false⟩, point, control⟩ := by
  rcases hbelow with ⟨residual, hresidual, hnorm⟩
  unfold solve
  split
  · exact ⟨_, rfl⟩
  · refine ⟨Linear.l2Norm (select indices residual), ?_⟩
    unfold ResidualSystem.residualAt at hresidual
    rw [iterate.eq_def]
    simp only [hresidual]
    rw [if_pos hnorm]

end Newton

namespace Core

variable {core : Core α} {point : Point α} {control : Control}

/-- Both iterations that make a point consistent report convergence. -/
structure Converges (core : Core α) (point : Point α) (control : Control) : Prop where
  algebraic : (core.resolveAlgebraic point control).Converged
  differential : (core.resolveDerivatives (core.resolveAlgebraic point control).point
    (core.resolveAlgebraic point control).control).Converged

/-- The algebraic rows and the differential rows of the residual are below the
tolerance of the Newton iteration. -/
structure Consistent (core : Core α) (point : Point α) : Prop where
  algebraic : core.algebraicIndices ≠ [] → ∀ residual, core.system.residualAt point = .ok residual →
    Linear.l2Norm (Newton.select core.algebraicIndices residual) < core.newton.tolerance
  differential : core.differentialIndices ≠ [] →
    core.system.RowsBelow core.newton.tolerance core.differentialIndices point

/-- No derivative has a part in an algebraic row. -/
def ConstraintsIgnoreDerivatives (core : Core α) : Prop :=
  ∀ {t y yp residual}, core.system.evaluate t y yp = .ok residual →
    ∀ {other after}, core.system.evaluate t y other = .ok after →
      Newton.select core.algebraicIndices after = Newton.select core.algebraicIndices residual

/-- What two converged iterations achieve: the algebraic rows are below the
tolerance with the derivatives of before. -/
structure Resolved (core : Core α) (before after : Point α) : Prop where
  time : after.time = before.time
  differential : core.differentialIndices ≠ [] →
    core.system.RowsBelow core.newton.tolerance core.differentialIndices after
  algebraic : core.algebraicIndices ≠ [] →
    core.system.RowsBelow core.newton.tolerance core.algebraicIndices
      { after with derivatives := before.derivatives }
  consistent : core.ConstraintsIgnoreDerivatives → core.Consistent after

theorem resolve_eq (hconverges : core.Converges point control) :
    core.resolve point control =
      ⟨.ok (), (core.resolveDerivatives (core.resolveAlgebraic point control).point
        (core.resolveAlgebraic point control).control).point,
        (core.resolveDerivatives (core.resolveAlgebraic point control).point
          (core.resolveAlgebraic point control).control).control⟩ := by
  rcases hconverges with ⟨⟨_, hfirst, -⟩, ⟨_, hsecond, -⟩⟩
  unfold resolve
  simp only [hfirst, hsecond]

theorem resolveAlgebraic_fixed (core : Core α) (point : Point α) (control : Control) :
    ((core.resolveAlgebraic point control).point.time,
        (core.resolveAlgebraic point control).point.derivatives) =
      (point.time, point.derivatives) :=
  (Newton.solve_spares core.system core.newton .state _ point control).fixed

theorem resolveDerivatives_fixed (core : Core α) (point : Point α) (control : Control) :
    ((core.resolveDerivatives point control).point.time,
        (core.resolveDerivatives point control).point.state) = (point.time, point.state) :=
  (Newton.solve_spares core.system core.newton .derivatives _ _ control).fixed

theorem resolved_of_below {before middle after : Point α}
    (hfirst : (middle.time, middle.derivatives) = (before.time, before.derivatives))
    (hsecond : (after.time, after.state) = (middle.time, middle.state))
    (halgebraic : core.algebraicIndices ≠ [] →
      core.system.RowsBelow core.newton.tolerance core.algebraicIndices middle)
    (hdifferential : core.differentialIndices ≠ [] →
      core.system.RowsBelow core.newton.tolerance core.differentialIndices after) :
    core.Resolved before after := by
  rcases middle with ⟨time, state, derivatives⟩
  rcases after with ⟨time', state', moved⟩
  cases hfirst
  cases hsecond
  refine ⟨rfl, hdifferential, halgebraic, ?_⟩
  intro hignores
  refine ⟨?_, hdifferential⟩
  intro hindices residual hresidual
  rcases halgebraic hindices with ⟨old, hold, hnorm⟩
  rw [hignores hold hresidual]
  exact hnorm

theorem resolve_resolved (hconverges : core.Converges point control) :
    core.Resolved point (core.resolve point control).point := by
  rw [resolve_eq hconverges]
  apply resolved_of_below (core.resolveAlgebraic_fixed point control)
    (core.resolveDerivatives_fixed _ _)
  · intro hindices
    exact hconverges.algebraic.reports (Newton.solve_reports hindices _ _ _ _ _)
  · intro hindices
    exact hconverges.differential.reports (Newton.solve_reports hindices _ _ _ _ _)

end Core

/-! ## Explicit steps -/

namespace FixedStep

variable {core : Core α} {size : Nat} {h : α} {point : Point α} {control : Control}

/-- The slopes of the three stages that follow the first one. -/
def slopes (core : Core α) (size : Nat) (h : α) (point : Point α) (control : Control) :
    Except (SolverError α) (List α × List α × List α) × Control :=
  let half := 0.5 * h
  match stage core size (point.time + half) half point.state point.derivatives control with
  | (.error cause, control) => (.error cause, control)
  | (.ok k2, control) =>
    match stage core size (point.time + half) half point.state k2 control with
    | (.error cause, control) => (.error cause, control)
    | (.ok k3, control) =>
      match stage core size (point.time + h) h point.state k3 control with
      | (.error cause, control) => (.error cause, control)
      | (.ok k4, control) => (.ok (k2, k3, k4), control)

theorem rungeKutta4_eq (core : Core α) (size : Nat) (h : α) (point : Point α)
    (control : Control) :
    rungeKutta4 core size h point control =
      match slopes core size h point control with
      | (.error cause, after) => ⟨.error cause, point, after⟩
      | (.ok (k2, k3, k4), after) =>
        core.resolve ⟨point.time + h,
          weighted core.algebraic h point.state point.derivatives k2 k3 k4,
          point.derivatives⟩ after := by
  rcases hk2 : stage core size (point.time + 0.5 * h) (0.5 * h) point.state point.derivatives
    control with ⟨_ | k2, second⟩
  · simp only [rungeKutta4, slopes, hk2]
  rcases hk3 : stage core size (point.time + 0.5 * h) (0.5 * h) point.state k2 second
    with ⟨_ | k3, third⟩
  · simp only [rungeKutta4, slopes, hk2, hk3]
  rcases hk4 : stage core size (point.time + h) h point.state k3 third with ⟨_ | k4, fourth⟩
  · simp only [rungeKutta4, slopes, hk2, hk3, hk4]
  · simp only [rungeKutta4, slopes, hk2, hk3, hk4]

/-- The point that an explicit step makes consistent at its end, and the control
by then. -/
inductive Aims (integrator : FixedStepIntegrator α) (h : α) (point : Point α) (control : Control) :
    Point α → Control → Prop where
  | explicitEuler : integrator.method = .explicitEuler →
      Aims integrator h point control
        ⟨point.time + h, advance integrator.core.algebraic h point.state point.derivatives,
          point.derivatives⟩ control
  | rungeKutta4 {k2 k3 k4 : List α} {after : Control} : integrator.method = .rungeKutta4 →
      slopes integrator.core integrator.workspace h point control = (.ok (k2, k3, k4), after) →
      Aims integrator h point control
        ⟨point.time + h,
          weighted integrator.core.algebraic h point.state point.derivatives k2 k3 k4,
          point.derivatives⟩ after

variable {integrator : FixedStepIntegrator α} {aim : Point α} {after : Control}

theorem Aims.step_eq (haims : Aims integrator h point control aim after) :
    step integrator h point control = integrator.core.resolve aim after := by
  unfold step
  cases haims with
  | explicitEuler hmethod => simp only [hmethod, FixedStep.explicitEuler]
  | rungeKutta4 hmethod hslopes => simp only [hmethod, rungeKutta4_eq, hslopes]

/-- An explicit step that does not fail at a stage has an aim. -/
theorem step_cases (hmethod : integrator.method ≠ .implicitEuler) (h : α) (point : Point α)
    (control : Control) :
    (∃ aim after, Aims integrator h point control aim after) ∨
      integrator.method = .rungeKutta4 ∧ ∃ cause after,
        slopes integrator.core integrator.workspace h point control = (.error cause, after) ∧
          step integrator h point control = ⟨.error cause, point, after⟩ := by
  cases hkind : integrator.method with
  | explicitEuler => exact .inl ⟨_, _, .explicitEuler hkind⟩
  | implicitEuler => exact absurd hkind hmethod
  | rungeKutta4 =>
      rcases hslopes : slopes integrator.core integrator.workspace h point control with
        ⟨cause | ⟨k2, k3, k4⟩, after⟩
      · refine .inr ⟨rfl, cause, after, rfl, ?_⟩
        unfold step
        simp only [hkind, rungeKutta4_eq, hslopes]
      · exact .inl ⟨_, _, .rungeKutta4 hkind hslopes⟩

end FixedStep

end Convergence

noncomputable section

namespace Core

theorem converges_of_rates {core : Core ℝ} {point : Point ℝ} {target : Nat → ℝ}
    (hbelow : core.system.RowsBelow core.newton.tolerance core.algebraicIndices point)
    (hrates : core.system.Rates point.time point.state core.differentialIndices target)
    (hlength : point.derivatives.length = core.system.dimension)
    (htolerance : 0 < core.newton.tolerance) (hiterations : 1 ≤ core.newton.maxIterations)
    {control : Control} (hcalm : control.Calm) : core.Converges point control := by
  rcases Newton.solve_of_below hbelow .state control with ⟨norm, hsolved⟩
  have hfirst : core.resolveAlgebraic point control =
      ⟨.ok ⟨true, 0, norm, false⟩, point, control⟩ := hsolved
  have hzeroed : (zeroWhere core.algebraic point.derivatives).length = core.system.dimension :=
    (length_zeroWhere _ _).trans hlength
  have hundisturbed := (Newton.solve_interruptible core.system core.newton .derivatives
    core.differentialIndices
    { point with derivatives := zeroWhere core.algebraic point.derivatives }).passes hcalm
  constructor
  · rw [hfirst]
    exact ⟨_, rfl, rfl⟩
  · rw [hfirst]
    rcases hrates.solve_converges htolerance hiterations hzeroed control with
      hcancelled | hconverged
    · have hreached := NewtonRun.reached_eq_error.mpr ⟨hcancelled, rfl⟩
      exact absurd (congrArg Prod.fst hreached) hundisturbed
    · exact hconverged

end Core

/-- The residual at a time and a state of two variables: the first row asks for
the time as slope of the first variable, and the second one is a constraint. -/
structure ResidualSystem.Timed (system : ResidualSystem ℝ) (t : ℝ) (y : List ℝ)
    (constraint : List ℝ → ℝ) : Prop where
  fillsBuffer : system.FillsBuffer
  dimension : system.dimension = 2
  residual : ∀ {yp out}, yp.length = 2 → out.length = 2 →
    system.residual t y yp out = ⟨[yp.getD 0 0 - t, constraint yp], none⟩

variable {system : ResidualSystem ℝ} {t : ℝ} {y yp : List ℝ} {constraint : List ℝ → ℝ}

theorem ResidualSystem.Timed.rates (htimed : system.Timed t y constraint) :
    system.Rates t y [0] fun _ => t where
  fillsBuffer := htimed.fillsBuffer
  nodup := List.nodup_singleton 0
  lt_dimension i hi := by
    rw [List.mem_singleton.mp hi, htimed.dimension]
    exact Nat.zero_lt_two
  succeeds hyp hout := by
    rw [htimed.dimension] at hyp hout
    rw [htimed.residual hyp hout]
  row hyp hout i hi := by
    rw [htimed.dimension] at hyp hout
    rw [htimed.residual hyp hout, List.mem_singleton.mp hi]
    rfl

theorem ResidualSystem.Timed.evaluate (htimed : system.Timed t y constraint)
    (hyp : yp.length = 2) : system.evaluate t y yp = .ok [yp.getD 0 0 - t, constraint yp] := by
  unfold ResidualSystem.evaluate
  simp only
  rw [htimed.dimension, htimed.residual hyp List.length_replicate]

/-- An integrator of explicit steps for two variables, the second of which is
algebraic. -/
def pairIntegrator (system : ResidualSystem ℝ) : FixedStepIntegrator ℝ where
  core :=
    { Core.create system ⟨1, 1, 1 + 1, [0, 0]⟩ with
      algebraic := [false, true]
      initialized := true }
  method := .explicitEuler
  workspace := 2

theorem pairIntegrator_tolerance (system : ResidualSystem ℝ) :
    (pairIntegrator system).core.newton.tolerance = 1 / 10 ^ 6 := by
  change (NewtonSettings.standard : NewtonSettings ℝ).tolerance = 1 / 10 ^ 6
  rw [NewtonSettings.standard, Exact.scientific_eq]
  norm_num

theorem pairIntegrator_converges (htimed : system.Timed t y constraint)
    (hconstraint : constraint [0, 0] = 0) :
    (pairIntegrator system).core.Converges ⟨t, y, [0, 0]⟩ .fresh := by
  have htolerance : 0 < (pairIntegrator system).core.newton.tolerance := by
    rw [pairIntegrator_tolerance]
    norm_num
  have hiterations : 1 ≤ (pairIntegrator system).core.newton.maxIterations := by
    change 1 ≤ 10
    omega
  have hcalm : Control.fresh.Calm := ⟨rfl, rfl⟩
  have hbelow : system.RowsBelow (pairIntegrator system).core.newton.tolerance [1]
      ⟨t, y, [0, 0]⟩ := by
    refine ⟨_, htimed.evaluate rfl, ?_⟩
    change Linear.l2Norm [constraint [0, 0]] < _
    rw [hconstraint, Linear.l2Norm_single, abs_zero]
    exact htolerance
  have hlength : ([0, 0] : List ℝ).length = system.dimension := htimed.dimension.symm
  exact Core.converges_of_rates hbelow htimed.rates hlength htolerance hiterations hcalm

/-- A step of length one from the start of a time that is zero, where nothing
moves yet. -/
theorem pairIntegrator_aims (system : ResidualSystem ℝ) (z : ℝ) :
    FixedStep.Aims (pairIntegrator system) 1 ⟨0, [0, z], [0, 0]⟩ .fresh ⟨1, [0, z], [0, 0]⟩
      .fresh := by
  have haims : FixedStep.Aims (pairIntegrator system) 1 ⟨0, [0, z], [0, 0]⟩ .fresh
      ⟨0 + 1, [0 + 1 * 0, z], [0, 0]⟩ .fresh := .explicitEuler rfl
  rwa [mul_zero, zero_add, zero_add] at haims

/-- The second variable is held at one. -/
def heldSystem : ResidualSystem ℝ :=
  .ofFunction 2 fun t y yp _ => [yp.getD 0 0 - t, y.getD 1 0 - 1]

theorem heldSystem_timed (t x z : ℝ) : heldSystem.Timed t [x, z] fun _ => z - 1 where
  fillsBuffer := ResidualSystem.ofFunction_fillsBuffer fun _ _ _ => rfl
  dimension := rfl
  residual hyp hout := ResidualSystem.residual_ofFunction rfl hyp hout

theorem heldSystem_ignores :
    (pairIntegrator heldSystem).core.ConstraintsIgnoreDerivatives := by
  have hrow : ∀ {t y yp residual}, heldSystem.evaluate t y yp = .ok residual →
      Newton.select [1] residual = [y.getD 1 0 - 1] := by
    intro t y yp residual hresidual
    rcases ResidualSystem.exists_of_evaluate_ofFunction hresidual with ⟨_, heq⟩
    rw [heq]
    rfl
  intro t y yp residual hresidual other after hafter
  exact (hrow hafter).trans (hrow hresidual).symm

/-! ## Consistency -/

/-- Where both iterations converge, the start of a run and the end of an explicit
step are points at which the differential rows are below the tolerance, and the
algebraic rows are with the derivatives of before. -/
theorem FixedStep.resolved_of_converges {α : Type} [Scalar α] (integrator : FixedStepIntegrator α) :
    (∀ {state derivatives control},
      integrator.core.Converges ⟨integrator.core.config.start, state, derivatives⟩ control →
        integrator.core.Resolved ⟨integrator.core.config.start, state, derivatives⟩
          (integrator.core.consistentStart state derivatives control).point) ∧
      ∀ {h point control aim after}, FixedStep.Aims integrator h point control aim after →
        integrator.core.Converges aim after →
          integrator.core.Resolved aim (FixedStep.step integrator h point control).point := by
  constructor
  · intro state derivatives control hconverges
    exact Core.resolve_resolved hconverges
  · intro h point control aim after haims hconverges
    rw [haims.step_eq]
    exact Core.resolve_resolved hconverges

theorem FixedStep.resolved_of_converges_held :
    let integrator := pairIntegrator heldSystem
    integrator.core.Converges ⟨1, [0, 1], [0, 0]⟩ .fresh ∧
      FixedStep.Aims integrator 1 ⟨0, [0, 1], [0, 0]⟩ .fresh ⟨1, [0, 1], [0, 0]⟩ .fresh ∧
      integrator.core.Consistent (integrator.core.consistentStart [0, 1] [0, 0] .fresh).point ∧
      integrator.core.Consistent
        (FixedStep.step integrator 1 ⟨0, [0, 1], [0, 0]⟩ .fresh).point := by
  intro integrator
  have hconverges : integrator.core.Converges ⟨1, [0, 1], [0, 0]⟩ .fresh :=
    pairIntegrator_converges (heldSystem_timed 1 0 1) (sub_self 1)
  have haims := pairIntegrator_aims heldSystem 1
  have hresolved := FixedStep.resolved_of_converges integrator
  exact ⟨hconverges, haims, (hresolved.1 hconverges).consistent heldSystem_ignores,
    (hresolved.2 haims hconverges).consistent heldSystem_ignores⟩

namespace CompiledSystem

/-- What `der(x) = t` and `z = z - der(x)` compile to. -/
def coupled : CompiledSystem ℝ where
  vars := .ofList ["x", "z"]
  parameters := .empty
  equations :=
    [{ variableName := "x"
       index := 0
       kind := .differential
       source := "der(x) = t"
       expression := "t"
       program := ⟨[.time], 1⟩ },
     { variableName := "z"
       index := 1
       kind := .algebraic
       source := "z = z - der(x)"
       expression := "z - der(x)"
       program := ⟨[.variable 1, .derivative 0, .binary .sub], 2⟩ }]

theorem compile_coupled :
    CompiledSystem.compile .empty ["der(x) = t", "z = z - der(x)"] = .ok coupled := by
  let timeTokens : List Token := [⟨.identifier, "t", 0, false⟩]
  let differenceTokens : List Token :=
    [⟨.identifier, "z", 0, false⟩, ⟨.operator, "-", 2, false⟩, ⟨.function, "der", 0, false⟩,
      ⟨.leftParen, "(", 0, false⟩, ⟨.identifier, "x", 0, false⟩, ⟨.rightParen, ")", 0, false⟩]
  let statements : List Statement :=
    [⟨"der(x) = t", "x", .differential, "t", timeTokens⟩,
      ⟨"z = z - der(x)", "z", .algebraic, "z - der(x)", differenceTokens⟩]
  have hlines : Statement.parseLines (ParameterMap.empty : ParameterMap ℝ).contains
      ["der(x) = t", "z = z - der(x)"] = .ok statements := by
    with_unfolding_all rfl
  have hknown : Statement.undefinedSymbols (.ofList ["x", "z"])
      (ParameterMap.empty : ParameterMap ℝ).contains statements = [] := by
    with_unfolding_all rfl
  have hequations : Equation.compileAll
      ⟨.ofList ["x", "z"], (ParameterMap.empty : ParameterMap ℝ).symbols⟩ 0 statements =
        .ok coupled.equations := by
    with_unfolding_all rfl
  exact compile_of_statements hlines hknown hequations

theorem rows_coupled (t x z x' z' : ℝ) :
    coupled.RowsAre (coupled.bindings t [x, z] [x', z']) [x' - t, z - x'] :=
  .cons rfl (.cons rfl .nil)

theorem coupled_timed (t x z : ℝ) :
    coupled.toResidual.Timed t [x, z] fun yp => z - yp.getD 0 0 where
  fillsBuffer := coupled.toResidual_fillsBuffer
  dimension := rfl
  residual {yp out} hyp hout := by
    rcases List.length_eq_two.mp hyp with ⟨x', z', rfl⟩
    exact residual_of_rows rfl rfl hout (rows_coupled t x z x' z')

/-- Two converged iterations leave the constraint off by the slope. -/
theorem coupled_gap {after : Point ℝ}
    (hresolved : (pairIntegrator coupled.toResidual).core.Resolved ⟨1, [0, 0], [0, 0]⟩ after) :
    ∃ residual, coupled.toResidual.residualAt after = .ok residual ∧
      (pairIntegrator coupled.toResidual).core.newton.tolerance ≤
        Linear.l2Norm (Newton.select [1] residual) := by
  rcases after with ⟨time, state, derivatives⟩
  have htime : time = 1 := hresolved.time
  rcases hresolved.differential (List.cons_ne_nil 0 []) with ⟨residual, hresidual, hdifferential⟩
  rcases hresolved.algebraic (List.cons_ne_nil 1 []) with ⟨old, hold, halgebraic⟩
  rcases rows_of_evaluate hresidual with ⟨htwo, htwo', -⟩
  rcases List.length_eq_two.mp htwo with ⟨x, z, hstate⟩
  rcases List.length_eq_two.mp htwo' with ⟨x', z', hderivatives⟩
  simp only at hstate hderivatives
  subst htime hstate hderivatives
  cases hresidual.symm.trans ((coupled_timed 1 x z).evaluate rfl)
  cases hold.symm.trans ((coupled_timed 1 x z).evaluate rfl)
  rw [pairIntegrator_tolerance] at hdifferential halgebraic ⊢
  refine ⟨_, hresidual, ?_⟩
  have hslope : |x' - 1| < 1 / 10 ^ 6 := by
    rw [← Linear.l2Norm_single]
    exact hdifferential
  have hvalue : |z - 0| < 1 / 10 ^ 6 := by
    rw [← Linear.l2Norm_single]
    exact halgebraic
  have hgap : 1 / 10 ^ 6 ≤ |z - x'| := by
    rw [abs_lt] at hslope hvalue
    rw [abs_sub_comm]
    apply le_trans _ (le_abs_self (x' - z))
    linarith
  change 1 / 10 ^ 6 ≤ Linear.l2Norm [z - x']
  rwa [Linear.l2Norm_single]

/-- A start and an explicit step at which both iterations converge and the
algebraic row stays large. -/
theorem not_consistent_coupled :
    let integrator := pairIntegrator coupled.toResidual
    let start := (integrator.core.consistentStart [0, 0] [0, 0] .fresh).point
    let stepped := (FixedStep.step integrator 1 ⟨0, [0, 0], [0, 0]⟩ .fresh).point
    CompiledSystem.compile .empty ["der(x) = t", "z = z - der(x)"] = .ok coupled ∧
      integrator.core.Converges ⟨1, [0, 0], [0, 0]⟩ .fresh ∧
      FixedStep.Aims integrator 1 ⟨0, [0, 0], [0, 0]⟩ .fresh ⟨1, [0, 0], [0, 0]⟩ .fresh ∧
      (∃ residual, coupled.toResidual.residualAt start = .ok residual ∧
        integrator.core.newton.tolerance ≤
          Linear.l2Norm (Newton.select integrator.core.algebraicIndices residual)) ∧
      ∃ residual, coupled.toResidual.residualAt stepped = .ok residual ∧
        integrator.core.newton.tolerance ≤
          Linear.l2Norm (Newton.select integrator.core.algebraicIndices residual) := by
  intro integrator start stepped
  have hconverges : integrator.core.Converges ⟨1, [0, 0], [0, 0]⟩ .fresh :=
    pairIntegrator_converges (coupled_timed 1 0 0) (sub_self 0)
  have haims := pairIntegrator_aims coupled.toResidual 0
  have hstart : integrator.core.Resolved ⟨1, [0, 0], [0, 0]⟩ start :=
    Core.resolve_resolved hconverges
  have hstepped : integrator.core.Resolved ⟨1, [0, 0], [0, 0]⟩ stepped := by
    unfold stepped
    rw [haims.step_eq]
    exact hstart
  exact ⟨compile_coupled, hconverges, haims, coupled_gap hstart, coupled_gap hstepped⟩

end CompiledSystem

end

end ImplicitDynamics
