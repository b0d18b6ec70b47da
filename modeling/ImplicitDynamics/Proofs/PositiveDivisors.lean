import ImplicitDynamics.Proofs.BdfBounds
import ImplicitDynamics.Proofs.SolverLifecycle

/-!
# Divisors are positive

In exact arithmetic the positive numbers include all that is made of them to divide
by.  The steps of a grid have the positive length of the parts of a valid interval,
also the last one, which ends where the interval ends.

An attempt of variable order divides by the step of its history, by the weights of
the errors, which are not below the absolute tolerance, and by increments that are
scaled with the typical magnitudes of the start.  All of them stay positive for as
long as a course keeps its step within the bounds of valid settings.
-/

namespace ImplicitDynamics

noncomputable section

theorem Checked.positive_iff (divisor : ℝ) : positive divisor = true ↔ 0 < divisor := by
  rw [positive, decide_eq_true_eq, Exact.zero_eq]

theorem Checked.divisors_positive : Divisors (positive : ℝ → Bool) where
  positive hx := by
    rw [positive, decide_eq_true_eq]
    exact hx
  ofNat n := by
    rw [positive_iff]
    exact Exact.ofNat_pos (Nat.succ_pos n)
  mul hx hy := by
    rw [positive_iff] at hx hy ⊢
    exact mul_pos hx hy
  sqrt hx := by
    rw [positive_iff] at hx ⊢
    exact Real.sqrt_pos.mpr hx
  increment value scale hscale := by
    rw [positive_iff] at hscale ⊢
    exact FiniteDifference.increment_pos value hscale
  weight value nominal relative absolute hrelative habsolute := by
    rw [positive_iff] at hrelative habsolute ⊢
    have hlarger : 0 ≤ max |value| nominal := le_max_of_le_left (abs_nonneg value)
    exact add_pos_of_nonneg_of_pos (mul_nonneg hrelative.le hlarger) habsolute

theorem FixedStep.timeAfter_eq {config : Config ℝ} (hintervals : config.intervals ≠ 0) (k : Nat) :
    timeAfter config config.stepLength k = config.division k := by
  cases k with
  | zero => exact config.division_zero.symm
  | succ k => exact gridTime_eq hintervals (k + 1)

theorem FixedStep.spaced_positive {core : Core ℝ} (hvalidate : core.validate = .ok ()) :
    Spaced Checked.positive core.config := by
  intro k
  have hintervals := Core.intervals_ne_zero_of_validate hvalidate
  have hmono := Config.division_strictMono (BdfIntegrator.start_lt_stop_of_validate hvalidate)
    hintervals
  have hpositive : 0 < gridTime core.config core.config.stepLength (k + 1) -
      timeAfter core.config core.config.stepLength k := by
    rw [gridTime_eq hintervals, timeAfter_eq hintervals]
    exact sub_pos.mpr (hmono (Nat.lt_succ_self k))
  exact (Checked.positive_iff _).mpr hpositive

theorem BdfSettings.Valid.allowed {settings : BdfSettings ℝ} (hvalid : settings.Valid) :
    settings.Allowed Checked.positive where
  relativeTolerance := (Checked.positive_iff _).mpr hvalid.relativeTolerance
  absoluteTolerance := (Checked.positive_iff _).mpr hvalid.absoluteTolerance
  shortestStep := (Checked.positive_iff _).mpr hvalid.shortestStep_pos

namespace Bdf

section

variable {σ : Type} {settings : BdfSettings ℝ} {stop : ℝ} {course next : Course ℝ σ}
  {around : Surroundings ℝ σ}

theorem start_nominal_pos (state derivatives : List ℝ) (step : ℝ) :
    ∀ scale ∈ (History.start state derivatives step).nominal, 0 < scale := by
  have hfloor : (0 : ℝ) < History.nominalFloor := by
    rw [History.nominalFloor, Exact.scientific_eq]
    positivity
  intro scale hscale
  rcases List.mem_map.mp hscale with ⟨v, -, rfl⟩
  exact lt_max_of_lt_right hfloor

theorem plan_nominal (settings : BdfSettings ℝ) (stop : ℝ) (course : Course ℝ σ) :
    (plan settings stop course).2.2.nominal = course.history.nominal := by
  rcases plan_history settings stop course with hsame | ⟨ratio, hrescaled⟩
  · rw [hsame]
  · rw [hrescaled]
    rfl

theorem afterAccepted_nominal (settings : BdfSettings ℝ) (h error : ℝ) (history : History ℝ) :
    (afterAccepted settings h error history).nominal = history.nominal := by
  rcases afterAccepted_cases settings h error history with
    ⟨ratio, hsame | ⟨hraised, -⟩ | ⟨hlowered, -⟩⟩
  · rw [hsame]
    rfl
  · rw [hraised]
    rfl
  · rw [hlowered]
    rfl

theorem afterFailure_nominal {time h : ℝ} {history next : History ℝ}
    (hnext : afterFailure settings time h history = .ok next) :
    next.nominal = history.nominal := by
  rcases afterFailure_cases hnext with rfl | ⟨rfl, -⟩ <;> rfl

theorem attempt_nominal (core : Core ℝ) (settings : BdfSettings ℝ) (history : History ℝ) (time : ℝ)
    (control : Control) :
    (attempt core settings history time control).history.nominal = history.nominal := by
  by_cases haccepted : ∃ error state derivatives,
      (attempt core settings history time control).result =
        .ok (.accepted error state derivatives)
  · rcases haccepted with ⟨error, state, derivatives, haccepted⟩
    rw [(attempt_accepted haccepted).2]
    rfl
  · push Not at haccepted
    rw [attempt_not_accepted haccepted]

/-- What counts as typical is decided at the start. -/
theorem advance_nominal (hattempt : ∀ history time s,
      (around.attempt history time s).history.nominal = history.nominal)
    (hnext : advance around settings stop course = .inl next) :
    next.history.nominal = course.history.nominal := by
  have hadvanced := advance_advanced around settings stop course
  have hnominal : ∀ s, (course.attempt around settings stop s).history.nominal =
      course.history.nominal :=
    fun s => (hattempt _ _ _).trans (plan_nominal settings stop course)
  rw [hnext] at hadvanced
  cases hadvanced with
  | accepted s => exact (afterAccepted_nominal _ _ _ _).trans (hnominal s)
  | retried s _ _ _ hfailure => exact (afterFailure_nominal hfailure).trans (hnominal s)

end

/-- A steady course whose typical magnitudes are positive. -/
def SteadyPositive (integrator : BdfIntegrator ℝ) (told : ProgressEvent ℝ → Control → Control)
    (start stop : ℝ) (course : Course ℝ Control) : Prop :=
  Steady (integrator.surroundings told) integrator.settings start stop course ∧
    ∀ scale ∈ course.history.nominal, 0 < scale

/-- Two things go on from course to course: the bounds of the step, and the typical
magnitudes that were taken at the start. -/
theorem guarantees_positive {integrator : BdfIntegrator ℝ} (hvalid : integrator.settings.Valid)
    (told : ProgressEvent ℝ → Control → Control) (start stop : ℝ) :
    Guarantees Checked.positive (integrator.surroundings told) integrator.settings stop
      (SteadyPositive integrator told start stop) where
  allowed := by
    rintro course ⟨hsteady, hnominal⟩ hlt
    have hplanned : Planned integrator.settings stop course
        (plan integrator.settings stop course) :=
      plan_planned hvalid hlt hsteady.minStep_le hsteady.step_le
    refine ⟨?_, ?_, ?_, ?_⟩
    · rw [Checked.positive_iff]
      exact hvalid.minStep.trans_le hsteady.minStep_le
    · rw [Checked.positive_iff]
      exact hplanned.step_pos
    -- also a step that is cut or halved to fit the rest of the interval is positive
    · rw [Checked.positive_iff, hplanned.history_step]
      exact hplanned.step_pos
    · intro scale hscale
      rw [plan_nominal] at hscale
      exact (Checked.positive_iff scale).mpr (hnominal scale hscale)
  goesOn := by
    rintro course next ⟨hsteady, hnominal⟩ hlt hnext
    have hrestrained := attempt_restrained integrator.core integrator.settings
    have hsame := advance_nominal (attempt_nominal integrator.core integrator.settings) hnext
    exact ⟨((hsteady.advance hvalid hrestrained hlt).1 next hnext).1, hsame ▸ hnominal⟩

end Bdf

namespace Solver

variable {kind : IntegratorKind} {system : ResidualSystem ℝ} {solver : Solver ℝ}

theorem Ready.dividesBy_positive (hready : solver.Ready) : solver.DividesBy Checked.positive := by
  cases solver with
  | fixedStep core stepper => exact FixedStep.spaced_positive hready.config
  | bdf integrator =>
      have hsettings := hready.settings integrator.settings rfl
      have hvalid := BdfSettings.valid_of_validate hsettings
      refine ⟨hvalid.allowed, fun told control => ?_⟩
      have hsteady := BdfIntegrator.first_steady hsettings hready.config
        (integrator.surroundings told) control
      have hnominal := Bdf.start_nominal_pos (integrator.first control).point.state
        (integrator.first control).point.derivatives
      exact ⟨_, Bdf.guarantees_positive hvalid told _ _, hsteady, hnominal _⟩

/-- Whatever is done to a solver, in whatever order: no run of it divides by a
number that is not positive. -/
theorem divides_by_positives (kind : IntegratorKind) (hfills : system.FillsBuffer)
    (config : Config ℝ) (operations : List (Operation ℝ)) :
    ∃ solver, (create kind system config).performAll operations = some solver ∧
      ∀ told control, ∃ run next, solver.solve told control = some (run, next) ∧
        (solver.solveWith Checked.positive told control).map Prod.fst = some run := by
  rcases (create_sound kind system config).performAll hfills operations with
    ⟨solver, hperform, hsound⟩
  refine ⟨solver, hperform, ?_⟩
  intro told control
  rcases hsound.solve hfills told control with ⟨next, hsolve, -, -⟩
  rcases hsound.solveWith hfills Checked.divisors_positive Ready.dividesBy_positive told control
    with ⟨other, hpositive, -, -⟩
  refine ⟨_, next, hsolve, ?_⟩
  rw [hpositive]
  rfl

/-- A solver of any kind for exponential growth that has been prepared. -/
def readyGrowth (kind : IntegratorKind) : Solver ℝ :=
  ((create kind CompiledSystem.growth.toResidual ⟨2, 0, 1, [1]⟩).prepare []).2

theorem initialized_readyGrowth (kind : IntegratorKind) :
    (readyGrowth kind).core.initialized = true := by
  have hcore := Core.prepare_growth 2 two_ne_zero
  have hsettings := BdfSettings.validate_of_valid BdfSettings.standard_valid
  cases kind with
  | explicitEuler | implicitEuler | rungeKutta4 =>
      exact congrArg (fun prepared => prepared.2.core.initialized) (prepare_fixedStep hcore _)
  | dassl =>
      let integrator := BdfIntegrator.create CompiledSystem.growth.toResidual ⟨2, 0, 1, [1]⟩
      have hprepare : integrator.core.reset.prepare = _ := hcore
      exact congrArg (fun prepared => prepared.2.core.initialized) (prepare_bdf hsettings hprepare)

theorem divides_by_positives_growth :
    let system := CompiledSystem.growth.toResidual
    let operations : List (Operation ℝ) := [.prepare []]
    system.FillsBuffer ∧ ∀ kind,
      (create kind system ⟨2, 0, 1, [1]⟩).performAll operations = some (readyGrowth kind) ∧
      (readyGrowth kind).core.initialized = true ∧
      ∀ told control, ∃ run next, (readyGrowth kind).solve told control = some (run, next) ∧
        ((readyGrowth kind).solveWith Checked.positive told control).map Prod.fst = some run := by
  intro system operations
  have hfills := CompiledSystem.growth.toResidual_fillsBuffer
  refine ⟨hfills, fun kind => ?_⟩
  rcases divides_by_positives kind hfills ⟨2, 0, 1, [1]⟩ operations with
    ⟨solver, hsolver, hsolves⟩
  cases hsolver
  exact ⟨rfl, initialized_readyGrowth kind, hsolves⟩

end Solver

end

end ImplicitDynamics
