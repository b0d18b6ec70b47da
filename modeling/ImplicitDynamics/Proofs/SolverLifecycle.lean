import ImplicitDynamics.Integration.Solver
import ImplicitDynamics.Proofs.CheckedRuns
import ImplicitDynamics.Proofs.Simulation
import ImplicitDynamics.Proofs.WorkingVectors

/-!
# The lifecycle of a solver

Each operation touches another part of a solver, and some of them fail halfway.
Whatever has been done, a solver that is initialized is ready for the accesses of a
run.  A preparation that succeeds decides all that later runs depend on, so that
nothing of what was done before it can be seen in them.
-/

namespace ImplicitDynamics

variable {α : Type} [Scalar α]

theorem BdfSettings.maxOrder_le_of_validate {settings : BdfSettings α}
    (hvalidate : settings.validate = .ok ()) : settings.maxOrder ≤ highestOrder := by
  by_contra hlarge
  have hbounds : (settings.maxOrder = 0 || highestOrder < settings.maxOrder : Bool) = true := by
    simp [Nat.lt_of_not_le hlarge]
  unfold validate at hvalidate
  simp only [hbounds, if_true] at hvalidate
  split at hvalidate
  · cases hvalidate
  · split at hvalidate <;> cases hvalidate

/-- A preparation depends on the system and the configuration only, and finds
the algebraic variables. -/
theorem Core.prepare_of_same {core other next : Core α} (hsystem : other.system = core.system)
    (hconfig : other.config = core.config) (hprepare : core.prepare = .ok next) :
    other.prepare = .ok { other with algebraic := next.algebraic, initialized := true } := by
  have hvalidate : other.validate = core.validate := by
    rw [validate, validate, fault?, fault?, hsystem, hconfig]
  unfold prepare at hprepare ⊢
  rw [hvalidate, hsystem, hconfig]
  split at hprepare
  · cases hprepare
  · simp only at hprepare ⊢
    split at hprepare
    · cases hprepare
    · cases hprepare
      rfl

theorem Core.prepare_eq {core next : Core α} (hprepare : core.prepare = .ok next) :
    next = { core with algebraic := next.algebraic, initialized := true } :=
  Except.ok.inj (hprepare.symm.trans (prepare_of_same rfl rfl hprepare))

namespace Solver

/-- All that can come of a preparation. -/
inductive Prepared : Solver α → Except (SolverError α) Unit × Solver α → Prop where
  | fixedStepFailed {core : Core α} {stepper : Stepper α} (newton : NewtonSettings α)
      (cause : SolverError α) :
      Prepared (fixedStep core stepper) (.error cause, fixedStep { core with newton } stepper)
  | fixedStep {core next : Core α} {stepper : Stepper α} (newton : NewtonSettings α) :
      ({ core with newton }).prepare = .ok next →
      Prepared (fixedStep core stepper)
        (.ok (), fixedStep next (.create stepper.method next.system.dimension))
  | bdfFailed {integrator : BdfIntegrator α} (newton : NewtonSettings α)
      (settings : BdfSettings α) (cause : SolverError α) :
      Prepared (bdf integrator)
        (.error cause, bdf ⟨{ integrator.core.reset with newton }, settings⟩)
  | bdf {integrator : BdfIntegrator α} {next : Core α} {settings : BdfSettings α}
      (newton : NewtonSettings α) : settings.validate = .ok () →
      ({ integrator.core.reset with newton }).prepare = .ok next →
      Prepared (bdf integrator) (.ok (), bdf ⟨next, settings⟩)

theorem prepare_prepared (solver : Solver α) (given : List (String × α)) :
    Prepared solver (solver.prepare given) := by
  cases solver with
  | fixedStep core stepper =>
      simp only [prepare, FixedStepIntegrator.prepare]
      rcases happlied : FixedStepIntegrator.applyAll stepper.method.kind given core with
        ⟨cause | _, applied⟩
      · simp only
        rw [FixedStepIntegrator.applyAll_keeps _ happlied]
        exact .fixedStepFailed applied.newton cause
      · simp only
        cases hprepare : applied.prepare with
        | error cause =>
            simp only
            rw [FixedStepIntegrator.applyAll_keeps _ happlied]
            exact .fixedStepFailed applied.newton cause
        | ok next =>
            rw [FixedStepIntegrator.applyAll_keeps _ happlied] at hprepare
            exact .fixedStep applied.newton hprepare
  | bdf integrator =>
      simp only [prepare, BdfIntegrator.prepare]
      cases hconfigure : ({ integrator with core := integrator.core.reset }).configure given with
      | error cause =>
          have hfailed : Prepared (bdf integrator) (.error cause, bdf
              ⟨{ integrator.core.reset with newton := integrator.core.newton },
                integrator.settings⟩) := .bdfFailed _ _ _
          exact hfailed
      | ok configured =>
          rcases BdfIntegrator.configure_spec hconfigure with ⟨hkeeps, hvalidate⟩
          simp only
          cases hprepare : configured.core.prepare with
          | error cause =>
              have hfailed : Prepared (bdf integrator) (.error cause, bdf
                  ⟨{ integrator.core.reset with newton := configured.core.newton },
                    configured.settings⟩) := .bdfFailed _ _ _
              rw [← hkeeps] at hfailed
              exact hfailed
          | ok next =>
              rw [hkeeps] at hprepare
              exact .bdf configured.core.newton hvalidate hprepare

theorem prepare_fixedStep {core next : Core α} (hprepare : core.prepare = .ok next)
    (stepper : Stepper α) : (fixedStep core stepper).prepare [] =
      (.ok (), fixedStep next (.create stepper.method next.system.dimension)) := by
  simp only [prepare, FixedStepIntegrator.prepare, FixedStepIntegrator.applyAll, hprepare]
  rfl

theorem prepare_bdf {integrator : BdfIntegrator α} {next : Core α}
    (hvalid : integrator.settings.validate = .ok ())
    (hprepare : integrator.core.reset.prepare = .ok next) :
    (bdf integrator).prepare [] = (.ok (), bdf ⟨next, integrator.settings⟩) := by
  simp only [prepare, BdfIntegrator.prepare, BdfIntegrator.configure, BdfIntegrator.applyAll,
    hvalid, Except.map, hprepare]

/-- What holds of a solver that is initialized: its configuration and settings
are valid, and it has a flag and working vectors for all variables. -/
structure Ready (solver : Solver α) : Prop where
  config : solver.core.validate = .ok ()
  flags : solver.core.algebraic.length = solver.core.system.dimension
  vectors : ∀ vector ∈ solver.vectors, vector.length = solver.core.system.dimension
  settings : ∀ settings ∈ solver.settings?, settings.validate = .ok ()

/-- A solver of a kind for a system that is ready when it is initialized. -/
structure Sound (kind : IntegratorKind) (system : ResidualSystem α) (solver : Solver α) :
    Prop where
  kind : solver.kind = kind
  system : solver.core.system = system
  ready : solver.core.initialized = true → solver.Ready

variable {kind : IntegratorKind} {system : ResidualSystem α} {solver : Solver α}

theorem Sound.of_not_initialized (hkind : solver.kind = kind)
    (hsystem : solver.core.system = system) (hnot : solver.core.initialized = false) :
    solver.Sound kind system where
  kind := hkind
  system := hsystem
  ready hinitialized := by
    rw [hnot] at hinitialized
    cases hinitialized

theorem create_sound (kind : IntegratorKind) (system : ResidualSystem α) (config : Config α) :
    (create kind system config).Sound kind system := by
  cases kind <;> exact .of_not_initialized rfl rfl rfl

theorem Sound.mapCore_sound (hsound : solver.Sound kind system) {f : Core α → Core α}
    (hsystem : ∀ core, (f core).system = core.system)
    (hnot : ∀ core, (f core).initialized = false) : (solver.mapCore f).Sound kind system := by
  have hsame := hsound.system
  cases solver <;>
    exact .of_not_initialized hsound.kind ((hsystem _).trans hsame) (hnot _)

theorem Sound.listening (hsound : solver.Sound kind system) (listening : Bool) :
    (solver.mapCore fun core => { core with listening }).Sound kind system := by
  have hkind := hsound.kind
  have hsystem := hsound.system
  cases solver <;> refine ⟨hkind, hsystem, fun hinitialized => ?_⟩ <;>
    have hready := hsound.ready hinitialized <;>
    exact ⟨hready.config, hready.flags, hready.vectors, hready.settings⟩

theorem Sound.prepare (hsound : solver.Sound kind system) (given : List (String × α)) :
    (solver.prepare given).2.Sound kind system := by
  have hprepared := solver.prepare_prepared given
  have hkind := hsound.kind
  have hsystem := hsound.system
  generalize solver.prepare given = outcome at hprepared
  cases hprepared with
  | fixedStepFailed newton cause =>
      refine ⟨hkind, hsystem, ?_⟩
      intro hinitialized
      have hready := hsound.ready hinitialized
      exact ⟨hready.config, hready.flags, hready.vectors, hready.settings⟩
  | fixedStep newton hprepare =>
      rcases Core.prepare_spec hprepare with ⟨hsame, hvalidate, hflags⟩
      refine ⟨?_, hsame.trans hsystem, fun _ => ⟨hvalidate, hsame ▸ hflags, ?_, ?_⟩⟩
      · rw [← hkind]
        exact congrArg FixedStepMethod.kind (Stepper.method_create _ _)
      · exact Stepper.create_fits _ _
      · intro settings hsettings
        cases hsettings
  | bdfFailed newton settings cause => exact .of_not_initialized hkind hsystem rfl
  | bdf newton hvalid hprepare =>
      rcases Core.prepare_spec hprepare with ⟨hsame, hvalidate, hflags⟩
      refine ⟨hkind, hsame.trans hsystem, fun _ => ⟨hvalidate, hsame ▸ hflags, ?_, ?_⟩⟩
      · intro vector hvector
        cases hvector
      · intro settings hsettings
        cases hsettings
        exact hvalid

/-! ## Runs -/

/-- The steps that the runs of a solver divide by are allowed, and so are its
settings. -/
def DividesBy (allowed : α → Bool) : Solver α → Prop
  | fixedStep core _ => FixedStep.Spaced allowed core.config
  | bdf integrator => integrator.settings.Allowed allowed ∧
      ∀ told control, ∃ Inv, Bdf.Guarantees allowed (integrator.surroundings told)
          integrator.settings integrator.core.config.stop Inv ∧
        Inv (Bdf.setOut integrator.settings (integrator.first control).point
          (integrator.first control).control)

theorem dividesBy_anyDivisor (solver : Solver α) : solver.DividesBy Checked.anyDivisor := by
  cases solver with
  | fixedStep core stepper => exact fun _ => rfl
  | bdf integrator =>
      exact ⟨⟨rfl, rfl, rfl⟩, fun told control =>
        ⟨fun _ => True, Bdf.guarantees_anyDivisor _ _ _, trivial⟩⟩

/-- Solving makes the run of the integrator, and changes nothing but the contents
of working vectors. -/
theorem Sound.solveWith {allowed : α → Bool} (hsound : solver.Sound kind system)
    (hfills : system.FillsBuffer) (hdivisors : Checked.Divisors allowed)
    (hdivides : solver.Ready → solver.DividesBy allowed)
    (told : ProgressEvent α → Control → Control) (control : Control) :
    ∃ next, solver.solveWith allowed told control =
        some (solver.integrator.run told control, next) ∧
      next.integrator = solver.integrator ∧ next.Sound kind system := by
  have hsystem : solver.core.system.FillsBuffer := hsound.system ▸ hfills
  cases solver with
  | fixedStep core stepper =>
      by_cases hinitialized : core.initialized = true
      · have hready := hsound.ready hinitialized
        have hcore : core.Flagged := ⟨hsystem, hready.flags⟩
        rcases Stepper.run_runs hdivisors hcore hready.config (hdivides hready) told
          hready.vectors control with ⟨next, hmethod, hfits, hrun⟩
        have hintegrator : (Solver.fixedStep core next).integrator =
            (Solver.fixedStep core stepper).integrator := by
          rw [integrator, integrator, hmethod]
        refine ⟨fixedStep core next, ?_, hintegrator, ?_, hsound.system, fun _ => ?_⟩
        · rw [Solver.solveWith, hrun]
          rfl
        · rw [← hsound.kind, Solver.kind, Solver.kind, hintegrator]
        · exact ⟨hready.config, hready.flags, hfits, hready.settings⟩
      · have hnot : core.initialized = false := Bool.not_eq_true _ ▸ hinitialized
        refine ⟨fixedStep core stepper, ?_, rfl, hsound⟩
        rw [Solver.solveWith, Stepper.run_of_not_initialized hnot]
        rfl
  | bdf integrator =>
      refine ⟨bdf integrator, ?_, rfl, hsound⟩
      rw [Solver.solveWith]
      by_cases hinitialized : integrator.core.initialized = true
      · have hready := hsound.ready hinitialized
        have hmax := BdfSettings.maxOrder_le_of_validate (hready.settings integrator.settings rfl)
        rcases hdivides hready with ⟨hsettings, hruns⟩
        rcases hruns told control with ⟨Inv, hguarantees, hinv⟩
        have hintegrator : integrator.Allowed allowed :=
          ⟨⟨hsystem, hready.flags⟩, hready.config, hmax, hsettings⟩
        rw [Checked.run_eq hdivisors hintegrator hguarantees hinv]
        rfl
      · have hnot : integrator.core.initialized = false := Bool.not_eq_true _ ▸ hinitialized
        rw [Checked.run_of_not_initialized hnot]
        rfl

theorem Sound.solve (hsound : solver.Sound kind system) (hfills : system.FillsBuffer)
    (told : ProgressEvent α → Control → Control) (control : Control) :
    ∃ next, solver.solve told control = some (solver.integrator.run told control, next) ∧
      next.integrator = solver.integrator ∧ next.Sound kind system :=
  hsound.solveWith hfills Checked.divisors_anyDivisor (fun _ => solver.dividesBy_anyDivisor) told
    control

theorem Sound.perform (hsound : solver.Sound kind system) (hfills : system.FillsBuffer)
    (operation : Operation α) :
    ∃ next, solver.perform operation = some next ∧ next.Sound kind system := by
  cases operation with
  | prepare given => exact ⟨_, rfl, hsound.prepare given⟩
  | solve told control =>
      rcases hsound.solve hfills told control with ⟨next, hsolve, -, hnext⟩
      refine ⟨next, ?_, hnext⟩
      rw [Solver.perform, hsolve]
      rfl
  | setConfig config =>
      refine ⟨_, rfl, hsound.mapCore_sound (fun _ => rfl) fun _ => rfl⟩
  | setSettings settings =>
      refine ⟨_, rfl, ?_⟩
      cases solver with
      | fixedStep core stepper => exact hsound
      | bdf integrator => exact .of_not_initialized hsound.kind hsound.system rfl
  | listen => exact ⟨_, rfl, hsound.listening true⟩
  | cleanup =>
      have hkind := hsound.kind
      have hsystem := hsound.system
      refine ⟨_, rfl, ?_⟩
      cases solver with
      | fixedStep core stepper =>
          refine .of_not_initialized ?_ hsystem rfl
          rw [← hkind]
          exact congrArg FixedStepMethod.kind (Stepper.method_create _ _)
      | bdf integrator => exact .of_not_initialized hkind hsystem rfl

theorem Sound.performAll (hsound : solver.Sound kind system) (hfills : system.FillsBuffer)
    (operations : List (Operation α)) :
    ∃ last, solver.performAll operations = some last ∧ last.Sound kind system := by
  induction operations generalizing solver with
  | nil => exact ⟨solver, rfl, hsound⟩
  | cons operation rest ih =>
      rcases hsound.perform hfills operation with ⟨next, hperform, hnext⟩
      rcases ih hnext with ⟨last, hlast, hsound⟩
      refine ⟨last, ?_, hsound⟩
      rw [Solver.performAll, List.foldlM_cons, hperform]
      exact hlast

/-- Whatever is done to a solver, in whatever order: if a run gets past the check
that the solver is initialized, the solver is ready for it, and no access of a run
is out of range. -/
theorem solve_in_range (kind : IntegratorKind) (hfills : system.FillsBuffer) (config : Config α)
    (operations : List (Operation α)) :
    ∃ solver, (create kind system config).performAll operations = some solver ∧
      solver.core.system = system ∧
      (solver.core.ensureInitialized = .ok () → solver.Ready) ∧
      ∀ told control, ∃ run next, solver.solve told control = some (run, next) := by
  rcases (create_sound kind system config).performAll hfills operations with
    ⟨solver, hperform, hsound⟩
  refine ⟨solver, hperform, hsound.system, ?_, ?_⟩
  · intro hensure
    apply hsound.ready
    unfold Core.ensureInitialized at hensure
    split at hensure
    · assumption
    · cases hensure
  · intro told control
    rcases hsound.solve hfills told control with ⟨next, hsolve, -, -⟩
    exact ⟨_, next, hsolve⟩

noncomputable def growth : Solver ℝ :=
  create .rungeKutta4 CompiledSystem.growth.toResidual ⟨2, 0, 1, [1]⟩

noncomputable def preparedGrowth : Solver ℝ :=
  fixedStep { growth.core with algebraic := [false], initialized := true }
    (.create .rungeKutta4 1)

/-- Also without working vectors, which a clean-up has taken. -/
theorem prepare_growth : growth.cleanup.prepare [] = (.ok (), preparedGrowth) :=
  prepare_fixedStep (Core.prepare_growth 2 two_ne_zero) _

theorem solve_in_range_growth :
    let operations : List (Operation ℝ) := [.cleanup, .prepare []]
    CompiledSystem.growth.toResidual.FillsBuffer ∧
      growth.performAll operations = some preparedGrowth ∧
      preparedGrowth.core.ensureInitialized = .ok () ∧ preparedGrowth.Ready ∧
      ∀ told control, ∃ run next, preparedGrowth.solve told control = some (run, next) := by
  intro operations
  have hfills := CompiledSystem.growth.toResidual_fillsBuffer
  have hperform : growth.performAll operations = some preparedGrowth := by
    change some (growth.cleanup.prepare []).2 = _
    rw [prepare_growth]
  have hensure : preparedGrowth.core.ensureInitialized = .ok () := rfl
  rcases solve_in_range .rungeKutta4 hfills ⟨2, 0, 1, [1]⟩ operations with
    ⟨solver, hsolver, -, hready, hsolves⟩
  cases hperform.symm.trans hsolver
  exact ⟨hfills, hperform, hensure, hready hensure, hsolves⟩

/-! ## Runs after a preparation -/

def tuning (solver : Solver α) : Tuning α :=
  solver.integrator.tuning

end Solver

end ImplicitDynamics
