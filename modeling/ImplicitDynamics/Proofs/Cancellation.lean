import ImplicitDynamics.Proofs.BdfStart
import ImplicitDynamics.Proofs.Interruption

/-!
# Cancellation of a run

Two runs of an integrator, one of which is never cancelled, are compared step by
step.  As long as the other one finds no cancellation it logs the same points,
since the control leaves no trace in a step.  A cancellation ends it with the
points logged before; the step that it interrupts is dropped.
-/

namespace ImplicitDynamics

namespace Session

variable {α : Type}

end Session

namespace Run

variable {α σ : Type}

theorem interrupt_of_ne {cause : SolverError α} (hcause : cause ≠ .cancelled)
    (session : Session α σ) : interrupt cause session = ⟨.error cause, session⟩ := by
  cases cause with
  | cancelled => exact absurd rfl hcause
  | _ => rfl

theorem session_interrupt (cause : SolverError α) (session : Session α σ) :
    (interrupt cause session).session = session := by
  cases cause <;> rfl

/-- A run ends like another one with the same points, or it is cancelled with
the first of the points of the other. -/
def CutsShort (cut whole : Run α σ) : Prop :=
  cut.outcome = whole.outcome ∧ cut.session.points = whole.session.points ∨
    cut.outcome = .ok .cancelled ∧ cut.session.points.toList <+: whole.session.points.toList

theorem CutsShort.trajectory {cut whole : Run α σ} (hcut : cut.CutsShort whole) :
    cut.trajectory = whole.trajectory ∨
      ∃ points, cut.trajectory = .ok ⟨points, .cancelled⟩ ∧
        points.toList <+: whole.session.points.toList := by
  rcases hcut with ⟨houtcome, hpoints⟩ | ⟨houtcome, hprefix⟩
  · rw [Run.trajectory, Run.trajectory, houtcome, hpoints]
    exact .inl rfl
  · refine .inr ⟨cut.session.points, ?_, hprefix⟩
    rw [Run.trajectory, houtcome]
    rfl

end Run

variable {α : Type} [Scalar α] {told quiet : ProgressEvent α → Control → Control}

/-! ## Steps of fixed length -/

namespace FixedStep

variable {integrator : FixedStepIntegrator α} {h : α} {left k : Nat} {point : Point α}
  {session : Session α Control} {control : Control}

/-- The step to the `k`-th point of the grid. -/
def stepTo (integrator : FixedStepIntegrator α) (h : α) (k : Nat) (point : Point α)
    (control : Control) : Core.PointRun α :=
  step integrator (gridTime integrator.core.config h k - point.time) point control

def onGrid (integrator : FixedStepIntegrator α) (h : α) (k : Nat) (point : Point α) : Point α :=
  { point with time := gridTime integrator.core.config h k }

/-- The session after a step from `point` to `next`. -/
def logStep (integrator : FixedStepIntegrator α) (told : ProgressEvent α → Control → Control)
    (point next : Point α) (session : Session α Control) : Session α Control :=
  (session.log next).tell told (integrator.core.event? next.time
    (.step next.time integrator.core.config.stop (next.time - point.time) none))

theorem points_logStep (next : Point α) :
    (logStep integrator told point next session).points = session.points.push next :=
  Session.points_tell _ _ _

theorem steps_of_stopped (hlook : session.around.look = (false, control)) :
    steps integrator told h (left + 1) k point session =
      ⟨.ok .cancelled, { session with around := control }⟩ := by
  rw [steps]
  simp only [hlook]

theorem steps_of_failed {cause : SolverError α} (hlook : session.around.look = (true, control))
    (hresult : (stepTo integrator h k point control).result = .error cause) :
    steps integrator told h (left + 1) k point session =
      Run.interrupt cause
        { session with around := (stepTo integrator h k point control).control } := by
  rw [stepTo] at hresult
  rw [steps]
  simp only [hlook, hresult]
  rfl

theorem steps_of_finished (hlook : session.around.look = (true, control))
    (hresult : (stepTo integrator h k point control).result = .ok ()) :
    steps integrator told h (left + 1) k point session =
      steps integrator told h left (k + 1)
        (onGrid integrator h k (stepTo integrator h k point control).point)
        (logStep integrator told point
          (onGrid integrator h k (stepTo integrator h k point control).point)
          { session with around := (stepTo integrator h k point control).control }) := by
  rw [stepTo] at hresult
  rw [steps]
  simp only [hlook, hresult]
  rfl

end FixedStep

/-! ## Steps of variable length -/

namespace Bdf

variable {integrator : BdfIntegrator α} {settings : BdfSettings α} {stop : α} {fuel : Nat}
  {course : Course α Control}

end Bdf

/-! ## A whole run -/

namespace Integrator

variable {integrator : Integrator α}

def first (integrator : Integrator α) (control : Control) : Core.PointRun α :=
  integrator.core.consistentStart integrator.core.config.initialState
    (List.replicate integrator.core.config.initialState.length 0) control

/-- The run from a consistent point on. -/
def continued (told : ProgressEvent α → Control → Control) (point : Point α) (control : Control) :
    Integrator α → Run α Control
  | fixedStep integrator =>
    let config := integrator.core.config
    FixedStep.steps integrator told ((config.stop - config.start) / Scalar.ofNat config.intervals)
      config.intervals 1 point ((Session.start control).log point)
  | bdf integrator =>
    Bdf.integrate (integrator.surroundings told) integrator.settings integrator.core.config.stop
      point control

theorem run_eq (integrator : Integrator α) (told : ProgressEvent α → Control → Control)
    (control : Control) :
    integrator.run told control =
      match integrator.core.ensureInitialized with
      | .error cause => ⟨.error cause, Session.start control⟩
      | .ok () =>
        match (integrator.first control).result with
        | .error cause => Run.interrupt cause (Session.start (integrator.first control).control)
        | .ok () =>
          integrator.continued told (integrator.first control).point
            (integrator.first control).control := by
  cases integrator <;> rfl

/-- The points that an integrator may log: its consistent start, and the ends of
steps that it finished. -/
inductive Finishes : Integrator α → Point α → Prop where
  | start {integrator : Integrator α} (control : Control) :
      (integrator.first control).result = .ok () →
      Finishes integrator (integrator.first control).point
  | step {integrator : FixedStepIntegrator α} {previous : Point α} (time : α) (control : Control) :
      Finishes (.fixedStep integrator) previous →
      (FixedStep.step integrator (time - previous.time) previous control).result = .ok () →
      Finishes (.fixedStep integrator)
        { (FixedStep.step integrator (time - previous.time) previous control).point with time }
  | attempt {integrator : BdfIntegrator α} (history : Bdf.History α) (time : α)
      (control : Control) {error : α} {state derivatives : List α} :
      (Bdf.attempt integrator.core integrator.settings history time control).result =
        .ok (.accepted error state derivatives) →
      Finishes (.bdf integrator) ⟨time, state, derivatives⟩

end Integrator

/-- All points of a session are such as the integrator may log. -/
def Session.Finished (session : Session α Control) (integrator : Integrator α) : Prop :=
  ∀ point ∈ session.points, integrator.Finishes point

namespace Integrator

variable {integrator : Integrator α}

noncomputable def atRest : FixedStepIntegrator ℝ :=
  ⟨BdfIntegrator.atRest.core, .explicitEuler, 1⟩

end Integrator

end ImplicitDynamics
