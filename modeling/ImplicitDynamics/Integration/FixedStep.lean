import ImplicitDynamics.Integration.Core

/-!
# Integration with a fixed step

The interval is divided into equal parts and each part is one step.  Explicit
methods move the differential variables only and make the point consistent
again at the end of the step.  The implicit method solves for the whole state
at the end of the step.  A step that does not converge is accepted as it is.
-/

namespace ImplicitDynamics

inductive FixedStepMethod where
  | explicitEuler
  | implicitEuler
  | rungeKutta4
  deriving Repr, DecidableEq

def FixedStepMethod.kind : FixedStepMethod → IntegratorKind
  | explicitEuler => .explicitEuler
  | implicitEuler => .implicitEuler
  | rungeKutta4 => .rungeKutta4

/-- An integrator of fixed step; its working vectors have `workspace`
entries. -/
structure FixedStepIntegrator (α : Type) where
  core : Core α
  method : FixedStepMethod
  workspace : Nat

namespace FixedStep

variable {α : Type} [Scalar α]

def vector (size : Nat) (entry : Nat → α) : List α :=
  (List.range size).map entry

/-- Adds `scale` times the rates to the differential values. -/
def advance (algebraic : List Bool) (scale : α) : List α → List α → List α
  | value :: values, rate :: rates =>
    (if algebraic.headD true then value else value + scale * rate) ::
      advance algebraic.tail scale values rates
  | values, _ => values

def explicitEuler (core : Core α) (h : α) (point : Point α) (control : Control) :
    Core.PointRun α :=
  let state := advance core.algebraic h point.state point.derivatives
  core.resolve ⟨point.time + h, state, point.derivatives⟩ control

/-- The rates of change from `previous` to `state` in a step. -/
def rates (size : Nat) (h : α) (previous state : List α) : List α :=
  vector size fun i => (state.getD i 0 - previous.getD i 0) / h

/-- The state at the end of an implicit step, with `left` updates to go. -/
def implicitState (core : Core α) (size : Nat) (t h : α) (previous : List α)
    (left : Nat) (state : List α) (control : Control) :
    Except (SolverError α) (List α) × Control :=
  let slopes := rates size h previous state
  match core.system.evaluate t state slopes with
  | .error cause => (.error (.evaluation cause), control)
  | .ok residual =>
    if Linear.l2Norm residual < core.newton.tolerance then (.ok state, control)
    else
      match left with
      | 0 => (.ok state, control)
      | left + 1 =>
        match control.look with
        | (false, control) => (.error .cancelled, control)
        | (true, control) =>
          let probe : Probe α := ⟨core.system, t, state, slopes⟩
          let increments := state.map fun v => FiniteDifference.increment v 1
          match probe.columns Supervisor.controlled residual (List.range state.length)
              (.combined (1 / h)) increments control with
          | (.error cause, control) => (.error (.ofJacobian cause), control)
          | (.ok columns, control) =>
            match Linear.solve (Linear.rowsOfColumns residual.length columns)
                (residual.map (-·)) with
            | none => (.ok state, control)
            | some updates =>
              implicitState core size t h previous left (state.zipWith (· + ·) updates) control

def implicitEuler (core : Core α) (size : Nat) (h : α) (point : Point α)
    (control : Control) : Core.PointRun α :=
  let t := point.time + h
  let predicted := advance core.algebraic h point.state point.derivatives
  match implicitState core size t h point.state core.newton.maxIterations predicted control with
  | (.error cause, control) => ⟨.error cause, point, control⟩
  | (.ok state, control) =>
    let slopes := state.zipWith (fun value previous => (value - previous) / h) point.state
    ⟨.ok (), ⟨t, state, Core.zeroWhere core.algebraic slopes⟩, control⟩

/-- The derivatives at a stage: at `t`, with the differential states moved
along `slope`, which is also the first guess. -/
def stage (core : Core α) (size : Nat) (t scale : α) (state slope : List α)
    (control : Control) : Except (SolverError α) (List α) × Control :=
  let moved := vector size fun i =>
    if core.algebraic.getD i true then state.getD i 0
    else state.getD i 0 + scale * slope.getD i 0
  let run := core.resolveDerivatives ⟨t, moved, slope⟩ control
  (run.result.map fun _ => run.point.derivatives, run.control)

/-- The differential states after a step along the weighted mean of four
slopes. -/
def weighted (algebraic : List Bool) (h : α) (state k1 k2 k3 k4 : List α) : List α :=
  vector state.length fun i =>
    let value := state.getD i 0
    if algebraic.getD i true then value
    else
      value + h * (k1.getD i 0 + 2 * k2.getD i 0 + 2 * k3.getD i 0 + k4.getD i 0) / 6

/-- One step of the classical Runge-Kutta method of order four. -/
def rungeKutta4 (core : Core α) (size : Nat) (h : α) (point : Point α)
    (control : Control) : Core.PointRun α :=
  let half := 0.5 * h
  let t := point.time
  let state := point.state
  let k1 := point.derivatives
  match stage core size (t + half) half state k1 control with
  | (.error cause, control) => ⟨.error cause, point, control⟩
  | (.ok k2, control) =>
    match stage core size (t + half) half state k2 control with
    | (.error cause, control) => ⟨.error cause, point, control⟩
    | (.ok k3, control) =>
      match stage core size (t + h) h state k3 control with
      | (.error cause, control) => ⟨.error cause, point, control⟩
      | (.ok k4, control) =>
        let next := weighted core.algebraic h state k1 k2 k3 k4
        core.resolve ⟨t + h, next, k1⟩ control

/-- One step of length `h` from a consistent point. -/
def step (integrator : FixedStepIntegrator α) (h : α) (point : Point α)
    (control : Control) : Core.PointRun α :=
  match integrator.method with
  | .explicitEuler => explicitEuler integrator.core h point control
  | .implicitEuler => implicitEuler integrator.core integrator.workspace h point control
  | .rungeKutta4 => rungeKutta4 integrator.core integrator.workspace h point control

/-- The time after `k` steps of length `h`; the last step ends where the
interval ends. -/
def gridTime (config : Config α) (h : α) (k : Nat) : α :=
  if k = config.intervals then config.stop else config.start + Scalar.ofNat k * h

/-- Takes steps `k`, `k + 1`, … from a point, `left` of them. -/
def steps (integrator : FixedStepIntegrator α) (told : ProgressEvent α → Control → Control)
    (h : α) : (left k : Nat) → Point α → Session α Control → Run α Control
  | 0, _, _, session => ⟨.ok .completed, session⟩
  | left + 1, k, point, session =>
    match session.around.look with
    | (false, control) => ⟨.ok .cancelled, { session with around := control }⟩
    | (true, control) =>
      let next := gridTime integrator.core.config h k
      let length := next - point.time
      let stepped := step integrator length point control
      let session := { session with around := stepped.control }
      match stepped.result with
      | .error cause => Run.interrupt cause session
      | .ok () =>
        let point := { stepped.point with time := next }
        let status := .step next integrator.core.config.stop length none
        let session := (session.log point).tell told (integrator.core.event? next status)
        steps integrator told h left (k + 1) point session

def run (integrator : FixedStepIntegrator α) (told : ProgressEvent α → Control → Control)
    (control : Control) : Run α Control :=
  let core := integrator.core
  let config := core.config
  match core.ensureInitialized with
  | .error cause => ⟨.error cause, Session.start control⟩
  | .ok () =>
    let h := (config.stop - config.start) / Scalar.ofNat config.intervals
    let zeros := List.replicate config.initialState.length 0
    let first := core.consistentStart config.initialState zeros control
    let session : Session α Control := Session.start first.control
    match first.result with
    | .error cause => Run.interrupt cause session
    | .ok () => steps integrator told h config.intervals 1 first.point (session.log first.point)

end FixedStep

namespace FixedStepIntegrator

variable {α : Type} [Scalar α]

def create (method : FixedStepMethod) (system : ResidualSystem α) (config : Config α) :
    FixedStepIntegrator α :=
  ⟨Core.create system config, method, system.dimension⟩

/-- Applies settings in turn.  Those before the first one that is refused stay
applied. -/
def applyAll (kind : IntegratorKind) :
    List (String × α) → Core α → Except (SolverError α) Unit × Core α
  | [], core => (.ok (), core)
  | (key, value) :: rest, core =>
    match core.applyNewton? key value with
    | .error cause => (.error cause, core)
    | .ok none => (.error (.invalidInput (.unknownSetting kind key)), core)
    | .ok (some core) => applyAll kind rest core

def prepare (integrator : FixedStepIntegrator α) (settings : List (String × α)) :
    Except (SolverError α) Unit × FixedStepIntegrator α :=
  let (applied, core) := applyAll integrator.method.kind settings integrator.core
  let integrator := { integrator with core }
  match applied with
  | .error cause => (.error cause, integrator)
  | .ok () =>
    match core.prepare with
    | .error cause => (.error cause, integrator)
    | .ok core => (.ok (), { integrator with core, workspace := core.system.dimension })

/-- Gives up the working vectors; the integrator must be initialized again. -/
def cleanup (integrator : FixedStepIntegrator α) : FixedStepIntegrator α :=
  { integrator with core := integrator.core.reset, workspace := 0 }

end FixedStepIntegrator

end ImplicitDynamics
