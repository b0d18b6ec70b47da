import ImplicitDynamics.Integration.Newton

/-!
# What all integrators share

A core holds the system, the configuration, the Newton settings and the kinds
of the variables.  The kinds are known once the core is initialized.  Points
are made consistent in two steps: first the algebraic states, with all else
fixed, and then the derivatives of the differential variables.
-/

namespace ImplicitDynamics

structure Core (α : Type) where
  system : ResidualSystem α
  config : Config α
  newton : NewtonSettings α
  algebraic : List Bool
  listening : Bool
  initialized : Bool

namespace Core

variable {α : Type} [Scalar α]

def create (system : ResidualSystem α) (config : Config α) : Core α where
  system := system
  config := config
  newton := NewtonSettings.standard
  algebraic := []
  listening := false
  initialized := false

def setConfig (core : Core α) (config : Config α) : Core α :=
  { core with config, initialized := false }

def listen (core : Core α) : Core α :=
  { core with listening := true }

def reset (core : Core α) : Core α :=
  { core with algebraic := [], initialized := false }

def fault? (core : Core α) : Option (InvalidInput α) :=
  let config := core.config
  let given := config.initialState.length
  if given = 0 then some .noInitialState
  else if given ≠ core.system.dimension then
    some (.stateDimension given core.system.dimension)
  else if !config.initialState.all Scalar.isFinite then some .stateNotFinite
  else if !(Scalar.isFinite config.start && Scalar.isFinite config.stop) then
    some .timeNotFinite
  else if config.stop ≤ config.start then some .emptyInterval
  else if config.intervals = 0 then some .noIntervals
  else none

def validate (core : Core α) : Except (SolverError α) Unit :=
  match core.fault? with
  | some cause => .error (.invalidInput cause)
  | none => .ok ()

/-- Applies a setting of the Newton iteration; `none` for any other key. -/
def applyNewton? (core : Core α) (key : String) (value : α) :
    Except (SolverError α) (Option (Core α)) :=
  if key = "newton_max_iterations" then
    (Setting.positiveCount key value).map fun maxIterations =>
      some { core with newton := { core.newton with maxIterations } }
  else if key = "newton_tolerance" then
    (Setting.positive key value).map fun tolerance =>
      some { core with newton := { core.newton with tolerance } }
  else .ok none

/-- How far a derivative moves when the variables are classified. -/
def classificationStep : α := 1e-6

/-- Validates the configuration and classifies the variables at its start; a
failure leaves the core as it is. -/
def prepare (core : Core α) : Except (SolverError α) (Core α) :=
  match core.validate with
  | .error cause => .error cause
  | .ok () =>
    let state := core.config.initialState
    let probe : Probe α :=
      ⟨core.system, core.config.start, state, List.replicate state.length 0⟩
    match probe.classify classificationStep with
    | .error cause => .error (.evaluation cause)
    | .ok algebraic => .ok { core with algebraic, initialized := true }

def ensureInitialized (core : Core α) : Except (SolverError α) Unit :=
  if core.initialized then .ok () else .error .notInitialized

def indicesWhere (core : Core α) (flag : Bool) : List Nat :=
  core.algebraic.zipIdx.filterMap fun (isAlgebraic, i) =>
    if isAlgebraic = flag then some i else none

def algebraicIndices (core : Core α) : List Nat :=
  core.indicesWhere true

def differentialIndices (core : Core α) : List Nat :=
  core.indicesWhere false

def event? (core : Core α) (time : α) (status : Status α) : Option (ProgressEvent α) :=
  if core.listening then some ⟨time, core.config.start, core.config.stop, status⟩ else none

/-- Makes the algebraic rows vanish by moving the algebraic states. -/
def resolveAlgebraic (core : Core α) (point : Point α) (control : Control) : NewtonRun α :=
  Newton.solve core.system core.newton .state core.algebraicIndices point control

def zeroWhere : List Bool → List α → List α
  | flag :: flags, value :: values =>
    (if flag then 0 else value) :: zeroWhere flags values
  | _, values => values

/-- Makes the differential rows vanish by moving the derivatives; those of
algebraic variables are zero. -/
def resolveDerivatives (core : Core α) (point : Point α) (control : Control) :
    NewtonRun α :=
  Newton.solve core.system core.newton .derivatives core.differentialIndices
    { point with derivatives := zeroWhere core.algebraic point.derivatives } control

/-- A point that is being made, and whether something went wrong. -/
structure PointRun (α : Type) where
  result : Except (SolverError α) Unit
  point : Point α
  control : Control

/-- Makes a point consistent: algebraic states first, then derivatives. -/
def resolve (core : Core α) (point : Point α) (control : Control) : PointRun α :=
  let first := core.resolveAlgebraic point control
  match first.result with
  | .error cause => ⟨.error cause, first.point, first.control⟩
  | .ok _ =>
    let second := core.resolveDerivatives first.point first.control
    match second.result with
    | .error cause => ⟨.error cause, second.point, second.control⟩
    | .ok _ => ⟨.ok (), second.point, second.control⟩

/-- The consistent point at the start of the interval that is nearest to hand,
from given states and derivatives. -/
def consistentStart (core : Core α) (state derivatives : List α) (control : Control) :
    PointRun α :=
  core.resolve ⟨core.config.start, state, derivatives⟩ control

end Core

/-- A run in progress: the points accepted, the events told, and what goes on
around it. -/
structure Session (α σ : Type) where
  points : Array (Point α)
  events : Array (ProgressEvent α)
  around : σ

namespace Session

variable {α σ : Type}

def start (around : σ) : Session α σ := ⟨#[], #[], around⟩

def log (session : Session α σ) (point : Point α) : Session α σ :=
  { session with points := session.points.push point }

/-- Tells an event if there is one; `told` is what the listener does. -/
def tell (told : ProgressEvent α → σ → σ) (event? : Option (ProgressEvent α))
    (session : Session α σ) : Session α σ :=
  match event? with
  | none => session
  | some event =>
    { session with
      events := session.events.push event
      around := told event session.around }

end Session

/-- A finished run: how it ended and all that it accepted and told before. -/
structure Run (α σ : Type) where
  outcome : Except (SolverError α) Termination
  session : Session α σ

namespace Run

variable {α σ : Type}

/-- A run is cut short: a cancellation keeps what was accepted, anything else
is an error. -/
def interrupt (cause : SolverError α) (session : Session α σ) : Run α σ :=
  match cause with
  | .cancelled => ⟨.ok .cancelled, session⟩
  | cause => ⟨.error cause, session⟩

def trajectory (run : Run α σ) : Except (SolverError α) (Trajectory α) :=
  run.outcome.map fun termination => ⟨run.session.points, termination⟩

end Run

end ImplicitDynamics
