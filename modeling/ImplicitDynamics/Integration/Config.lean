import ImplicitDynamics.Decimal.Layout
import ImplicitDynamics.FiniteDifference
import ImplicitDynamics.Integration.Kind

/-!
# Input to an integration, and what is wrong with it

The configuration of a run, the settings of its Newton iterations, the reasons
for which a run is refused or ends with an error, and the events that tell of
its progress.
-/

namespace ImplicitDynamics

/-- The interval, the initial state, and the number of steps for a method of
fixed step. -/
structure Config (α : Type) where
  intervals : Nat
  start : α
  stop : α
  initialState : List α

def Config.standard {α : Type} [Scalar α] : Config α := ⟨100, 0, 1, []⟩

structure NewtonSettings (α : Type) where
  maxIterations : Nat
  tolerance : α

def NewtonSettings.standard {α : Type} [Scalar α] : NewtonSettings α := ⟨10, 1e-6⟩

inductive InvalidInput (α : Type) where
  | noInitialState
  | stateDimension (given expected : Nat)
  | stateNotFinite
  | timeNotFinite
  | emptyInterval
  | noIntervals
  | notPositive (key : String) (value : α)
  | notWhole (key : String) (value : α)
  | unknownSetting (kind : IntegratorKind) (key : String)
  | stepBounds (minStep maxStep : α)
  | orderBounds (highest given : Nat)
  | safetyFactor (given : α)
  deriving Repr, DecidableEq

namespace InvalidInput

def shown (x : Float) : String :=
  Decimal.shortest x

def message : InvalidInput Float → String
  | noInitialState => "Initial state is not set"
  | stateDimension given expected =>
    s!"Initial state dimension ({given}) does not match system dimension ({expected})"
  | stateNotFinite => "Initial state must be finite"
  | timeNotFinite => "Start and end time must be finite"
  | emptyInterval => "End time must be greater than start time"
  | noIntervals => "Number of intervals must be positive"
  | notPositive key value => s!"{key} must be positive, got {shown value}"
  | notWhole key value => s!"{key} must be a whole number, got {shown value}"
  | unknownSetting kind key => s!"Unknown {kind.name} setting: {key}"
  | stepBounds minStep maxStep =>
    s!"min_step ({shown minStep}) must not exceed max_step ({shown maxStep})"
  | orderBounds highest given =>
    s!"max_order must be between 1 and {highest}, got {given}"
  | safetyFactor given => s!"safety_factor must not exceed 1, got {shown given}"

end InvalidInput

/-- Why a run is refused or ends without a trajectory. -/
inductive SolverError (α : Type) where
  | invalidInput (cause : InvalidInput α)
  | notInitialized
  | evaluation (cause : EvalError α)
  | stepSizeTooSmall (time step : α)
  | tooManyFailures (time : α) (failures : Nat)
  | cancelled
  /-- Time has stopped advancing: so many steps do not fit into the interval. -/
  | stalled (time : α)
  deriving Repr, DecidableEq

namespace SolverError

def ofJacobian {α : Type} : JacobianError α → SolverError α
  | .evaluation cause => .evaluation cause
  | .cancelled => .cancelled

def message : SolverError Float → String
  | invalidInput cause => cause.message
  | notInitialized => "solver has not been initialized"
  | evaluation cause => cause.message
  | stepSizeTooSmall time step =>
    let size := Decimal.Form.shortestScientific.write step
    s!"step size too small ({size}) at t = {Decimal.shortest time}"
  | tooManyFailures time failures =>
    s!"too many consecutive step failures ({failures}) at t = {Decimal.shortest time}"
  | cancelled => "integration cancelled"
  | stalled time => s!"integration stalled at t = {Decimal.shortest time}"

end SolverError

/-- What a progress event says besides the time: a text, or the step that was
taken and the order if there is a choice. -/
inductive Status (α : Type) where
  | text (words : String)
  | step (time stop size : α) (order : Option Nat)

def Status.message : Status Float → String
  | text words => words
  | step time stop size order =>
    let place := (Decimal.Form.fixed 3).write time
    let goal := (Decimal.Form.fixed 3).write stop
    let length := (Decimal.Form.scientific 3).write size
    let base := s!"Time: {place}/{goal}, Step size: {length}"
    match order with
    | none => base
    | some order => base ++ s!", Order: {order}"

/-- Told once for each accepted step. -/
structure ProgressEvent (α : Type) where
  time : α
  start : α
  stop : α
  status : Status α

def ProgressEvent.percentage {α : Type} [Scalar α] (event : ProgressEvent α) : α :=
  let span := event.stop - event.start
  if span ≤ 0 then 100
  else Scalar.clamp ((event.time - event.start) / span * 100) 0 100

namespace Setting

variable {α : Type} [Scalar α]

/-- Larger counts are cut to the largest machine word. -/
def countLimit : Nat := Nat.pow 2 64 - 1

def positive (key : String) (value : α) : Except (SolverError α) α :=
  if Scalar.isFinite value && decide (0 < value) then .ok value
  else .error (.invalidInput (.notPositive key value))

def positiveCount (key : String) (value : α) : Except (SolverError α) Nat :=
  match positive key value with
  | .error cause => .error cause
  | .ok value =>
    let count := Scalar.floor value
    if Scalar.same (Scalar.ofNat count) value then .ok (min count countLimit)
    else .error (.invalidInput (.notWhole key value))

end Setting

end ImplicitDynamics
