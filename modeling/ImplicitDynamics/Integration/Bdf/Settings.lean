import ImplicitDynamics.Integration.Config

/-!
# Settings of the integrator of variable order

Seven settings can be given by name; two can only be set as a whole.  Settings
are validated before they take effect.
-/

namespace ImplicitDynamics

structure BdfSettings (α : Type) where
  relativeTolerance : α
  absoluteTolerance : α
  initialStep : α
  minStep : α
  /-- Bounds the proposed step; differences of accepted times keep to it up to
  the rounding of times. -/
  maxStep : α
  maxOrder : Nat
  safetyFactor : α
  maxConsecutiveFailures : Nat
  /-- The corrector stops when the norm of its update is below this. -/
  correctorTolerance : α

namespace BdfSettings

variable {α : Type} [Scalar α]

def highestOrder : Nat := 5

def standard : BdfSettings α where
  relativeTolerance := 1e-6
  absoluteTolerance := 1e-8
  initialStep := 1e-4
  minStep := 1e-10
  maxStep := 1e-2
  maxOrder := highestOrder
  safetyFactor := 0.6
  maxConsecutiveFailures := 10
  correctorTolerance := 1e-3

/-- Sets one setting by name; `none` for a name that is none of them. -/
def set? (settings : BdfSettings α) (key : String) (value : α) :
    Except (SolverError α) (Option (BdfSettings α)) :=
  let positive (set : α → BdfSettings α) : Except (SolverError α) (Option (BdfSettings α)) :=
    (Setting.positive key value).map fun value => some (set value)
  if key = "relative_tolerance" then
    positive fun value => { settings with relativeTolerance := value }
  else if key = "absolute_tolerance" then
    positive fun value => { settings with absoluteTolerance := value }
  else if key = "initial_step" then positive fun value => { settings with initialStep := value }
  else if key = "min_step" then positive fun value => { settings with minStep := value }
  else if key = "max_step" then positive fun value => { settings with maxStep := value }
  else if key = "max_order" then
    (Setting.positiveCount key value).map fun maxOrder => some { settings with maxOrder }
  else if key = "safety_factor" then
    positive fun value => { settings with safetyFactor := value }
  else .ok none

/-- The settings that have to be positive, in the order in which they are
looked at. -/
def positives (settings : BdfSettings α) : List (String × α) :=
  [("relative_tolerance", settings.relativeTolerance),
    ("absolute_tolerance", settings.absoluteTolerance),
    ("initial_step", settings.initialStep),
    ("min_step", settings.minStep),
    ("max_step", settings.maxStep),
    ("safety_factor", settings.safetyFactor),
    ("corrector_tolerance", settings.correctorTolerance)]

def notPositive? : List (String × α) → Option (SolverError α)
  | [] => none
  | (key, value) :: rest =>
    match Setting.positive key value with
    | .error cause => some cause
    | .ok _ => notPositive? rest

def validate (settings : BdfSettings α) : Except (SolverError α) Unit :=
  match notPositive? settings.positives with
  | some cause => .error cause
  | none =>
    if settings.maxStep < settings.minStep then
      .error (.invalidInput (.stepBounds settings.minStep settings.maxStep))
    else if settings.maxOrder = 0 || highestOrder < settings.maxOrder then
      .error (.invalidInput (.orderBounds highestOrder settings.maxOrder))
    else if 1 < settings.safetyFactor then
      .error (.invalidInput (.safetyFactor settings.safetyFactor))
    else .ok ()

end BdfSettings

end ImplicitDynamics
