import ImplicitDynamics.Integration.Bdf.StepControl

/-!
# The integrator of variable order

Settings given by name take effect all together or not at all.
-/

namespace ImplicitDynamics

structure BdfIntegrator (α : Type) where
  core : Core α
  settings : BdfSettings α

namespace BdfIntegrator

variable {α : Type} [Scalar α]

def create (system : ResidualSystem α) (config : Config α) : BdfIntegrator α :=
  ⟨Core.create system config, BdfSettings.standard⟩

/-- Replaces the settings; the integrator must be initialized again. -/
def setSettings (integrator : BdfIntegrator α) (settings : BdfSettings α) :
    BdfIntegrator α :=
  ⟨integrator.core.reset, settings⟩

/-- Applies one setting of the Newton iteration or of the integrator. -/
def applyOne (integrator : BdfIntegrator α) (key : String) (value : α) :
    Except (SolverError α) (BdfIntegrator α) :=
  match integrator.core.applyNewton? key value with
  | .error cause => .error cause
  | .ok (some core) => .ok { integrator with core }
  | .ok none =>
    match integrator.settings.set? key value with
    | .error cause => .error cause
    | .ok (some settings) => .ok { integrator with settings }
    | .ok none => .error (.invalidInput (.unknownSetting .dassl key))

def applyAll : List (String × α) → BdfIntegrator α → Except (SolverError α) (BdfIntegrator α)
  | [], integrator => .ok integrator
  | (key, value) :: rest, integrator =>
    match integrator.applyOne key value with
    | .error cause => .error cause
    | .ok next => applyAll rest next

/-- The integrator with all settings applied, which are valid together. -/
def configure (integrator : BdfIntegrator α) (settings : List (String × α)) :
    Except (SolverError α) (BdfIntegrator α) :=
  match applyAll settings integrator with
  | .error cause => .error cause
  | .ok configured => configured.settings.validate.map fun _ => configured

/-- Applies settings and classifies the variables.  Settings that are refused
leave the old ones, and the integrator is not initialized. -/
def prepare (integrator : BdfIntegrator α) (settings : List (String × α)) :
    Except (SolverError α) Unit × BdfIntegrator α :=
  let blank := { integrator with core := integrator.core.reset }
  match blank.configure settings with
  | .error cause => (.error cause, blank)
  | .ok configured =>
    match configured.core.prepare with
    | .error cause => (.error cause, configured)
    | .ok core => (.ok (), { configured with core })

/-- The surroundings of a run that looks at a control. -/
def surroundings (integrator : BdfIntegrator α)
    (told : ProgressEvent α → Control → Control) : Bdf.Surroundings α Control where
  proceed := Control.look
  attempt := Bdf.attempt integrator.core integrator.settings
  told := told
  event? := integrator.core.event?

def run (integrator : BdfIntegrator α) (told : ProgressEvent α → Control → Control)
    (control : Control) : Run α Control :=
  let core := integrator.core
  let config := core.config
  match core.ensureInitialized with
  | .error cause => ⟨.error cause, Session.start control⟩
  | .ok () =>
    let zeros := List.replicate config.initialState.length 0
    let first := core.consistentStart config.initialState zeros control
    match first.result with
    | .error cause => Run.interrupt cause (Session.start first.control)
    | .ok () =>
      Bdf.integrate (integrator.surroundings told) integrator.settings config.stop first.point
        first.control

end BdfIntegrator

end ImplicitDynamics
