import ImplicitDynamics.Integration.Bdf.Integrator
import ImplicitDynamics.Integration.FixedStep

/-!
# Integrators of any kind

An integrator is configured, prepared, run and cleaned up.  It has to be
prepared again after a change of its configuration and after it has been
cleaned up.
-/

namespace ImplicitDynamics

inductive Integrator (α : Type) where
  | fixedStep (integrator : FixedStepIntegrator α)
  | bdf (integrator : BdfIntegrator α)

namespace Integrator

variable {α : Type} [Scalar α]

def create (kind : IntegratorKind) (system : ResidualSystem α) (config : Config α) :
    Integrator α :=
  match kind with
  | .explicitEuler => fixedStep (.create .explicitEuler system config)
  | .implicitEuler => fixedStep (.create .implicitEuler system config)
  | .rungeKutta4 => fixedStep (.create .rungeKutta4 system config)
  | .dassl => bdf (.create system config)

def kind : Integrator α → IntegratorKind
  | fixedStep integrator => integrator.method.kind
  | bdf _ => .dassl

def core : Integrator α → Core α
  | fixedStep integrator => integrator.core
  | bdf integrator => integrator.core

def mapCore (f : Core α → Core α) : Integrator α → Integrator α
  | fixedStep integrator => fixedStep { integrator with core := f integrator.core }
  | bdf integrator => bdf { integrator with core := f integrator.core }

def config (integrator : Integrator α) : Config α :=
  integrator.core.config

def setConfig (integrator : Integrator α) (config : Config α) : Integrator α :=
  integrator.mapCore fun core => core.setConfig config

def listen (integrator : Integrator α) : Integrator α :=
  integrator.mapCore Core.listen

def settings? : Integrator α → Option (BdfSettings α)
  | fixedStep _ => none
  | bdf integrator => some integrator.settings

def setSettings (settings : BdfSettings α) : Integrator α → Integrator α
  | fixedStep integrator => fixedStep integrator
  | bdf integrator => bdf (integrator.setSettings settings)

/-- Applies settings by name, validates the configuration and classifies the
variables. -/
def prepare (settings : List (String × α)) :
    Integrator α → Except (SolverError α) Unit × Integrator α
  | fixedStep integrator =>
    let (result, next) := integrator.prepare settings
    (result, fixedStep next)
  | bdf integrator =>
    let (result, next) := integrator.prepare settings
    (result, bdf next)

/-- Integrates over the configured interval; `told` is what happens to the
control when progress is told. -/
def run (told : ProgressEvent α → Control → Control) (control : Control) :
    Integrator α → Run α Control
  | fixedStep integrator => FixedStep.run integrator told control
  | bdf integrator => integrator.run told control

def cleanup : Integrator α → Integrator α
  | fixedStep integrator => fixedStep integrator.cleanup
  | bdf integrator => bdf { integrator with core := integrator.core.reset }

end Integrator

end ImplicitDynamics
