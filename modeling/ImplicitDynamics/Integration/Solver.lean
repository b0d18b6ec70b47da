import ImplicitDynamics.Integration.Integrator
import ImplicitDynamics.Integration.Stepper

/-!
# Solvers

A solver is an integrator with its working vectors, which it keeps through all
that is done to it.  Solving has no result when a position in a vector is out of
range.  It can be asked whether the divisors on the way are numbers of some sort;
then it has none either when one is not.
-/

namespace ImplicitDynamics

inductive Solver (α : Type) where
  | fixedStep (core : Core α) (stepper : Stepper α)
  | bdf (integrator : BdfIntegrator α)

/-- What can be done to a solver. -/
inductive Operation (α : Type) where
  | prepare (settings : List (String × α))
  | solve (told : ProgressEvent α → Control → Control) (control : Control)
  | setConfig (config : Config α)
  | setSettings (settings : BdfSettings α)
  | listen
  | cleanup

namespace Solver

variable {α : Type} [Scalar α]

def core : Solver α → Core α
  | fixedStep core _ => core
  | bdf integrator => integrator.core

def settings? : Solver α → Option (BdfSettings α)
  | fixedStep _ _ => none
  | bdf integrator => some integrator.settings

def vectors : Solver α → List (List α)
  | fixedStep _ stepper => stepper.vectors
  | bdf _ => []

/-- The integrator without the contents of the working vectors. -/
def integrator : Solver α → Integrator α
  | fixedStep core stepper => .fixedStep ⟨core, stepper.method, core.system.dimension⟩
  | bdf integrator => .bdf integrator

def kind (solver : Solver α) : IntegratorKind :=
  solver.integrator.kind

def mapCore (f : Core α → Core α) : Solver α → Solver α
  | fixedStep core stepper => fixedStep (f core) stepper
  | bdf integrator => bdf { integrator with core := f integrator.core }

/-- A solver with new working vectors for an integrator. -/
def ofIntegrator : Integrator α → Solver α
  | .fixedStep integrator =>
    fixedStep integrator.core (.create integrator.method integrator.workspace)
  | .bdf integrator => bdf integrator

def create (kind : IntegratorKind) (system : ResidualSystem α) (config : Config α) : Solver α :=
  ofIntegrator (.create kind system config)

/-- Preparation makes new working vectors when it succeeds. -/
def prepare (settings : List (String × α)) : Solver α → Except (SolverError α) Unit × Solver α
  | fixedStep core stepper =>
    let blank : FixedStepIntegrator α := ⟨core, stepper.method, core.system.dimension⟩
    match blank.prepare settings with
    | (.ok (), integrator) => (.ok (), ofIntegrator (.fixedStep integrator))
    | (.error cause, integrator) => (.error cause, fixedStep integrator.core stepper)
  | bdf integrator =>
    let (result, next) := integrator.prepare settings
    (result, bdf next)

/-- Solves, and divides by numbers that are `allowed` only. -/
def solveWith (allowed : α → Bool) (solver : Solver α)
    (told : ProgressEvent α → Control → Control) (control : Control) :
    Option (Run α Control × Solver α) :=
  match solver with
  | fixedStep core stepper =>
    (stepper.run allowed core told control).map fun (run, stepper) =>
      (run, fixedStep core stepper)
  | bdf integrator => (Checked.run allowed integrator told control).map fun run => (run, solver)

def solve (solver : Solver α) (told : ProgressEvent α → Control → Control) (control : Control) :
    Option (Run α Control × Solver α) :=
  solver.solveWith Checked.anyDivisor told control

def setConfig (solver : Solver α) (config : Config α) : Solver α :=
  solver.mapCore fun core => core.setConfig config

def setSettings (solver : Solver α) (settings : BdfSettings α) : Solver α :=
  match solver with
  | fixedStep core stepper => fixedStep core stepper
  | bdf integrator => bdf (integrator.setSettings settings)

def cleanup (solver : Solver α) : Solver α :=
  ofIntegrator solver.integrator.cleanup

/-- The solver after an operation, whatever that answers. -/
def perform (solver : Solver α) : Operation α → Option (Solver α)
  | .prepare settings => some (solver.prepare settings).2
  | .solve told control => (solver.solve told control).map Prod.snd
  | .setConfig config => some (solver.setConfig config)
  | .setSettings settings => some (solver.setSettings settings)
  | .listen => some (solver.mapCore Core.listen)
  | .cleanup => some solver.cleanup

def performAll (solver : Solver α) (operations : List (Operation α)) : Option (Solver α) :=
  operations.foldlM perform solver

end Solver

end ImplicitDynamics
