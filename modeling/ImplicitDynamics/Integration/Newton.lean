import ImplicitDynamics.Integration.Config
import ImplicitDynamics.Linear.Elimination
import ImplicitDynamics.Linear.Norm
import ImplicitDynamics.Trajectory

/-!
# Newton iterations on some rows

Rows of the residual are made to vanish by moving the same coordinates of the
state, or of the derivatives.  The iteration ends when the norm of the rows is
below the tolerance, when the allowed number of updates is used up, or at a
singular Jacobian; none of these is an error.  Whatever happens, the point
that has been reached is part of the answer.
-/

namespace ImplicitDynamics

/-- Which coordinates of a point are moved. -/
inductive Unknowns where
  | state
  | derivatives
  deriving Repr, DecidableEq

structure NewtonOutcome (α : Type) where
  converged : Bool
  iterations : Nat
  residualNorm : α
  singular : Bool

/-- A Newton iteration with the point that it reached. -/
structure NewtonRun (α : Type) where
  result : Except (SolverError α) (NewtonOutcome α)
  point : Point α
  control : Control

namespace Unknowns

variable {α : Type} [Scalar α]

def perturbation : Unknowns → Perturbation α
  | state => .state
  | derivatives => .derivative

def values (unknowns : Unknowns) (point : Point α) : List α :=
  match unknowns with
  | state => point.state
  | derivatives => point.derivatives

def addTo (indices : List Nat) (updates values : List α) : List α :=
  (indices.zip updates).foldl (fun values (i, d) => values.modify i (· + d)) values

def update (unknowns : Unknowns) (indices : List Nat) (updates : List α) (point : Point α) :
    Point α :=
  match unknowns with
  | state => { point with state := addTo indices updates point.state }
  | derivatives => { point with derivatives := addTo indices updates point.derivatives }

end Unknowns

namespace Newton

variable {α : Type} [Scalar α]

def select (indices : List Nat) (values : List α) : List α :=
  indices.map fun i => values.getD i 0

/-- The updates that solve the linearized rows; `none` if they are
singular. -/
def correction (indices : List Nat) (columns : List (List α)) (rows : List α) :
    Option (List α) :=
  let matrix := indices.map fun i => columns.map fun column => column.getD i 0
  Linear.solve matrix (rows.map (-·))

/-- Iterates with `left` updates to go and `iterations` done. -/
def iterate (system : ResidualSystem α) (tolerance : α) (unknowns : Unknowns)
    (indices : List Nat) (left iterations : Nat) (point : Point α) (control : Control) :
    NewtonRun α :=
  match system.evaluate point.time point.state point.derivatives with
  | .error cause => ⟨.error (.evaluation cause), point, control⟩
  | .ok residual =>
    let rows := select indices residual
    let norm := Linear.l2Norm rows
    if norm < tolerance then ⟨.ok ⟨true, iterations, norm, false⟩, point, control⟩
    else
      match left with
      | 0 => ⟨.ok ⟨false, iterations, norm, false⟩, point, control⟩
      | left + 1 =>
        match control.look with
        | (false, control) => ⟨.error .cancelled, point, control⟩
        | (true, control) =>
          let probe : Probe α := ⟨system, point.time, point.state, point.derivatives⟩
          let increments := (unknowns.values point).map fun v => FiniteDifference.increment v 1
          match probe.columns Supervisor.controlled residual indices unknowns.perturbation
              increments control with
          | (.error cause, control) => ⟨.error (.ofJacobian cause), point, control⟩
          | (.ok columns, control) =>
            match correction indices columns rows with
            | none => ⟨.ok ⟨false, iterations, norm, true⟩, point, control⟩
            | some updates =>
              iterate system tolerance unknowns indices left (iterations + 1)
                (unknowns.update indices updates point) control

/-- Makes the rows `indices` vanish by moving the same coordinates.  Without
rows there is nothing to do. -/
def solve (system : ResidualSystem α) (settings : NewtonSettings α) (unknowns : Unknowns)
    (indices : List Nat) (point : Point α) (control : Control) : NewtonRun α :=
  if indices.isEmpty then ⟨.ok ⟨true, 0, 0, false⟩, point, control⟩
  else
    iterate system settings.tolerance unknowns indices settings.maxIterations 0 point control

end Newton

end ImplicitDynamics
