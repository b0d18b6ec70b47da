import ImplicitDynamics.Integration.Bdf.History
import ImplicitDynamics.Integration.Core

/-!
# One attempt at a step

An attempt predicts the point at the end of the step, corrects it until the
residual vanishes, and measures the local error.  Only an accepted attempt
changes the history.
-/

namespace ImplicitDynamics.Bdf

inductive Attempt (α : Type) where
  | accepted (error : α) (state derivatives : List α)
  | rejected (error : α)
  | notConverged

/-- An attempt, the history after it, and what goes on around it. -/
structure AttemptRun (α σ : Type) where
  result : Except (SolverError α) (Attempt α)
  history : History α
  around : σ

variable {α : Type} [Scalar α]

/-- What stays the same while a point is corrected. -/
structure Corrector (α : Type) where
  core : Core α
  settings : BdfSettings α
  time : α
  alpha : α
  weights : List α
  nominal : List α

/-- Adds updates to the states, and `alpha` times the updates to the
derivatives of differential variables. -/
def Corrector.update (corrector : Corrector α) (updates : List α) (state derivatives : List α) :
    List α × List α :=
  let slopes := derivatives.zipWith (fun slope d => slope + corrector.alpha * d) updates
  (state.zipWith (· + ·) updates,
    (List.range derivatives.length).map fun i =>
      if corrector.core.algebraic.getD i false then derivatives.getD i 0 else slopes.getD i 0)

/-- Corrects a point with `left` updates to go; `none` if that does not
converge. -/
def Corrector.iterate (corrector : Corrector α) (left : Nat) (state derivatives : List α)
    (control : Control) :
    Except (SolverError α) (Option (List α × List α)) × Control :=
  match left with
  | 0 => (.ok none, control)
  | left + 1 =>
    let system := corrector.core.system
    match system.evaluate corrector.time state derivatives with
    | .error cause => (.error (.evaluation cause), control)
    | .ok residual =>
      match control.look with
      | (false, control) => (.error .cancelled, control)
      | (true, control) =>
        let probe : Probe α := ⟨system, corrector.time, state, derivatives⟩
        let increments := state.zipWith FiniteDifference.increment corrector.nominal
        match probe.columns Supervisor.controlled residual (List.range state.length)
            (.combined corrector.alpha) increments control with
        | (.error cause, control) => (.error (.ofJacobian cause), control)
        | (.ok columns, control) =>
          match Linear.solve (Linear.rowsOfColumns residual.length columns)
              (residual.map (-·)) with
          | none => (.ok none, control)
          | some updates =>
            let (state, derivatives) := corrector.update updates state derivatives
            if Linear.wrmsNorm updates corrector.weights ≤
                corrector.settings.correctorTolerance then
              (.ok (some (state, derivatives)), control)
            else corrector.iterate left state derivatives control

/-- The local error of a corrected point; at most one is acceptable.  A
differential variable contributes its distance from the prediction, an
algebraic one its residual. -/
def localError (settings : BdfSettings α) (algebraic : List Bool) (order : Nat)
    (weights residual state predicted : List α) : α :=
  let scaled := (List.range state.length).map fun i =>
    if algebraic.getD i false then residual.getD i 0 / settings.absoluteTolerance
    else
      (state.getD i 0 - predicted.getD i 0) / (Scalar.ofNat (order + 1) * weights.getD i 0)
  Linear.l2Norm scaled / Scalar.sqrt (Scalar.ofNat scaled.length)

def predictedDerivatives (algebraic : List Bool) (h : α) (column : List α) : List α :=
  (column.zip algebraic).map fun (z, isAlgebraic) => if isAlgebraic then 0 else z / h

/-- Attempts the step of a history, which ends at `time`. -/
def attempt (core : Core α) (settings : BdfSettings α) (history : History α) (time : α)
    (control : Control) : AttemptRun α Control :=
  let order := history.order
  let h := history.step
  let factors : List α := coefficients order
  let weights := history.weights settings
  let predicted := history.predict
  let corrector : Corrector α :=
    { core, settings, time, weights
      alpha := factors.getD 1 0 / h
      nominal := history.nominal }
  let guess := predictedDerivatives core.algebraic h (predicted.getD 1 [])
  match corrector.iterate core.newton.maxIterations (predicted.headD []) guess control with
  | (.error cause, control) => ⟨.error cause, history, control⟩
  | (.ok none, control) => ⟨.ok .notConverged, history, control⟩
  | (.ok (some (state, derivatives)), control) =>
    match core.system.evaluate time state derivatives with
    | .error cause => ⟨.error (.evaluation cause), history, control⟩
    | .ok residual =>
      let error := localError settings core.algebraic order weights residual state
        (predicted.headD [])
      if error ≤ 1 then
        ⟨.ok (.accepted error state derivatives),
          history.accept core.algebraic factors predicted state, control⟩
      else ⟨.ok (.rejected error), history, control⟩

end ImplicitDynamics.Bdf
