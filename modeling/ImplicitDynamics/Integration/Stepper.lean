import ImplicitDynamics.Integration.Checked
import ImplicitDynamics.Integration.FixedStep

/-!
# Steps with working vectors

A method of fixed step keeps vectors from one step to the next, so that it need
not make them anew.  They are only written over: what an earlier step has left in
them, finished or not, is still there when the next one starts.  Positions and
divisors are checked.
-/

namespace ImplicitDynamics

/-- A method of fixed step with its working vectors. -/
inductive Stepper (α : Type) where
  | explicitEuler
  | implicitEuler (previous rates : List α)
  | rungeKutta4 (k1 k2 k3 k4 moved : List α)

namespace Stepper

variable {α : Type} [Scalar α]

def method : Stepper α → FixedStepMethod
  | explicitEuler => .explicitEuler
  | implicitEuler _ _ => .implicitEuler
  | rungeKutta4 _ _ _ _ _ => .rungeKutta4

def vectors : Stepper α → List (List α)
  | explicitEuler => []
  | implicitEuler previous rates => [previous, rates]
  | rungeKutta4 k1 k2 k3 k4 moved => [k1, k2, k3, k4, moved]

/-- A method whose vectors have the given size. -/
def create (method : FixedStepMethod) (size : Nat) : Stepper α :=
  let zeros := List.replicate size 0
  match method with
  | .explicitEuler => explicitEuler
  | .implicitEuler => implicitEuler zeros zeros
  | .rungeKutta4 => rungeKutta4 zeros zeros zeros zeros zeros

/-- A step and what it leaves in the vectors. -/
structure Stepped (α : Type) where
  run : Core.PointRun α
  stepper : Stepper α

/-- Where an implicit step ends, and the rates that it leaves. -/
structure Solved (α : Type) where
  result : Except (SolverError α) (List α)
  rates : List α
  control : Control

variable (allowed : α → Bool)

/-- The rates of change from `previous` to `state` in a step of length `h`. -/
def rates (h : α) (previous state : List α) : Option (List α) :=
  (state.zip previous).mapM fun (value, old) => Checked.divide allowed (value - old) h

/-- The state at the end of an implicit step, with `left` updates to go. -/
def implicitState (core : Core α) (t h : α) (previous : List α) (left : Nat)
    (state kept : List α) (control : Control) : Option (Solved α) := do
  let slopes ← rates allowed h previous state
  let kept := Checked.overwrite slopes kept
  match core.system.evaluate t state kept with
  | .error cause => return ⟨.error (.evaluation cause), kept, control⟩
  | .ok residual =>
    if Linear.l2Norm residual < core.newton.tolerance then return ⟨.ok state, kept, control⟩
    match left with
    | 0 => return ⟨.ok state, kept, control⟩
    | left + 1 =>
      match control.look with
      | (false, control) => return ⟨.error .cancelled, kept, control⟩
      | (true, control) =>
        let probe : Probe α := ⟨core.system, t, state, kept⟩
        let increments := state.map fun v => FiniteDifference.increment v 1
        let weight ← Checked.divide allowed 1 h
        match ← Checked.columns allowed probe residual (List.range state.length)
            (.combined weight) increments control with
        | (.error cause, control) => return ⟨.error (.ofJacobian cause), kept, control⟩
        | (.ok columns, control) =>
          match ← Checked.solve (Linear.rowsOfColumns residual.length columns)
              (residual.map (-·)) with
          | none => return ⟨.ok state, kept, control⟩
          | some updates =>
            implicitState core t h previous left (state.zipWith (· + ·) updates) kept control

def stepImplicit (core : Core α) (kept : List α) (h : α) (point : Point α)
    (control : Control) : Option (Stepped α) := do
  let t := point.time + h
  let predicted := FixedStep.advance core.algebraic h point.state point.derivatives
  let solved ← implicitState allowed core t h point.state core.newton.maxIterations predicted kept
    control
  let stepper := implicitEuler point.state solved.rates
  match solved.result with
  | .error cause => return ⟨⟨.error cause, point, solved.control⟩, stepper⟩
  | .ok state =>
    let slopes ← rates allowed h point.state state
    return ⟨⟨.ok (), ⟨t, state, Core.zeroWhere core.algebraic slopes⟩, solved.control⟩, stepper⟩

/-- The derivatives at a stage, found in `out` at the state in `moved`. -/
def stage (core : Core α) (t scale : α) (state slope moved out : List α) (control : Control) :
    Option (NewtonRun α) := do
  let entries ← (List.range state.length).mapM fun i => do
    let _ ← moved[i]?
    let value ← state[i]?
    if ← core.algebraic[i]? then return value
    let rate ← slope[i]?
    return value + scale * rate
  let out ← Checked.copy slope out
  Checked.resolveDerivatives allowed core ⟨t, Checked.overwrite entries moved, out⟩ control

def weighted (algebraic : List Bool) (h : α) (state k1 k2 k3 k4 : List α) : Option (List α) :=
  (List.range state.length).mapM fun i => do
    let value ← state[i]?
    if ← algebraic[i]? then return value
    let first ← k1[i]?
    let second ← k2[i]?
    let third ← k3[i]?
    let fourth ← k4[i]?
    let gain ← Checked.divide allowed (h * (first + 2 * second + 2 * third + fourth)) 6
    return value + gain

def stepRungeKutta (core : Core α) (k1 k2 k3 k4 moved : List α) (h : α) (point : Point α)
    (control : Control) : Option (Stepped α) := do
  let half := 0.5 * h
  let t := point.time
  let state := point.state
  let k1 ← Checked.copy point.derivatives k1
  let second ← stage allowed core (t + half) half state k1 moved k2 control
  let moved := second.point.state
  let k2 := second.point.derivatives
  match second.result with
  | .error cause =>
    return ⟨⟨.error cause, point, second.control⟩, rungeKutta4 k1 k2 k3 k4 moved⟩
  | .ok _ =>
    let third ← stage allowed core (t + half) half state k2 moved k3 second.control
    let moved := third.point.state
    let k3 := third.point.derivatives
    match third.result with
    | .error cause =>
      return ⟨⟨.error cause, point, third.control⟩, rungeKutta4 k1 k2 k3 k4 moved⟩
    | .ok _ =>
      let fourth ← stage allowed core (t + h) h state k3 moved k4 third.control
      let moved := fourth.point.state
      let k4 := fourth.point.derivatives
      match fourth.result with
      | .error cause =>
        return ⟨⟨.error cause, point, fourth.control⟩, rungeKutta4 k1 k2 k3 k4 moved⟩
      | .ok _ =>
        let next ← weighted allowed core.algebraic h state k1 k2 k3 k4
        let run ← Checked.resolve allowed core ⟨t + h, next, point.derivatives⟩ fourth.control
        return ⟨run, rungeKutta4 k1 k2 k3 k4 moved⟩

def step (core : Core α) (stepper : Stepper α) (h : α) (point : Point α) (control : Control) :
    Option (Stepped α) :=
  match stepper with
  | explicitEuler => do
    let state := FixedStep.advance core.algebraic h point.state point.derivatives
    let run ← Checked.resolve allowed core ⟨point.time + h, state, point.derivatives⟩ control
    return ⟨run, explicitEuler⟩
  | implicitEuler _ kept => stepImplicit allowed core kept h point control
  | rungeKutta4 k1 k2 k3 k4 moved => stepRungeKutta allowed core k1 k2 k3 k4 moved h point control

/-- Takes steps `k`, `k + 1`, … from a point, `left` of them. -/
def steps (core : Core α) (told : ProgressEvent α → Control → Control) (h : α) :
    (left k : Nat) → Stepper α → Point α → Session α Control → Option (Run α Control × Stepper α)
  | 0, _, stepper, _, session => some (⟨.ok .completed, session⟩, stepper)
  | left + 1, k, stepper, point, session =>
    match session.around.look with
    | (false, control) => some (⟨.ok .cancelled, { session with around := control }⟩, stepper)
    | (true, control) => do
      let next := FixedStep.gridTime core.config h k
      let length := next - point.time
      let stepped ← step allowed core stepper length point control
      let session := { session with around := stepped.run.control }
      match stepped.run.result with
      | .error cause => return (Run.interrupt cause session, stepped.stepper)
      | .ok () =>
        let point := { stepped.run.point with time := next }
        let status := .step next core.config.stop length none
        let session := (session.log point).tell told (core.event? next status)
        steps core told h left (k + 1) stepped.stepper point session

def run (core : Core α) (stepper : Stepper α) (told : ProgressEvent α → Control → Control)
    (control : Control) : Option (Run α Control × Stepper α) :=
  match core.ensureInitialized with
  | .error cause => some (⟨.error cause, Session.start control⟩, stepper)
  | .ok () => do
    let config := core.config
    let h ← Checked.divide allowed (config.stop - config.start) (Scalar.ofNat config.intervals)
    let first ← Checked.first allowed core control
    let session : Session α Control := Session.start first.control
    match first.result with
    | .error cause => return (Run.interrupt cause session, stepper)
    | .ok () =>
      steps allowed core told h config.intervals 1 stepper first.point (session.log first.point)

end Stepper

end ImplicitDynamics
