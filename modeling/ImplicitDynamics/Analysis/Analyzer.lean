import ImplicitDynamics.Analysis.Spectrum
import ImplicitDynamics.Linear.Norm
import ImplicitDynamics.Structure.Components
import ImplicitDynamics.Structure.Cycles
import ImplicitDynamics.Structure.Index

/-!
# The analysis of a system at a point

An analysis goes through its stages in a fixed order.  Before each it looks at
its control, and then it tells that the stage begins.  Whoever listens may
cancel in response to an event.  If the Jacobian cannot be evaluated the
analysis goes on without its numbers.
-/

namespace ImplicitDynamics

/-- The control of an analysis and the events told so far. -/
structure Observation (α : Type) where
  control : Control
  events : List (AnalysisEvent α)

/-- A part of an analysis: it goes on with a result or fails, and leaves its
observation in either case. -/
abbrev Observed (α β : Type) := ExceptT (AnalysisError α) (StateM (Observation α)) β

namespace Observation

variable {α : Type}

/-- Tells an event; `react` says whether the listener cancels. -/
def tell (react : AnalysisEvent α → Bool) (event : AnalysisEvent α)
    (observation : Observation α) : Observation α :=
  { control := if react event then observation.control.cancel else observation.control
    events := observation.events ++ [event] }

def look (observation : Observation α) : Bool × Observation α :=
  let (active, control) := observation.control.look
  (active, { observation with control })

end Observation

namespace Analyzer

variable {α : Type} [Scalar α]

def checkpoint : Observed α Unit := do
  let observation ← get
  let (active, next) := observation.look
  set next
  unless active do throw .cancelled

def tell (react : AnalysisEvent α → Bool) (stage : AnalysisStage) (percentage : α)
    (message : String) : Observed α Unit :=
  modify (Observation.tell react ⟨stage, percentage, message⟩)

def enter (react : AnalysisEvent α → Bool) (stage : AnalysisStage) (percentage : α)
    (message : String) : Observed α Unit := do
  checkpoint
  tell react stage percentage message

/-- Runs a sweep over coordinates as a part of an analysis. -/
def swept {β : Type} (sweep : Observation α → Except (JacobianError α) β × Observation α) :
    Observed α (Except (EvalError α) β) := do
  let (result, observation) := sweep (← get)
  set observation
  match result with
  | .ok value => return .ok value
  | .error (.evaluation cause) => return .error cause
  | .error .cancelled => throw .cancelled

def orThrow {β : Type} (result : Except (EvalError α) β) : Observed α β :=
  match result with
  | .ok value => return value
  | .error cause => throw (.evaluation cause)

/-- Looks at the control before each column and tells nothing. -/
def quiet : Supervisor (Observation α) where
  proceed := Observation.look
  completed _ _ observation := observation

/-- Looks at the control before each column, and tells after it how many of the
columns of both Jacobians are done; `before` of them belong to the first. -/
def jacobianProgress (react : AnalysisEvent α → Bool) (before : Nat) :
    Supervisor (Observation α) where
  proceed := Observation.look
  completed finished total observation :=
    let done := before + finished
    let all := 2 * total
    let percentage : α := 40 + 40 * Scalar.ofNat done / Scalar.ofNat all
    Observation.tell react ⟨.jacobian, percentage, s!"Jacobian column {done}/{all}"⟩ observation

/-- The Jacobians with respect to the state and to the derivatives. -/
def jacobians (react : AnalysisEvent α → Bool) (probe : Probe α) (h : α) :
    Observed α (Except (EvalError α) (List (List α) × List (List α))) := do
  match probe.residual with
  | .error cause => return .error cause
  | .ok base =>
    match ← swept (probe.square (jacobianProgress react 0) base .state h) with
    | .error cause => return .error cause
    | .ok fy =>
      match ← swept (probe.square (jacobianProgress react base.length) base .derivative h) with
      | .error cause => return .error cause
      | .ok fyp => return .ok (fy, fyp)

def spectrum (settings : AnalyzerSettings α) (react : AnalysisEvent α → Bool)
    (probe : Probe α) (algebraic : List Bool) :
    Observed α (Conditioning α × List (Linear.Eigenvalue α)) := do
  let h := Scalar.sqrt settings.jacobianTolerance * Scalar.max (Linear.l2Norm probe.state) 1
  match ← jacobians react probe h with
  | .error _ => return (.unavailable, [])
  | .ok (fy, fyp) =>
    let jacobian := fy.zipWith (fun a b => a.zipWith (· + ·) b) fyp
    let conditioning := Spectrum.conditioning settings.singularThreshold jacobian
    enter react .spectrum 85 "Computing eigenvalues"
    let matrix := (Spectrum.reducedJacobian fy fyp algebraic).getD
      (Linear.rowsOfColumns algebraic.length jacobian)
    return (conditioning, Linear.eigenvalues matrix)

/-- Lists for each coordinate the rows that react to it. -/
def reactingRows (pattern : List (List Bool)) : List (List Nat) :=
  pattern.map fun column =>
    column.zipIdx.filterMap fun (reacts, row) => if reacts then some row else none

/-- All stages of an analysis at a point of the right dimension. -/
def stages (settings : AnalyzerSettings α) (react : AnalysisEvent α → Bool)
    (probe : Probe α) : Observed α (Analysis α) := do
  let h := settings.perturbation
  enter react .dependencies 0 "Building dependency graph"
  let statePattern ← orThrow (← swept (probe.sensitivity quiet .state h))
  let dependencies := DependencyGraph.ofPattern statePattern
  enter react .classification 20 "Classifying variables"
  let algebraic ← orThrow (probe.classify h)
  enter react .index 30 "Determining structural index"
  let derivativePattern ← orThrow (← swept (probe.sensitivity quiet .derivative h))
  let index := StructuralIndex.compute
    ⟨reactingRows statePattern, reactingRows derivativePattern, algebraic⟩ settings.maxIndex
  enter react .jacobian 40 "Computing Jacobian"
  let (conditioning, eigenvalues) ← spectrum settings react probe algebraic
  let stiffnessRatio := Spectrum.stiffnessRatio eigenvalues
  enter react .decomposition 95 "Decomposing system structure"
  let analysis : Analysis α :=
    { index
      algebraic
      dependencies
      cycles := dependencies.cycles
      isStiff := decide (settings.stiffnessThreshold < stiffnessRatio)
      conditioning
      stiffnessRatio
      eigenvalues
      decomposition := ⟨dependencies.stronglyConnectedComponents⟩ }
  tell react .complete 100 "Analysis complete"
  return analysis

/-- Analyses a system at a state and time, with derivatives zero. -/
def run (settings : AnalyzerSettings α) (react : AnalysisEvent α → Bool)
    (system : ResidualSystem α) (state : List α) (time : α) (control : Control) :
    Except (AnalysisError α) (Analysis α) × Observation α :=
  let start : Observation α := ⟨control, []⟩
  let n := system.dimension
  if n = 0 then (.error .emptySystem, start)
  else if state.length ≠ n then (.error (.dimensionMismatch n state.length), start)
  else (stages settings react ⟨system, time, state, List.replicate n 0⟩).run.run start

/-- An analysis that nobody watches. -/
def analyze (settings : AnalyzerSettings α) (system : ResidualSystem α) (state : List α)
    (time : α) : Except (AnalysisError α) (Analysis α) :=
  (run settings (fun _ => false) system state time Control.fresh).1

end Analyzer

end ImplicitDynamics
