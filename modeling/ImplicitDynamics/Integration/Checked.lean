import ImplicitDynamics.Integration.Bdf.Integrator

/-!
# Checked computations

The computations of the integrators with every position and every divisor checked.
An access outside a vector, a copy between vectors of different lengths and a linear
system that is not square have no result, and neither has a quotient whose divisor
is not `allowed`; whatever would come after them is not done.

The pivots of an elimination, which are compared with a threshold before it divides
by them, are not checked: they may be negative.
-/

namespace ImplicitDynamics.Checked

/-- All divisors are allowed where only positions are checked. -/
def anyDivisor {α : Type} (_ : α) : Bool :=
  true

def positive {α : Type} [Scalar α] (divisor : α) : Bool :=
  0 < divisor

variable {α : Type} [Scalar α]

def select (indices : List Nat) (values : List α) : Option (List α) :=
  indices.mapM fun i => values[i]?

/-- A vector that receives the entries of another one of its length. -/
def copy (source target : List α) : Option (List α) :=
  if target.length = source.length then some source else none

/-- A vector whose first entries are written over; entries for which there is no
place are dropped. -/
def overwrite (entries values : List α) : List α :=
  entries.take values.length ++ values.drop entries.length

def addTo (indices : List Nat) (updates values : List α) : Option (List α) :=
  (indices.zip updates).foldlM
    (fun values (i, d) => if i < values.length then some (values.modify i (· + d)) else none)
    values

def update (unknowns : Unknowns) (indices : List Nat) (updates : List α) (point : Point α) :
    Option (Point α) :=
  match unknowns with
  | .state => (addTo indices updates point.state).map fun state => { point with state }
  | .derivatives =>
    (addTo indices updates point.derivatives).map fun derivatives => { point with derivatives }

/-- The solution of a square system; the inner option is `none` if the matrix is
singular. -/
def solve (matrix : List (List α)) (rightSide : List α) : Option (Option (List α)) :=
  if rightSide.length = matrix.length ∧ ∀ row ∈ matrix, row.length = matrix.length then
    some (Linear.solve matrix rightSide)
  else none

/-- The updates that solve the linearized rows, as in `solve`. -/
def correction (indices : List Nat) (columns : List (List α)) (rows : List α) :
    Option (Option (List α)) := do
  let matrix ← indices.mapM fun i => columns.mapM fun column => column[i]?
  solve matrix (rows.map (-·))

variable (allowed : α → Bool)

def divide (x divisor : α) : Option α :=
  if allowed divisor then some (x / divisor) else none

/-- Differences for coordinates that the probed point has, and whose increments may
be divided by. -/
def columns (probe : Probe α) (base : List α) (indices : List Nat)
    (perturbation : Perturbation α) (increments : List α) (control : Control) :
    Option (Except (JacobianError α) (List (List α)) × Control) :=
  if indices.all fun j =>
      increments[j]?.any allowed && j < probe.state.length && j < probe.derivatives.length then
    some (probe.columns Supervisor.controlled base indices perturbation increments control)
  else none

def iterate (system : ResidualSystem α) (tolerance : α) (unknowns : Unknowns)
    (indices : List Nat) (left iterations : Nat) (point : Point α) (control : Control) :
    Option (NewtonRun α) :=
  match system.evaluate point.time point.state point.derivatives with
  | .error cause => some ⟨.error (.evaluation cause), point, control⟩
  | .ok residual => do
    let rows ← select indices residual
    let norm := Linear.l2Norm rows
    if norm < tolerance then return ⟨.ok ⟨true, iterations, norm, false⟩, point, control⟩
    match left with
    | 0 => return ⟨.ok ⟨false, iterations, norm, false⟩, point, control⟩
    | left + 1 =>
      match control.look with
      | (false, control) => return ⟨.error .cancelled, point, control⟩
      | (true, control) =>
        let probe : Probe α := ⟨system, point.time, point.state, point.derivatives⟩
        let increments := (unknowns.values point).map fun v => FiniteDifference.increment v 1
        match ← columns allowed probe residual indices unknowns.perturbation increments
            control with
        | (.error cause, control) => return ⟨.error (.ofJacobian cause), point, control⟩
        | (.ok columns, control) =>
          match ← correction indices columns rows with
          | none => return ⟨.ok ⟨false, iterations, norm, true⟩, point, control⟩
          | some updates =>
            let point ← update unknowns indices updates point
            iterate system tolerance unknowns indices left (iterations + 1) point control

def newton (system : ResidualSystem α) (settings : NewtonSettings α) (unknowns : Unknowns)
    (indices : List Nat) (point : Point α) (control : Control) : Option (NewtonRun α) :=
  if indices.isEmpty then some ⟨.ok ⟨true, 0, 0, false⟩, point, control⟩
  else
    iterate allowed system settings.tolerance unknowns indices settings.maxIterations 0 point
      control

def resolveAlgebraic (core : Core α) (point : Point α) (control : Control) :
    Option (NewtonRun α) :=
  newton allowed core.system core.newton .state core.algebraicIndices point control

def resolveDerivatives (core : Core α) (point : Point α) (control : Control) :
    Option (NewtonRun α) :=
  newton allowed core.system core.newton .derivatives core.differentialIndices
    { point with derivatives := Core.zeroWhere core.algebraic point.derivatives } control

def resolve (core : Core α) (point : Point α) (control : Control) : Option (Core.PointRun α) := do
  let first ← resolveAlgebraic allowed core point control
  match first.result with
  | .error cause => return ⟨.error cause, first.point, first.control⟩
  | .ok _ =>
    let second ← resolveDerivatives allowed core first.point first.control
    match second.result with
    | .error cause => return ⟨.error cause, second.point, second.control⟩
    | .ok _ => return ⟨.ok (), second.point, second.control⟩

/-- The consistent point at the start of a run. -/
def first (core : Core α) (control : Control) : Option (Core.PointRun α) :=
  let zeros := List.replicate core.config.initialState.length 0
  resolve allowed core ⟨core.config.start, core.config.initialState, zeros⟩ control

/-! ## Attempts of variable order -/

def wrmsNorm (values weights : List α) : Option α := do
  if values.isEmpty then return 0
  let squares ← (values.zip weights).mapM fun entry =>
    (divide allowed entry.1 entry.2).map fun quotient => quotient * quotient
  let mean ← divide allowed (Scalar.sum squares) (Scalar.ofNat values.length)
  return Scalar.sqrt mean

/-- Adds updates to the states and derivatives, which have a flag and an entry
for each of them. -/
def correctPoint (corrector : Bdf.Corrector α) (updates state derivatives : List α) :
    Option (List α × List α) :=
  if (List.range updates.length).all fun i =>
      i < state.length && i < corrector.core.algebraic.length && i < derivatives.length then
    some (corrector.update updates state derivatives)
  else none

def correct (corrector : Bdf.Corrector α) (left : Nat) (state derivatives : List α)
    (control : Control) :
    Option (Except (SolverError α) (Option (List α × List α)) × Control) :=
  match left with
  | 0 => some (.ok none, control)
  | left + 1 =>
    let system := corrector.core.system
    match system.evaluate corrector.time state derivatives with
    | .error cause => some (.error (.evaluation cause), control)
    | .ok residual =>
      match control.look with
      | (false, control) => some (.error .cancelled, control)
      | (true, control) => do
        let probe : Probe α := ⟨system, corrector.time, state, derivatives⟩
        let increments := state.zipWith FiniteDifference.increment corrector.nominal
        match ← columns allowed probe residual (List.range state.length)
            (.combined corrector.alpha) increments control with
        | (.error cause, control) => return (.error (.ofJacobian cause), control)
        | (.ok columns, control) =>
          match ← solve (Linear.rowsOfColumns residual.length columns) (residual.map (-·)) with
          | none => return (.ok none, control)
          | some updates =>
            let (state, derivatives) ← correctPoint corrector updates state derivatives
            let norm ← wrmsNorm allowed updates corrector.weights
            if norm ≤ corrector.settings.correctorTolerance then
              return (.ok (some (state, derivatives)), control)
            correct corrector left state derivatives control

def localError (settings : BdfSettings α) (algebraic : List Bool) (order : Nat)
    (weights residual state predicted : List α) : Option α := do
  let scaled ← (List.range state.length).mapM fun i => do
    if ← algebraic[i]? then
      let row ← residual[i]?
      divide allowed row settings.absoluteTolerance
    else
      let value ← state[i]?
      let guess ← predicted[i]?
      let weight ← weights[i]?
      divide allowed (value - guess) (Scalar.ofNat (order + 1) * weight)
  divide allowed (Linear.l2Norm scaled) (Scalar.sqrt (Scalar.ofNat scaled.length))

def predictedDerivatives (algebraic : List Bool) (h : α) (column : List α) : Option (List α) :=
  (column.zip algebraic).mapM fun (z, isAlgebraic) =>
    if isAlgebraic then some 0 else divide allowed z h

def formula (order : Nat) : Option (List α) :=
  (List.range (min order BdfSettings.highestOrder)).foldlM
    (fun coefficients k =>
      (divide allowed 1 (Scalar.ofNat (k + 1))).map fun factor =>
        Bdf.timesFactor factor coefficients)
    [1]

def coefficients (order : Nat) : Option (List α) :=
  (formula allowed order).map fun given =>
    given ++ List.replicate (BdfSettings.highestOrder + 1 - given.length) 0

/-- Whether column `j` has an entry for variable `i`. -/
def has (columns : List (List α)) (j i : Nat) : Bool :=
  match columns[j]? with
  | none => false
  | some column => i < column.length

/-- The history after a step, which has entries for all variables in the columns
that the order uses. -/
def accept (history : Bdf.History α) (algebraic : List Bool) (factors : List α)
    (predicted : List (List α)) (state : List α) : Option (Bdf.History α) :=
  let used (i : Nat) : Bool :=
    match algebraic[i]? with
    | none => false
    | some true => has history.columns 0 i
    | some false =>
      has predicted 0 i && (List.range (history.order + 1)).all fun j =>
        has history.columns j i && has predicted j i && j < factors.length
  if (List.range state.length).all used then
    some (history.accept algebraic factors predicted state)
  else none

/-- The prediction from the columns up to the order. -/
def predict (history : Bdf.History α) : Option (List (List α)) :=
  if history.order < history.columns.length then some history.predict else none

def attempt (core : Core α) (settings : BdfSettings α) (history : Bdf.History α) (time : α)
    (control : Control) : Option (Bdf.AttemptRun α Control) := do
  let order := history.order
  let h := history.step
  let factors : List α ← coefficients allowed order
  let leading ← factors[1]?
  let _ ← history.columns[0]?
  let weights := history.weights settings
  let predicted ← predict history
  let states ← predicted[0]?
  let slopes ← predicted[1]?
  let alpha ← divide allowed leading h
  let corrector : Bdf.Corrector α :=
    { core, settings, time, weights, alpha
      nominal := history.nominal }
  let guess ← predictedDerivatives allowed core.algebraic h slopes
  match ← correct allowed corrector core.newton.maxIterations states guess control with
  | (.error cause, control) => return ⟨.error cause, history, control⟩
  | (.ok none, control) => return ⟨.ok .notConverged, history, control⟩
  | (.ok (some (state, derivatives)), control) =>
    match core.system.evaluate time state derivatives with
    | .error cause => return ⟨.error (.evaluation cause), history, control⟩
    | .ok residual =>
      let error ← localError allowed settings core.algebraic order weights residual state states
      if error ≤ 1 then
        let next ← accept history core.algebraic factors predicted state
        return ⟨.ok (.accepted error state derivatives), next, control⟩
      return ⟨.ok (.rejected error), history, control⟩

/-! ## Control of step and order -/

def stepFactor (settings : BdfSettings α) (error : α) (order : Nat) : Option α := do
  if 0 < error then
    let inverse ← divide allowed 1 error
    let exponent ← divide allowed 1 (Scalar.ofNat (order + 1))
    return settings.safetyFactor * Scalar.pow inverse exponent
  return 2

def nextStep (settings : BdfSettings α) (h error : α) (order : Nat) : Option α :=
  (stepFactor allowed settings error order).map fun factor =>
    Scalar.clamp (h * Scalar.clamp factor 0.5 2) settings.minStep settings.maxStep

def afterAccepted (settings : BdfSettings α) (h error : α) (history : Bdf.History α) :
    Option (Bdf.History α) := do
  let recentFailure := decide (0 < history.consecutiveFailures)
  let counted :=
    { history with
      consecutiveFailures := 0
      stepsAtOrder := history.stepsAtOrder + 1 }
  let next ← nextStep allowed settings h error history.order
  let ratio ← divide allowed next h
  return (Bdf.nextOrder settings error recentFailure counted).rescale ratio

def plan (settings : BdfSettings α) (stop : α) (course : Bdf.Course α Control) :
    Option (α × α × Bdf.History α) := do
  let remaining := stop - course.time
  let h := Bdf.fitStep settings remaining course.history.step
  let time := if remaining ≤ h then stop else course.time + h
  if Scalar.same h course.history.step then return (h, time, course.history)
  let ratio ← divide allowed h course.history.step
  return (h, time, course.history.rescale ratio)

def goOn (integrator : BdfIntegrator α) (told : ProgressEvent α → Control → Control)
    (stop time h error : α) (state derivatives : List α) (history : Bdf.History α)
    (course : Bdf.Course α Control) : Option (Bdf.Course α Control) := do
  let next ← afterAccepted allowed integrator.settings h error history
  let status := .step time stop next.step (some next.order)
  let session := (course.session.log ⟨time, state, derivatives⟩).tell told
    (integrator.core.event? time status)
  return ⟨time, next, session⟩

def advance (integrator : BdfIntegrator α) (told : ProgressEvent α → Control → Control)
    (stop : α) (course : Bdf.Course α Control) :
    Option (Bdf.Course α Control ⊕ Run α Control) :=
  match course.session.around.look with
  | (false, control) => some (.inr ⟨.ok .cancelled, { course.session with around := control }⟩)
  | (true, control) => do
    let (h, time, history) ← plan allowed integrator.settings stop course
    let run ← attempt allowed integrator.core integrator.settings history time control
    let course := { course with session := { course.session with around := run.around } }
    match run.result with
    | .error cause => return .inr (Run.interrupt cause course.session)
    | .ok (.accepted error state derivatives) =>
      let next ← goOn allowed integrator told stop time h error state derivatives run.history
        course
      return .inl next
    | .ok _ =>
      match Bdf.afterFailure integrator.settings course.time h run.history with
      | .error cause => return .inr ⟨.error cause, course.session⟩
      | .ok history => return .inl { course with history }

def follow (integrator : BdfIntegrator α) (told : ProgressEvent α → Control → Control)
    (stop : α) : (fuel : Nat) → Bdf.Course α Control → Option (Run α Control)
  | 0, course => some ⟨.error (.stalled course.time), course.session⟩
  | fuel + 1, course => do
    if course.time < stop then
      match ← advance allowed integrator told stop course with
      | .inl next => follow integrator told stop fuel next
      | .inr run => return run
    else return ⟨.ok .completed, course.session⟩

def attemptBound (settings : BdfSettings α) (span : α) : Option Nat :=
  let shortest := Scalar.min settings.minStep (0.5 * settings.maxStep)
  (divide allowed span shortest).map fun count =>
    2 * (Scalar.floor count + 4) * (settings.maxConsecutiveFailures + 1)

def run (integrator : BdfIntegrator α) (told : ProgressEvent α → Control → Control)
    (control : Control) : Option (Run α Control) :=
  let core := integrator.core
  let stop := core.config.stop
  let settings := integrator.settings
  match core.ensureInitialized with
  | .error cause => some ⟨.error cause, Session.start control⟩
  | .ok () => do
    let first ← first allowed core control
    match first.result with
    | .error cause => return Run.interrupt cause (Session.start first.control)
    | .ok () =>
      let bound ← attemptBound allowed settings (stop - first.point.time)
      follow allowed integrator told stop bound (Bdf.setOut settings first.point first.control)

end ImplicitDynamics.Checked
