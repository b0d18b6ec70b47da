import ImplicitDynamics.Integration.Bdf.Attempt

/-!
# Control of step and order

The length of the next step and the order follow from how attempts end.  An
accepted step may raise or lower the order by one and scales the step by what
its error allows, at most twofold either way.  A failed attempt halves the
step; after three failures in a row the order starts again at one.

How an attempt comes to its end is a parameter, so that what holds for any
sequence of attempts can be said of this module alone.
-/

namespace ImplicitDynamics.Bdf

variable {α : Type} [Scalar α]

/-- Failures in a row after which the order drops to one. -/
def orderResetFailures : Nat := 3

/-- The step to take when `remaining` is left of the interval.  A step that
would leave less than the smallest step takes all that is left, or half of it
if that is too long. -/
def fitStep (settings : BdfSettings α) (remaining desired : α) : α :=
  if remaining ≤ desired + settings.minStep then
    if remaining ≤ settings.maxStep then remaining else 0.5 * remaining
  else desired

/-- The order after an accepted step with the given error. -/
def nextOrder (settings : BdfSettings α) (error : α) (recentFailure : Bool)
    (history : History α) : History α :=
  let order := history.order
  if !recentFailure && decide (error < 0.5) && order < settings.maxOrder
      && order < history.stepsAtOrder then history.setOrder (order + 1)
  else if decide (0.9 < error) && 1 < order then history.setOrder (order - 1)
  else history

/-- The factor that an error allows for the next step. -/
def stepFactor (settings : BdfSettings α) (error : α) (order : Nat) : α :=
  if 0 < error then
    settings.safetyFactor * Scalar.pow (1 / error) (1 / Scalar.ofNat (order + 1))
  else 2

def nextStep (settings : BdfSettings α) (h error : α) (order : Nat) : α :=
  Scalar.clamp (h * Scalar.clamp (stepFactor settings error order) 0.5 2)
    settings.minStep settings.maxStep

def afterAccepted (settings : BdfSettings α) (h error : α) (history : History α) : History α :=
  let recentFailure := decide (0 < history.consecutiveFailures)
  let counted :=
    { history with
      consecutiveFailures := 0
      stepsAtOrder := history.stepsAtOrder + 1 }
  (nextOrder settings error recentFailure counted).rescale
    (nextStep settings h error history.order / h)

/-- The history after a failed attempt with a step of length `h`, or the error
that ends the run. -/
def afterFailure (settings : BdfSettings α) (time h : α) (history : History α) :
    Except (SolverError α) (History α) :=
  let counted :=
    { history with consecutiveFailures := history.consecutiveFailures + 1 }
  if settings.maxConsecutiveFailures < counted.consecutiveFailures then
    .error (.tooManyFailures time counted.consecutiveFailures)
  else
    let lowered :=
      if orderResetFailures ≤ counted.consecutiveFailures && 1 < counted.order then
        counted.setOrder 1
      else counted
    if 0.5 * h < settings.minStep then .error (.stepSizeTooSmall time (0.5 * h))
    else .ok (lowered.rescale 0.5)

/-- What a run depends on besides its settings: the look at a control, the
attempt, and what happens when progress is told. -/
structure Surroundings (α σ : Type) where
  proceed : σ → Bool × σ
  attempt : History α → α → σ → AttemptRun α σ
  told : ProgressEvent α → σ → σ
  event? : α → Status α → Option (ProgressEvent α)

variable {σ : Type}

/-- The time, the history and the points of a run. -/
structure Course (α σ : Type) where
  time : α
  history : History α
  session : Session α σ

/-- The step to attempt from here: its length and end, and the history for
it. -/
def plan (settings : BdfSettings α) (stop : α) (course : Course α σ) : α × α × History α :=
  let remaining := stop - course.time
  let h := fitStep settings remaining course.history.step
  let history :=
    if Scalar.same h course.history.step then course.history
    else course.history.rescale (h / course.history.step)
  (h, if remaining ≤ h then stop else course.time + h, history)

/-- Goes on after an accepted step of length `h` to `time`. -/
def Course.accept (course : Course α σ) (around : Surroundings α σ)
    (settings : BdfSettings α) (stop time h error : α) (state derivatives : List α)
    (history : History α) : Course α σ :=
  let next := afterAccepted settings h error history
  let status := .step time stop next.step (some next.order)
  let session := (course.session.log ⟨time, state, derivatives⟩).tell around.told
    (around.event? time status)
  ⟨time, next, session⟩

/-- Makes one attempt: the course goes on, or the run is over. -/
def advance (around : Surroundings α σ) (settings : BdfSettings α) (stop : α)
    (course : Course α σ) : Course α σ ⊕ Run α σ :=
  match around.proceed course.session.around with
  | (false, s) => .inr ⟨.ok .cancelled, { course.session with around := s }⟩
  | (true, s) =>
    let (h, time, history) := plan settings stop course
    let run := around.attempt history time s
    let course := { course with session := { course.session with around := run.around } }
    match run.result with
    | .error cause => .inr (Run.interrupt cause course.session)
    | .ok (.accepted error state derivatives) =>
      .inl (course.accept around settings stop time h error state derivatives run.history)
    | .ok _ =>
      match afterFailure settings course.time h run.history with
      | .error cause => .inr ⟨.error cause, course.session⟩
      | .ok history => .inl { course with history }

/-- Advances until the end of the interval is reached, `fuel` attempts at
most. -/
def follow (around : Surroundings α σ) (settings : BdfSettings α) (stop : α) :
    (fuel : Nat) → Course α σ → Run α σ
  | 0, course => ⟨.error (.stalled course.time), course.session⟩
  | fuel + 1, course =>
    if course.time < stop then
      match advance around settings stop course with
      | .inl next => follow around settings stop fuel next
      | .inr run => run
    else ⟨.ok .completed, course.session⟩

/-- More attempts than any run over a span can make.  Steps are at least the
smallest one or half the largest one, up to rounding. -/
def attemptBound (settings : BdfSettings α) (span : α) : Nat :=
  let shortest := Scalar.min settings.minStep (0.5 * settings.maxStep)
  2 * (Scalar.floor (span / shortest) + 4) * (settings.maxConsecutiveFailures + 1)

/-- The course with which a run sets out. -/
def setOut (settings : BdfSettings α) (first : Point α) (s : σ) : Course α σ :=
  ⟨first.time, History.start first.state first.derivatives
    (Scalar.clamp settings.initialStep settings.minStep settings.maxStep),
    (Session.start s).log first⟩

/-- Integrates from a consistent point to `stop`. -/
def integrate (around : Surroundings α σ) (settings : BdfSettings α) (stop : α)
    (first : Point α) (s : σ) : Run α σ :=
  follow around settings stop (attemptBound settings (stop - first.time))
    (setOut settings first s)

end ImplicitDynamics.Bdf
