import ImplicitDynamics.Proofs.BdfHistory
import ImplicitDynamics.Proofs.BdfStart

/-!
# The turns of a run

A turn is one attempt and what the run makes of it.  The courses that a run
passes through are reached by turns from the one it sets out with, and what a
single turn preserves holds at all of them.

The list of turns, the latest first, tells how the run came to a course.  The
counters of the history are functions of it, which is how the conditions for a
higher order become conditions on the past.
-/

namespace ImplicitDynamics

noncomputable section

namespace Bdf

variable {σ : Type} {algebraic : List Bool} {settings : BdfSettings ℝ} {history : History ℝ}
  {state derivatives : List ℝ} {around : Surroundings ℝ σ} {start stop : ℝ}

/-- Attempts that correct the history by the formula when they accept, and leave
it alone when they do not.  How they end is open. -/
structure Lawful (algebraic : List Bool) (attempt : History ℝ → ℝ → σ → AttemptRun ℝ σ) : Prop
    extends Restrained attempt where
  accepted : ∀ {history time s error state derivatives}, history.Shaped algebraic.length →
    1 ≤ history.order →
    (attempt history time s).result = .ok (.accepted error state derivatives) →
      Corrects algebraic history state derivatives (attempt history time s).history
  otherwise : ∀ {history time s},
    (∀ error state derivatives,
      (attempt history time s).result ≠ .ok (.accepted error state derivatives)) →
      (attempt history time s).history = history

theorem attempt_lawful {core : Core ℝ} (settings : BdfSettings ℝ)
    (hsystem : core.system.FillsBuffer)
    (hdimension : core.system.dimension = core.algebraic.length) :
    Lawful core.algebraic (Bdf.attempt core settings) where
  toRestrained := attempt_restrained core settings
  accepted hshaped horder hresult := attempt_corrects hsystem hdimension hshaped horder hresult
  otherwise hresult := attempt_not_accepted hresult

/-- An attempt that accepts the prediction as it stands. -/
def trusting (algebraic : List Bool) (history : History ℝ) (_ : ℝ) (s : σ) : AttemptRun ℝ σ :=
  let state := history.predict.headD []
  let derivatives := predictedDerivatives algebraic history.step (history.predict.getD 1 [])
  ⟨.ok (.accepted 0 state derivatives),
    history.accept algebraic (coefficients history.order) history.predict state, s⟩

theorem trusting_lawful (algebraic : List Bool) :
    Lawful algebraic (trusting algebraic : History ℝ → ℝ → σ → AttemptRun ℝ σ) where
  step _ _ _ := rfl
  failures _ _ _ := rfl
  notStalled := nofun
  accepted := by
    intro history time s error state derivatives hshaped horder hresult
    cases hresult
    obtain ⟨states, slopes, rest, hpredict, hstates, hslopes⟩ := hshaped.exists_predict_eq horder
    unfold trusting
    rw [hpredict]
    refine ⟨by rw [hpredict], hstates, by simp [predictedDerivatives, hslopes], ?_, ?_⟩
    · intro i hi hflag
      rw [List.getD_cons_succ, List.getD_cons_zero, List.headD_cons, hpredict, entry_cons_succ,
        entry_cons_zero, entry_cons_zero, getD_predictedDerivatives history.step hi hslopes, hflag,
        sub_self, mul_zero, add_zero]
      rfl
    · intro i hi hflag
      rw [List.getD_cons_succ, List.getD_cons_zero,
        getD_predictedDerivatives history.step hi hslopes, hflag]
      rfl
  otherwise hresult := absurd rfl (hresult _ _ _)

def History.failed (history : History ℝ) : History ℝ :=
  { history with consecutiveFailures := history.consecutiveFailures + 1 }

def History.succeeded (history : History ℝ) : History ℝ :=
  { history with consecutiveFailures := 0, stepsAtOrder := history.stepsAtOrder + 1 }

theorem plan_history (settings : BdfSettings ℝ) (stop : ℝ) (course : Course ℝ σ) :
    (plan settings stop course).2.2 = course.history ∨
      ∃ ratio, (plan settings stop course).2.2 = course.history.rescale ratio := by
  unfold plan
  simp only
  split
  · exact .inl rfl
  · exact .inr ⟨_, rfl⟩

/-- The order after an accepted step is the same, or it is set to the next or
the one before. -/
theorem afterAccepted_cases (settings : BdfSettings ℝ) (h error : ℝ) (history : History ℝ) :
    ∃ ratio,
      afterAccepted settings h error history = history.succeeded.rescale ratio ∨
      (afterAccepted settings h error history =
          (history.succeeded.setOrder (history.order + 1)).rescale ratio ∧
        history.consecutiveFailures = 0 ∧ history.order < settings.maxOrder ∧
        history.order < history.stepsAtOrder + 1) ∨
      (afterAccepted settings h error history =
          (history.succeeded.setOrder (history.order - 1)).rescale ratio ∧
        1 < history.order) := by
  refine ⟨nextStep settings h error history.order / h, ?_⟩
  unfold afterAccepted nextOrder
  simp only
  split
  · next hraise =>
    simp only [Bool.and_eq_true, Bool.not_eq_true', decide_eq_true_eq, decide_eq_false_iff_not,
      Nat.not_lt, Nat.le_zero] at hraise
    exact .inr (.inl ⟨rfl, hraise.1.1.1, hraise.1.2, hraise.2⟩)
  · split
    · next hlower =>
      simp only [Bool.and_eq_true, decide_eq_true_eq] at hlower
      exact .inr (.inr ⟨rfl, hlower.2⟩)
    · exact .inl rfl

/-- The order after a failure is the same, or it is set to one. -/
theorem afterFailure_cases {time h : ℝ} {next : History ℝ}
    (hnext : afterFailure settings time h history = .ok next) :
    next = history.failed.rescale (1 / 2) ∨
      (next = (history.failed.setOrder 1).rescale (1 / 2) ∧ 1 < history.order) := by
  unfold afterFailure at hnext
  simp only at hnext
  split at hnext
  · cases hnext
  · split at hnext
    · cases hnext
    · cases hnext
      rw [Exact.half_eq]
      split
      · next hreset =>
        simp only [Bool.and_eq_true, decide_eq_true_eq] at hreset
        exact .inr ⟨rfl, hreset.2⟩
      · exact .inl rfl

theorem Describes.failed (hdescribes : Describes algebraic history state derivatives) :
    Describes algebraic history.failed state derivatives :=
  hdescribes.congr rfl rfl rfl

theorem Describes.succeeded (hdescribes : Describes algebraic history state derivatives) :
    Describes algebraic history.succeeded state derivatives :=
  hdescribes.congr rfl rfl rfl

/-! ## Turns -/

/-- What one turn did: whether its attempt was accepted, and the order before
and after. -/
structure Turn where
  accepted : Bool
  before : Nat
  after : Nat

/-- The turn from a course to the next one; accepted steps are logged. -/
def Course.turn (course next : Course ℝ σ) : Turn where
  accepted := decide (course.session.points.size < next.session.points.size)
  before := course.history.order
  after := next.history.order

/-- The courses that a run passes through, each with the turns that led there,
the latest first. -/
inductive Reached (around : Surroundings ℝ σ) (settings : BdfSettings ℝ) (stop : ℝ)
    (first : Course ℝ σ) : List Turn → Course ℝ σ → Prop where
  | start : Reached around settings stop first [] first
  | turn {turns : List Turn} {course next : Course ℝ σ} :
      Reached around settings stop first turns course → course.time < stop →
      advance around settings stop course = .inl next →
      Reached around settings stop first (course.turn next :: turns) next

/-- The number of steps accepted since the order was last set. -/
def acceptedAtOrder : List Turn → Nat
  | [] => 0
  | turn :: earlier =>
    if turn.after = turn.before then
      if turn.accepted then acceptedAtOrder earlier + 1 else acceptedAtOrder earlier
    else 0

/-- The number of failed attempts since a step was accepted. -/
def failedInARow : List Turn → Nat
  | [] => 0
  | turn :: earlier => if turn.accepted then 0 else failedInARow earlier + 1

/-- How a turn may change the order after those before it. -/
inductive Turn.Orderly (turn : Turn) (earlier : List Turn) : Prop where
  | stays : turn.after = turn.before → turn.Orderly earlier
  | rises : turn.accepted = true → (∀ previous ∈ earlier.head?, previous.accepted = true) →
      turn.before + 1 ≤ acceptedAtOrder earlier + 1 → turn.after = turn.before + 1 →
      turn.Orderly earlier
  | falls : turn.after + 1 = turn.before → turn.Orderly earlier
  | restarts : turn.after = 1 → 1 < turn.before → turn.Orderly earlier

theorem accepted_of_failedInARow_eq_zero {turns : List Turn} (hzero : failedInARow turns = 0) :
    ∀ previous ∈ turns.head?, previous.accepted = true := by
  cases turns with
  | nil => simp
  | cons turn earlier =>
      intro previous hprevious
      cases hprevious
      by_contra hfailed
      rw [failedInARow, if_neg hfailed] at hzero
      cases hzero

/-- What is known of a course from the turns that led to it. -/
structure Accounted (algebraic : List Bool) (settings : BdfSettings ℝ) (turns : List Turn)
    (course : Course ℝ σ) : Prop where
  order_le : course.history.order ≤ settings.maxOrder
  accepted : course.history.stepsAtOrder = acceptedAtOrder turns
  failed : course.history.consecutiveFailures = failedInARow turns
  logged : ∃ point, course.session.points.back? = some point ∧ point.time = course.time ∧
    Describes algebraic course.history point.state point.derivatives

theorem plan_describes {course : Course ℝ σ} (settings : BdfSettings ℝ) (stop : ℝ)
    (hdescribes : Describes algebraic course.history state derivatives) :
    let planned := (plan settings stop course).2.2
    Describes algebraic planned state derivatives ∧ planned.order = course.history.order ∧
      planned.stepsAtOrder = course.history.stepsAtOrder ∧
      planned.consecutiveFailures = course.history.consecutiveFailures := by
  intro planned
  rcases plan_history settings stop course with hsame | ⟨ratio, hrescaled⟩
  · rw [show planned = course.history from hsame]
    exact ⟨hdescribes, rfl, rfl, rfl⟩
  · rw [show planned = course.history.rescale ratio from hrescaled]
    exact ⟨hdescribes.rescale ratio, rfl, rfl, rfl⟩

variable {course next : Course ℝ σ} {turns : List Turn} {h error : ℝ}

theorem Accounted.logs {point : Point ℝ} {after : History ℝ} (hvalid : settings.Valid)
    (haccounted : Accounted algebraic settings turns course)
    (hpoints : next.session.points = course.session.points.push point)
    (htime : point.time = next.time) (hnext : next.history = afterAccepted settings h error after)
    (hdescribes : Describes algebraic after point.state point.derivatives)
    (horder : after.order = course.history.order)
    (hsteps : after.stepsAtOrder = course.history.stepsAtOrder)
    (hfailures : after.consecutiveFailures = course.history.consecutiveFailures) :
    Accounted algebraic settings (course.turn next :: turns) next ∧
      (course.turn next).Orderly turns := by
  have haccepted : (course.turn next).accepted = true := by
    apply decide_eq_true
    rw [hpoints, Array.size_push]
    exact Nat.lt_succ_self _
  have hlogged : Describes algebraic next.history point.state point.derivatives →
      ∃ point, next.session.points.back? = some point ∧ point.time = next.time ∧
        Describes algebraic next.history point.state point.derivatives := by
    intro hhistory
    exact ⟨point, by rw [hpoints, Array.back?_push], htime, hhistory⟩
  have hfailed : failedInARow (course.turn next :: turns) = 0 := by
    rw [failedInARow, if_pos haccepted]
  have hmax := haccounted.order_le
  have hhighest := hvalid.maxOrder_le
  have hcounted := haccounted.accepted
  obtain ⟨ratio, hsame | ⟨hraised, hclear, hlow, hcount⟩ | ⟨hlowered, hgt⟩⟩ :=
    afterAccepted_cases settings h error after
  · rw [hsame] at hnext
    have hstays : (course.turn next).after = (course.turn next).before := by
      change next.history.order = course.history.order
      rw [hnext]
      exact horder
    refine ⟨⟨hstays.trans_le hmax, ?_, ?_, hlogged ?_⟩, .stays hstays⟩
    · rw [acceptedAtOrder, if_pos hstays, if_pos haccepted, ← hcounted, ← hsteps, hnext]
      rfl
    · rw [hfailed, hnext]
      rfl
    · rw [hnext]
      exact hdescribes.succeeded.rescale ratio
  · -- the order rises: the counters say that the turns before allow it
    rw [hraised] at hnext
    have hrises : (course.turn next).after = (course.turn next).before + 1 := by
      change next.history.order = course.history.order + 1
      rw [hnext, ← horder]
      rfl
    have hclean : failedInARow turns = 0 := by
      rw [← haccounted.failed, ← hfailures, hclear]
    refine ⟨⟨?_, ?_, ?_, hlogged ?_⟩,
      .rises haccepted (accepted_of_failedInARow_eq_zero hclean) ?_ hrises⟩
    · have hafter : next.history.order = course.history.order + 1 := hrises
      omega
    · rw [acceptedAtOrder, if_neg (by omega), hnext]
      rfl
    · rw [hfailed, hnext]
      rfl
    · rw [hnext]
      exact (hdescribes.succeeded.setOrder (by omega) (by omega)).rescale ratio
    · have hbefore : (course.turn next).before = course.history.order := rfl
      omega
  · rw [hlowered] at hnext
    have hfalls : (course.turn next).after + 1 = (course.turn next).before := by
      change next.history.order + 1 = course.history.order
      rw [hnext, ← horder]
      exact Nat.sub_add_cancel hgt.le
    refine ⟨⟨?_, ?_, ?_, hlogged ?_⟩, .falls hfalls⟩
    · have hafter : next.history.order + 1 = course.history.order := hfalls
      omega
    · rw [acceptedAtOrder, if_neg (by omega), hnext]
      rfl
    · rw [hfailed, hnext]
      rfl
    · rw [hnext]
      exact (hdescribes.succeeded.setOrder (by omega) (by omega)).rescale ratio

theorem Accounted.fails {time : ℝ} {point : Point ℝ}
    (haccounted : Accounted algebraic settings turns course)
    (hpoints : next.session.points = course.session.points)
    (hback : course.session.points.back? = some point) (htime : point.time = next.time)
    (hnext : afterFailure settings time h history = .ok next.history)
    (hdescribes : Describes algebraic history point.state point.derivatives)
    (horder : history.order = course.history.order)
    (hsteps : history.stepsAtOrder = course.history.stepsAtOrder)
    (hfailures : history.consecutiveFailures = course.history.consecutiveFailures) :
    Accounted algebraic settings (course.turn next :: turns) next ∧
      (course.turn next).Orderly turns := by
  have hrejected : ¬ (course.turn next).accepted = true := by
    have hsize : ¬ course.session.points.size < next.session.points.size := by
      rw [hpoints]
      exact Nat.lt_irrefl _
    exact fun haccepted => hsize (of_decide_eq_true haccepted)
  have hlogged : Describes algebraic next.history point.state point.derivatives →
      ∃ point, next.session.points.back? = some point ∧ point.time = next.time ∧
        Describes algebraic next.history point.state point.derivatives := by
    intro hhistory
    exact ⟨point, by rw [hpoints, hback], htime, hhistory⟩
  have hfailed : failedInARow (course.turn next :: turns) = history.consecutiveFailures + 1 := by
    rw [failedInARow, if_neg hrejected, ← haccounted.failed, hfailures]
  have hmax := haccounted.order_le
  have hcounted := haccounted.accepted
  rcases afterFailure_cases hnext with hsame | ⟨hreset, hgt⟩
  · have hstays : (course.turn next).after = (course.turn next).before := by
      change next.history.order = course.history.order
      rw [hsame]
      exact horder
    refine ⟨⟨hstays.trans_le hmax, ?_, ?_, hlogged ?_⟩, .stays hstays⟩
    · rw [acceptedAtOrder, if_pos hstays, if_neg hrejected, ← hcounted, ← hsteps, hsame]
      rfl
    · rw [hfailed, hsame]
      rfl
    · rw [hsame]
      exact hdescribes.failed.rescale _
  · have hone : (course.turn next).after = 1 := by
      change next.history.order = 1
      rw [hreset]
      rfl
    have hbefore : 1 < (course.turn next).before := by
      rw [horder] at hgt
      exact hgt
    refine ⟨⟨?_, ?_, ?_, hlogged ?_⟩, .restarts hone hbefore⟩
    · have hafter : next.history.order = 1 := hone
      omega
    · rw [acceptedAtOrder, if_neg (by omega), hreset]
      rfl
    · rw [hfailed, hreset]
      rfl
    · rw [hreset]
      exact (hdescribes.failed.setOrder le_rfl (by decide)).rescale _

theorem Accounted.advance (hvalid : settings.Valid) (hlawful : Lawful algebraic around.attempt)
    (hsteady : Steady around settings start stop course)
    (haccounted : Accounted algebraic settings turns course) (hlt : course.time < stop)
    (hnext : Bdf.advance around settings stop course = .inl next) :
    Accounted algebraic settings (course.turn next :: turns) next ∧
      (course.turn next).Orderly turns := by
  obtain ⟨point, hback, htime, hdescribes⟩ := haccounted.logged
  obtain ⟨hplanned, horder, hsteps, hfailures⟩ := plan_describes settings stop hdescribes
  have hadvanced := advance_advanced around settings stop course
  rw [hnext] at hadvanced
  cases hadvanced with
  | accepted s error state derivatives _ hresult =>
      have hcorrects : Corrects algebraic (plan settings stop course).2.2 state derivatives
          (course.attempt around settings stop s).history :=
        hlawful.accepted hplanned.shaped hplanned.order_pos hresult
      have hstep : (plan settings stop course).2.2.step ≠ 0 := by
        have hplan := plan_planned hvalid hlt hsteady.minStep_le hsteady.step_le
        rw [hplan.history_step]
        exact hplan.step_pos.ne'
      exact haccounted.logs hvalid (Course.points_accept _ _ _ _ _ _ _ _ _ _) rfl rfl
        (hcorrects.describes hplanned hstep) (hcorrects.order_eq.trans horder)
        (hcorrects.stepsAtOrder_eq.trans hsteps)
        (hcorrects.consecutiveFailures_eq.trans hfailures)
  | retried s history _ hresult hfailure =>
      have hsame : (course.attempt around settings stop s).history =
          (plan settings stop course).2.2 := hlawful.otherwise hresult
      rw [hsame] at hfailure
      exact haccounted.fails rfl hback htime hfailure hplanned horder hsteps hfailures

/-! ## A whole run -/

/-- What holds of a course that a run passes through. -/
structure Faithful (algebraic : List Bool) (settings : BdfSettings ℝ) (turns : List Turn)
    (course : Course ℝ σ) : Prop where
  order_pos : 1 ≤ course.history.order
  order_le : course.history.order ≤ settings.maxOrder
  shaped : course.history.Shaped algebraic.length
  still : ∀ i < algebraic.length, algebraic.getD i false = true → ∀ j, 1 ≤ j →
    entry course.history.columns j i = 0
  logged : ∃ point, course.session.points.back? = some point ∧ point.time = course.time ∧
    course.history.columns.getD 0 [] = point.state ∧
    course.history.columns.getD 1 [] =
      point.derivatives.map fun slope => course.history.step * slope
  orderly : ∀ turn earlier, turns = turn :: earlier → turn.Orderly earlier

theorem Accounted.faithful (haccounted : Accounted algebraic settings turns course)
    (horderly : ∀ turn earlier, turns = turn :: earlier → turn.Orderly earlier) :
    Faithful algebraic settings turns course := by
  obtain ⟨point, hback, htime, hdescribes⟩ := haccounted.logged
  refine ⟨hdescribes.order_pos, haccounted.order_le, hdescribes.shaped, ?_, ?_, horderly⟩
  · exact fun i hi hflag j hj => hdescribes.still hi hflag hj
  · exact ⟨point, hback, htime, hdescribes.column_zero, hdescribes.column_one⟩

variable {first : Course ℝ σ}

/-- The turns of a run are paid out of its budget. -/
theorem Reached.steady (hvalid : settings.Valid) (hrestrained : Restrained around.attempt)
    (hsteady : Steady around settings start stop first)
    (hreached : Reached around settings stop first turns course) :
    Steady around settings start stop course ∧
      budget settings stop course + turns.length ≤ budget settings stop first := by
  induction hreached with
  | start => exact ⟨hsteady, Nat.le_refl _⟩
  | turn _ hlt hnext ih =>
      obtain ⟨hsteady, hpaid⟩ := ih
      obtain ⟨hadvanced, hless⟩ := (hsteady.advance hvalid hrestrained hlt).1 _ hnext
      rw [List.length_cons]
      exact ⟨hadvanced, by omega⟩

theorem Reached.accounted (hvalid : settings.Valid) (hlawful : Lawful algebraic around.attempt)
    (hsteady : Steady around settings start stop first)
    (hfirst : Accounted algebraic settings [] first)
    (hreached : Reached around settings stop first turns course) :
    Accounted algebraic settings turns course ∧
      ∀ turn earlier, turns = turn :: earlier → turn.Orderly earlier := by
  induction hreached with
  | start => exact ⟨hfirst, nofun⟩
  | turn hreached hlt hnext ih =>
      have hcourse := (hreached.steady hvalid hlawful.toRestrained hsteady).1
      obtain ⟨hadvanced, horderly⟩ := ih.1.advance hvalid hlawful hcourse hlt hnext
      refine ⟨hadvanced, ?_⟩
      intro turn earlier hcons
      cases hcons
      exact horderly

theorem setOut_accounted {point : Point ℝ} (hvalid : settings.Valid)
    (hstate : point.state.length = algebraic.length)
    (hderivatives : point.derivatives.length = algebraic.length)
    (hstill : ∀ {i}, algebraic.getD i false = true → point.derivatives.getD i 0 = 0) (s : σ) :
    Accounted algebraic settings [] (setOut settings point s) where
  order_le := hvalid.maxOrder_pos
  accepted := rfl
  failed := rfl
  logged := ⟨point, rfl, rfl, start_describes hstate hderivatives hstill⟩

/-- A run ends where it has got to by turns. -/
theorem Reached.follow (hreached : Reached around settings stop first turns course) (fuel : Nat) :
    ∃ turns last, Reached around settings stop first turns last ∧
      (Bdf.follow around settings stop fuel course = ⟨.ok .completed, last.session⟩ ∨
        (last.time < stop ∧ Bdf.advance around settings stop last =
          .inr (Bdf.follow around settings stop fuel course)) ∨
        Bdf.follow around settings stop fuel course =
          ⟨.error (.stalled last.time), last.session⟩) := by
  induction fuel generalizing turns course with
  | zero => exact ⟨turns, course, hreached, .inr (.inr rfl)⟩
  | succ fuel ih =>
      rw [Bdf.follow]
      split
      · next hlt =>
        split
        · next next hnext => exact ih (hreached.turn hlt hnext)
        · next run hrun => exact ⟨turns, course, hreached, .inr (.inl ⟨hlt, hrun⟩)⟩
      · exact ⟨turns, course, hreached, .inl rfl⟩

theorem integrate_reached (around : Surroundings ℝ σ) (settings : BdfSettings ℝ) (stop : ℝ)
    (point : Point ℝ) (s : σ) :
    ∃ turns last, Reached around settings stop (setOut settings point s) turns last ∧
      (integrate around settings stop point s = ⟨.ok .completed, last.session⟩ ∨
        (last.time < stop ∧
          Bdf.advance around settings stop last = .inr (integrate around settings stop point s)) ∨
        integrate around settings stop point s = ⟨.error (.stalled last.time), last.session⟩) :=
  Reached.start.follow _

end Bdf

namespace BdfIntegrator

/-- The courses of the loop when attempts end as `attempt` says. -/
structure Reached (integrator : BdfIntegrator ℝ)
    (attempt : Bdf.History ℝ → ℝ → Control → Bdf.AttemptRun ℝ Control)
    (told : ProgressEvent ℝ → Control → Control) (control : Control) (turns : List Bdf.Turn)
    (course : Bdf.Course ℝ Control) : Prop where
  initialized : integrator.core.initialized = true
  first : (integrator.first control).result = .ok ()
  turns : Bdf.Reached { integrator.surroundings told with attempt } integrator.settings
    integrator.core.config.stop
    (Bdf.setOut integrator.settings (integrator.first control).point
      (integrator.first control).control) turns course

variable {integrator : BdfIntegrator ℝ}

theorem Reached.faithful (hready : integrator.Ready)
    {attempt : Bdf.History ℝ → ℝ → Control → Bdf.AttemptRun ℝ Control}
    (hlawful : Bdf.Lawful integrator.core.algebraic attempt)
    {told : ProgressEvent ℝ → Control → Control} {control : Control} {turns : List Bdf.Turn}
    {course : Bdf.Course ℝ Control}
    (hreached : integrator.Reached attempt told control turns course) :
    Bdf.Faithful integrator.core.algebraic integrator.settings turns course := by
  have hvalid := BdfSettings.valid_of_validate hready.settings
  have hsettled := first_settled hreached.first
  have hcount : integrator.core.config.initialState.length = integrator.core.algebraic.length :=
    (Core.length_initialState hready.config).trans hready.flags.symm
  have hlt : (integrator.first control).point.time < integrator.core.config.stop := by
    rw [(integrator.first_spec control).1]
    exact start_lt_stop_of_validate hready.config
  have hsteady := Bdf.setOut_steady { integrator.surroundings told with attempt } hvalid hlt
    (integrator.first control).control
  have hfirst := Bdf.setOut_accounted hvalid (hsettled.state_length.trans hcount)
    (hsettled.derivatives_length.trans hcount) hsettled.algebraic
    (integrator.first control).control
  obtain ⟨haccounted, horderly⟩ := hreached.turns.accounted hvalid hlawful hsteady hfirst
  exact haccounted.faithful horderly

/-- At each turn the history describes the last point, and its order obeys the
rules, whatever becomes of the attempts. -/
theorem reached_faithful (hready : integrator.Ready)
    (told : ProgressEvent ℝ → Control → Control) (control : Control) :
    (∀ attempt, Bdf.Lawful integrator.core.algebraic attempt → ∀ turns course,
      integrator.Reached attempt told control turns course →
        Bdf.Faithful integrator.core.algebraic integrator.settings turns course) ∧
    ∀ turns course,
      integrator.Reached (Bdf.attempt integrator.core integrator.settings) told control turns
          course →
        Bdf.Faithful integrator.core.algebraic integrator.settings turns course := by
  constructor
  · intro attempt hlawful turns course hreached
    exact hreached.faithful hready hlawful
  · intro turns course hreached
    exact hreached.faithful hready
      (Bdf.attempt_lawful integrator.settings hready.system hready.flags.symm)

theorem reached_faithful_atRest :
    let attempt : Bdf.History ℝ → ℝ → Control → Bdf.AttemptRun ℝ Control := Bdf.trusting [false]
    let told : ProgressEvent ℝ → Control → Control := fun _ control => control
    atRest.Ready ∧ Bdf.Lawful atRest.core.algebraic attempt ∧
      (∃ turn course, atRest.Reached attempt told .fresh [turn] course ∧ turn.accepted = true ∧
        Bdf.Faithful [false] atRest.settings [turn] course) ∧
      ∃ course, atRest.Reached (Bdf.attempt atRest.core atRest.settings) told .fresh [] course ∧
        Bdf.Faithful [false] atRest.settings [] course := by
  intro attempt told
  have hlawful : Bdf.Lawful atRest.core.algebraic attempt := Bdf.trusting_lawful _
  have hresult : (atRest.first .fresh).result = .ok () := by rw [atRest_first]
  obtain ⟨hany, hown⟩ := reached_faithful atRest_ready told .fresh
  have hstart : atRest.Reached (Bdf.attempt atRest.core atRest.settings) told .fresh [] _ :=
    ⟨rfl, hresult, .start⟩
  obtain ⟨next, hnext, hsize⟩ : ∃ next, Bdf.advance { atRest.surroundings told with attempt }
      atRest.settings atRest.core.config.stop
      (Bdf.setOut atRest.settings (atRest.first .fresh).point (atRest.first .fresh).control) =
        .inl next ∧ next.session.points.size = 2 := by
    rw [atRest_first]
    exact ⟨_, rfl, rfl⟩
  have hlt : (atRest.first .fresh).point.time < atRest.core.config.stop := by
    rw [atRest_first]
    exact one_pos
  have hturned : atRest.Reached attempt told .fresh [_] next :=
    ⟨rfl, hresult, .turn .start hlt hnext⟩
  refine ⟨atRest_ready, hlawful, ⟨_, next, hturned, ?_, hany attempt hlawful _ _ hturned⟩,
    _, hstart, hown _ _ hstart⟩
  apply decide_eq_true
  rw [hsize]
  exact Nat.one_lt_two

end BdfIntegrator

end

end ImplicitDynamics
