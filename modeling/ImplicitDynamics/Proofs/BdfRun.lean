import ImplicitDynamics.Integration.Bdf.Integrator
import ImplicitDynamics.Proofs.NewtonIterations
import ImplicitDynamics.Proofs.StepControl

/-!
# Runs of variable order

One attempt leads from a course to the next one or ends the run.  What an
attempt returns is left open, except that it does not touch the step and the
number of failures.

A course keeps its step within the bounds, and the times that it has logged
march from the start to its current time.  Each attempt uses up some of a
budget, which counts the steps that still fit into the interval and the
failures that each of them may have.  The budget is what bounds the number of
attempts.
-/

namespace ImplicitDynamics

namespace Session

variable {α σ : Type}

def times (session : Session α σ) : List α :=
  session.points.toList.map Point.time

def eventTimes (session : Session α σ) : List α :=
  session.events.toList.map ProgressEvent.time

theorem times_log (session : Session α σ) (point : Point α) :
    (session.log point).times = session.times ++ [point.time] := by
  simp [times, log]

theorem points_tell (session : Session α σ) (told : ProgressEvent α → σ → σ)
    (event? : Option (ProgressEvent α)) : (session.tell told event?).points = session.points := by
  cases event? <;> rfl

theorem times_tell (session : Session α σ) (told : ProgressEvent α → σ → σ)
    (event? : Option (ProgressEvent α)) : (session.tell told event?).times = session.times := by
  rw [times, points_tell, times]

theorem eventTimes_tell (session : Session α σ) (told : ProgressEvent α → σ → σ)
    (event : ProgressEvent α) :
    (session.tell told (some event)).eventTimes = session.eventTimes ++ [event.time] := by
  simp [eventTimes, tell]

end Session

theorem Run.trajectory_eq_ok {α σ : Type} {run : Run α σ} {trajectory : Trajectory α}
    (htrajectory : run.trajectory = .ok trajectory) :
    run.outcome = .ok trajectory.termination ∧ trajectory.times = run.session.times ∧
      trajectory.points = run.session.points := by
  unfold Run.trajectory at htrajectory
  cases houtcome : run.outcome with
  | error cause =>
      rw [houtcome] at htrajectory
      cases htrajectory
  | ok termination =>
      rw [houtcome] at htrajectory
      cases htrajectory
      exact ⟨rfl, rfl, rfl⟩

namespace SolverError

variable {α : Type} {cause : SolverError α}

/-- The errors that come out of a computation at one point. -/
inductive Inner : SolverError α → Prop where
  | evaluation (cause : EvalError α) : Inner (.evaluation cause)
  | cancelled : Inner .cancelled

theorem ofJacobian_inner (cause : JacobianError α) : (ofJacobian cause).Inner := by
  cases cause with
  | evaluation cause => exact .evaluation cause
  | cancelled => exact .cancelled

theorem Inner.ne_stalled (hinner : cause.Inner) (t : α) : cause ≠ .stalled t := by
  cases hinner <;> nofun

end SolverError

namespace Bdf

section Advance

variable {α σ : Type} [Scalar α]

def Course.attempt (course : Course α σ) (around : Surroundings α σ) (settings : BdfSettings α)
    (stop : α) (s : σ) : AttemptRun α σ :=
  around.attempt (plan settings stop course).2.2 (plan settings stop course).2.1 s

def Course.amid (course : Course α σ) (s : σ) : Course α σ :=
  { course with session := { course.session with around := s } }

theorem Course.points_accept (course : Course α σ) (around : Surroundings α σ)
    (settings : BdfSettings α) (stop time h error : α) (state derivatives : List α)
    (history : History α) :
    (course.accept around settings stop time h error state derivatives history).session.points =
      course.session.points.push ⟨time, state, derivatives⟩ :=
  Session.points_tell _ _ _

/-- All that can come of one attempt. -/
inductive Advanced (around : Surroundings α σ) (settings : BdfSettings α) (stop : α)
    (course : Course α σ) : Course α σ ⊕ Run α σ → Prop where
  | cancelled (s : σ) : around.proceed course.session.around = (false, s) →
      Advanced around settings stop course (.inr ⟨.ok .cancelled, (course.amid s).session⟩)
  | interrupted (s : σ) (cause : SolverError α) :
      around.proceed course.session.around = (true, s) →
      (course.attempt around settings stop s).result = .error cause →
      Advanced around settings stop course
        (.inr (Run.interrupt cause
          (course.amid (course.attempt around settings stop s).around).session))
  | accepted (s : σ) (error : α) (state derivatives : List α) :
      around.proceed course.session.around = (true, s) →
      (course.attempt around settings stop s).result = .ok (.accepted error state derivatives) →
      Advanced around settings stop course
        (.inl ((course.amid (course.attempt around settings stop s).around).accept around settings
          stop (plan settings stop course).2.1 (plan settings stop course).1 error state
          derivatives (course.attempt around settings stop s).history))
  | retried (s : σ) (next : History α) :
      around.proceed course.session.around = (true, s) →
      (∀ error state derivatives, (course.attempt around settings stop s).result ≠
        .ok (.accepted error state derivatives)) →
      afterFailure settings course.time (plan settings stop course).1
        (course.attempt around settings stop s).history = .ok next →
      Advanced around settings stop course
        (.inl { course.amid (course.attempt around settings stop s).around with history := next })
  | gaveUp (s : σ) (cause : SolverError α) :
      around.proceed course.session.around = (true, s) →
      afterFailure settings course.time (plan settings stop course).1
        (course.attempt around settings stop s).history = .error cause →
      Advanced around settings stop course
        (.inr ⟨.error cause, (course.amid (course.attempt around settings stop s).around).session⟩)

theorem advance_advanced (around : Surroundings α σ) (settings : BdfSettings α) (stop : α)
    (course : Course α σ) :
    Advanced around settings stop course (advance around settings stop course) := by
  unfold advance
  rcases hproceed : around.proceed course.session.around with ⟨_ | _, s⟩
  · exact .cancelled s hproceed
  · dsimp only
    split
    next cause hresult => exact .interrupted s cause hproceed hresult
    next error state derivatives hresult =>
      exact .accepted s error state derivatives hproceed hresult
    next hother hresult =>
      split
      next cause hfailure => exact .gaveUp s cause hproceed hfailure
      next history hfailure =>
        refine .retried s history hproceed ?_ hfailure
        intro error state derivatives haccepted
        exact hother error state derivatives (Except.ok.inj (hresult.symm.trans haccepted))

end Advance

noncomputable section

variable {σ : Type} {around : Surroundings ℝ σ} {settings : BdfSettings ℝ} {start stop : ℝ}
  {course : Course ℝ σ}

/-- Attempts leave the step and the number of failures of a history alone, and
never say that time has stalled. -/
structure Restrained (attempt : History ℝ → ℝ → σ → AttemptRun ℝ σ) : Prop where
  step : ∀ history time s, (attempt history time s).history.step = history.step
  failures : ∀ history time s,
    (attempt history time s).history.consecutiveFailures = history.consecutiveFailures
  notStalled : ∀ history time s t, (attempt history time s).result ≠ .error (.stalled t)

/-- Every accepted step is told, with its time. -/
def Tells (around : Surroundings ℝ σ) : Prop :=
  ∀ time status, ∃ event, around.event? time status = some event ∧ event.time = time

/-- Times that go from `first` to `last` in positive steps, none longer than
`longest`. -/
structure Marches (first last longest : ℝ) (times : List ℝ) : Prop where
  head : times.head? = some first
  last : times.getLast? = some last
  chain : times.IsChain fun earlier later => earlier < later ∧ later - earlier ≤ longest

theorem Marches.push {first last longest time : ℝ} {times : List ℝ}
    (hmarches : Marches first last longest times) (hlt : last < time)
    (hle : time - last ≤ longest) : Marches first time longest (times ++ [time]) where
  head := by
    rw [List.head?_append, hmarches.head]
    rfl
  last := List.getLast?_concat
  chain := by
    refine List.isChain_append.mpr ⟨hmarches.chain, List.isChain_singleton _, ?_⟩
    intro earlier hearlier later hlater
    rw [hmarches.last] at hearlier
    cases hearlier
    cases hlater
    exact ⟨hlt, hle⟩

theorem Marches.ne_nil {first last longest : ℝ} {times : List ℝ}
    (hmarches : Marches first last longest times) : times ≠ [] := by
  intro hnil
  have hhead := hmarches.head
  rw [hnil] at hhead
  cases hhead

theorem Marches.pairwise {first last longest : ℝ} {times : List ℝ}
    (hmarches : Marches first last longest times) : times.Pairwise (· < ·) :=
  List.IsChain.pairwise (hmarches.chain.imp fun _ _ h => h.1)

/-! ## The invariant of a run -/

/-- The step is within its bounds, and what was logged and told so far leads
from the start to the current time. -/
structure Steady (around : Surroundings ℝ σ) (settings : BdfSettings ℝ) (start stop : ℝ)
    (course : Course ℝ σ) : Prop where
  minStep_le : settings.minStep ≤ course.history.step
  step_le : course.history.step ≤ settings.maxStep
  failures : course.history.consecutiveFailures ≤ settings.maxConsecutiveFailures
  time_le : course.time ≤ stop
  marches : Marches start course.time settings.maxStep course.session.times
  told : Tells around → course.session.eventTimes = course.session.times.tail

/-- How many more attempts a course may make. -/
def budget (settings : BdfSettings ℝ) (stop : ℝ) (course : Course ℝ σ) : Nat :=
  if course.time < stop then
    (⌊(stop - course.time) / settings.shortestStep⌋₊ + 1) *
      (settings.maxConsecutiveFailures + 1) - course.history.consecutiveFailures
  else 0

theorem floor_succ_le {left advanced shortest : ℝ} (hshortest : 0 < shortest)
    (hadvanced : shortest ≤ advanced) (hleft : advanced ≤ left) :
    ⌊(left - advanced) / shortest⌋₊ + 1 ≤ ⌊left / shortest⌋₊ := by
  have hfloor : (⌊(left - advanced) / shortest⌋₊ : ℝ) ≤ (left - advanced) / shortest :=
    Nat.floor_le (div_nonneg (sub_nonneg.mpr hleft) hshortest.le)
  have hone : 1 ≤ advanced / shortest := (one_le_div hshortest).mpr hadvanced
  apply Nat.le_floor
  have hsplit : (left - advanced) / shortest = left / shortest - advanced / shortest :=
    sub_div left advanced shortest
  push_cast
  linarith

/-- Getting on pays for all failures before. -/
theorem budget_lt_of_progress {next : Course ℝ σ} (hvalid : settings.Valid)
    (hlt : course.time < stop)
    (hfailures : course.history.consecutiveFailures ≤ settings.maxConsecutiveFailures)
    (hprogress : next.time = stop ∨ settings.shortestStep ≤ next.time - course.time) :
    budget settings stop next < budget settings stop course := by
  unfold budget
  rw [if_pos hlt]
  by_cases hnext : next.time < stop
  · rw [if_pos hnext]
    have hadvanced := hprogress.resolve_left hnext.ne
    have hfloor := floor_succ_le hvalid.shortestStep_pos hadvanced
      (sub_le_sub_right hnext.le course.time)
    have hleft : stop - course.time - (next.time - course.time) = stop - next.time := by ring
    rw [hleft] at hfloor
    have hmul := Nat.mul_le_mul_right (settings.maxConsecutiveFailures + 1)
      (Nat.add_le_add_right hfloor 1)
    rw [Nat.add_mul _ 1, Nat.one_mul] at hmul
    omega
  · rw [if_neg hnext, Nat.add_mul, Nat.one_mul]
    omega

theorem budget_lt_of_failure {next : Course ℝ σ} (hlt : course.time < stop)
    (htime : next.time = course.time)
    (hcount : next.history.consecutiveFailures = course.history.consecutiveFailures + 1)
    (hfailures : next.history.consecutiveFailures ≤ settings.maxConsecutiveFailures) :
    budget settings stop next < budget settings stop course := by
  unfold budget
  rw [htime, if_pos hlt, if_pos hlt, Nat.add_mul, Nat.one_mul, hcount]
  omega

theorem Steady.accept (hvalid : settings.Valid) (hrestrained : Restrained around.attempt)
    (hsteady : Steady around settings start stop course) (hlt : course.time < stop) (s : σ)
    (error : ℝ) (state derivatives : List ℝ) :
    let next := (course.amid (course.attempt around settings stop s).around).accept around settings
      stop (plan settings stop course).2.1 (plan settings stop course).1 error state derivatives
      (course.attempt around settings stop s).history
    Steady around settings start stop next ∧
      budget settings stop next < budget settings stop course := by
  intro next
  have hplanned : Planned settings stop course (plan settings stop course) :=
    plan_planned hvalid hlt hsteady.minStep_le hsteady.step_le
  have hstep : (course.attempt around settings stop s).history.step =
      (plan settings stop course).1 :=
    (hrestrained.step _ _ _).trans hplanned.history_step
  have hafter := afterAccepted_spec hvalid error hplanned.step_pos hstep
  have htimes : next.session.times =
      course.session.times ++ [(plan settings stop course).2.1] :=
    (Session.times_tell _ _ _).trans (Session.times_log _ _)
  refine ⟨⟨hafter.1, hafter.2.1, hafter.2.2.le.trans (Nat.zero_le _), hplanned.time_le, ?_, ?_⟩,
    budget_lt_of_progress hvalid hlt hsteady.failures hplanned.progress⟩
  · rw [htimes]
    exact hsteady.marches.push hplanned.time_lt hplanned.span_le
  · intro htells
    obtain ⟨event, hevent, htime⟩ := htells (plan settings stop course).2.1
      (.step (plan settings stop course).2.1 stop next.history.step (some next.history.order))
    have htold : next.session.eventTimes =
        course.session.eventTimes ++ [(plan settings stop course).2.1] := by
      have htell : next.session.eventTimes = (((course.amid
          (course.attempt around settings stop s).around).session.log
            ⟨(plan settings stop course).2.1, state, derivatives⟩).tell around.told
              (some event)).eventTimes := by
        rw [← hevent]
        rfl
      rw [htell, Session.eventTimes_tell, htime]
      rfl
    rw [htold, htimes, hsteady.told htells, List.tail_append_of_ne_nil hsteady.marches.ne_nil]

theorem Steady.retry (hvalid : settings.Valid) (hrestrained : Restrained around.attempt)
    (hsteady : Steady around settings start stop course) (hlt : course.time < stop) (s : σ)
    {next : History ℝ}
    (hnext : afterFailure settings course.time (plan settings stop course).1
      (course.attempt around settings stop s).history = .ok next) :
    let retried : Course ℝ σ :=
      { course.amid (course.attempt around settings stop s).around with history := next }
    Steady around settings start stop retried ∧
      budget settings stop retried < budget settings stop course := by
  intro retried
  have hplanned : Planned settings stop course (plan settings stop course) :=
    plan_planned hvalid hlt hsteady.minStep_le hsteady.step_le
  have hstep : (course.attempt around settings stop s).history.step =
      (plan settings stop course).1 :=
    (hrestrained.step _ _ _).trans hplanned.history_step
  have hcounted : (course.attempt around settings stop s).history.consecutiveFailures =
      course.history.consecutiveFailures :=
    (hrestrained.failures _ _ _).trans hplanned.failures
  obtain ⟨hhalf, hmin, hcount, hmax⟩ := afterFailure_spec hstep hnext
  rw [hcounted] at hcount hmax
  have hhalf_le : (plan settings stop course).1 / 2 ≤ settings.maxStep := by
    have hle := hplanned.step_le
    have hpos := hplanned.step_pos
    linarith
  exact ⟨⟨hhalf ▸ hmin, hhalf ▸ hhalf_le, hcount.le.trans hmax, hsteady.time_le,
    hsteady.marches, hsteady.told⟩, budget_lt_of_failure hlt rfl hcount (hcount.le.trans hmax)⟩

structure Finished (around : Surroundings ℝ σ) (settings : BdfSettings ℝ) (start stop : ℝ)
    (run : Run ℝ σ) : Prop where
  marches : ∃ last, Marches start last settings.maxStep run.session.times ∧
    (run.outcome = .ok .completed → last = stop)
  told : Tells around → run.session.eventTimes = run.session.times.tail
  notStalled : ∀ t, run.outcome ≠ .error (.stalled t)

theorem Steady.ended (hsteady : Steady around settings start stop course) (s : σ)
    {outcome : Except (SolverError ℝ) Termination} (houtcome : outcome ≠ .ok .completed)
    (hstalled : ∀ t, outcome ≠ .error (.stalled t)) :
    Finished around settings start stop ⟨outcome, (course.amid s).session⟩ :=
  ⟨⟨course.time, hsteady.marches, fun h => absurd h houtcome⟩, hsteady.told, hstalled⟩

theorem Steady.interrupt (hsteady : Steady around settings start stop course) (s : σ)
    {cause : SolverError ℝ} (hcause : ∀ t, cause ≠ .stalled t) :
    Finished around settings start stop (Run.interrupt cause (course.amid s).session) := by
  cases cause with
  | stalled time => exact absurd rfl (hcause time)
  | _ => exact hsteady.ended s nofun nofun

theorem Steady.advance (hvalid : settings.Valid) (hrestrained : Restrained around.attempt)
    (hsteady : Steady around settings start stop course) (hlt : course.time < stop) :
    (∀ next, Bdf.advance around settings stop course = .inl next →
      Steady around settings start stop next ∧
        budget settings stop next < budget settings stop course) ∧
    (∀ run, Bdf.advance around settings stop course = .inr run →
      Finished around settings start stop run) := by
  have hadvanced := advance_advanced around settings stop course
  generalize Bdf.advance around settings stop course = result at hadvanced
  cases hadvanced with
  | cancelled s _ =>
      refine ⟨nofun, fun run hrun => ?_⟩
      cases hrun
      exact hsteady.ended s nofun nofun
  | interrupted s cause _ hresult =>
      refine ⟨nofun, fun run hrun => ?_⟩
      cases hrun
      exact hsteady.interrupt _ fun t heq => hrestrained.notStalled _ _ _ t (heq ▸ hresult)
  | accepted s error state derivatives _ _ =>
      refine ⟨fun next hnext => ?_, nofun⟩
      cases hnext
      exact hsteady.accept hvalid hrestrained hlt s error state derivatives
  | retried s next _ _ hfailure =>
      refine ⟨fun other hother => ?_, nofun⟩
      cases hother
      exact hsteady.retry hvalid hrestrained hlt s hfailure
  | gaveUp s cause _ hfailure =>
      refine ⟨nofun, fun run hrun => ?_⟩
      cases hrun
      refine hsteady.ended _ nofun fun t heq => ?_
      obtain ⟨rfl, -⟩ | ⟨step, rfl⟩ := afterFailure_error hfailure <;> cases heq

theorem Steady.follow (hvalid : settings.Valid) (hrestrained : Restrained around.attempt)
    (hsteady : Steady around settings start stop course) {fuel : Nat}
    (hfuel : budget settings stop course < fuel) :
    Finished around settings start stop (Bdf.follow around settings stop fuel course) := by
  induction fuel generalizing course with
  | zero => exact absurd hfuel (Nat.not_lt_zero _)
  | succ fuel ih =>
      rw [Bdf.follow]
      split
      · next hlt =>
        have hadvance := hsteady.advance hvalid hrestrained hlt
        split
        · next next hnext =>
          obtain ⟨hsteady, hbudget⟩ := hadvance.1 next hnext
          exact ih hsteady (Nat.lt_of_lt_of_le hbudget (Nat.le_of_lt_succ hfuel))
        · next run hrun => exact hadvance.2 run hrun
      · next hend =>
        have htime : course.time = stop := le_antisymm hsteady.time_le (not_lt.mp hend)
        exact ⟨⟨course.time, hsteady.marches, fun _ => htime⟩, hsteady.told, nofun⟩

/-! ## The whole run -/

theorem attemptBound_eq (settings : BdfSettings ℝ) (span : ℝ) :
    attemptBound settings span =
      2 * (⌊span / settings.shortestStep⌋₊ + 4) * (settings.maxConsecutiveFailures + 1) := rfl

theorem setOut_steady (around : Surroundings ℝ σ) (hvalid : settings.Valid) {first : Point ℝ}
    (hlt : first.time < stop) (s : σ) :
    Steady around settings first.time stop (setOut settings first s) := by
  have hclamp := clamp_mem (x := settings.initialStep) hvalid.minStep_le
  refine ⟨hclamp.1, hclamp.2, Nat.zero_le _, hlt.le, ?_, fun _ => rfl⟩
  exact ⟨rfl, rfl, List.isChain_singleton _⟩

theorem integrate_finished (hvalid : settings.Valid) (hrestrained : Restrained around.attempt)
    {first : Point ℝ} (hlt : first.time < stop) (s : σ) :
    Finished around settings first.time stop (integrate around settings stop first s) := by
  refine (setOut_steady around hvalid hlt s).follow hvalid hrestrained ?_
  have htime : (setOut settings first s).time = first.time := rfl
  have hfailures : (setOut settings first s).history.consecutiveFailures = 0 := rfl
  unfold budget
  rw [htime, hfailures, if_pos hlt, attemptBound_eq, Nat.sub_zero]
  apply Nat.mul_lt_mul_of_pos_right
  · omega
  · exact Nat.succ_pos _

theorem le_of_mem_differences {longest : ℝ} {times : List ℝ}
    (hchain : times.IsChain fun earlier later => earlier < later ∧ later - earlier ≤ longest) :
    ∀ step ∈ times.tail.zipWith (fun later earlier => later - earlier) times,
      step ≤ longest := by
  induction times with
  | nil => simp
  | cons earlier times ih =>
      cases times with
      | nil => simp
      | cons later rest =>
          obtain ⟨hfirst, hrest⟩ := List.isChain_cons_cons.mp hchain
          simp only [List.tail_cons, List.zipWith_cons_cons, List.forall_mem_cons]
          exact ⟨hfirst.2, ih hrest⟩

/-! ## The integrator -/

theorem iterate_inner (corrector : Corrector ℝ) (left : Nat) (state derivatives : List ℝ)
    (control : Control) {cause : SolverError ℝ}
    (hresult : (corrector.iterate left state derivatives control).1 = .error cause) :
    cause.Inner := by
  induction left generalizing state derivatives control with
  | zero => cases hresult
  | succ left ih =>
      rw [Corrector.iterate] at hresult
      simp only at hresult
      split at hresult
      · cases hresult
        exact .evaluation _
      · split at hresult
        · cases hresult
          exact .cancelled
        · split at hresult
          · cases hresult
            exact SolverError.ofJacobian_inner _
          · split at hresult
            · cases hresult
            · split at hresult
              · cases hresult
              · exact ih _ _ _ hresult

theorem attempt_inner (core : Core ℝ) (settings : BdfSettings ℝ) {history : History ℝ} {time : ℝ}
    {control : Control} {cause : SolverError ℝ}
    (hresult : (Bdf.attempt core settings history time control).result = .error cause) :
    cause.Inner := by
  unfold Bdf.attempt at hresult
  simp only at hresult
  split at hresult
  · next hiterate =>
    cases hresult
    exact iterate_inner _ _ _ _ _ (congrArg Prod.fst hiterate)
  · cases hresult
  · split at hresult
    · cases hresult
      exact .evaluation _
    · split at hresult <;> cases hresult

/-- The attempt of the integrator changes the columns of the history only. -/
theorem attempt_restrained (core : Core ℝ) (settings : BdfSettings ℝ) :
    Restrained (Bdf.attempt core settings) where
  step history time control := by
    unfold Bdf.attempt
    simp only
    split
    · rfl
    · rfl
    · split
      · rfl
      · split <;> rfl
  failures history time control := by
    unfold Bdf.attempt
    simp only
    split
    · rfl
    · rfl
    · split
      · rfl
      · split <;> rfl
  notStalled _ _ _ t heq := (attempt_inner core settings heq).ne_stalled t rfl

end

end Bdf

section Start

variable {α : Type} [Scalar α]

theorem Newton.Ends.inner {system : ResidualSystem α} {tolerance : α} {unknowns : Unknowns}
    {indices : List Nat} {allowed : Nat} {start : Point α} {run : NewtonRun α}
    (hends : Ends system tolerance unknowns indices allowed start run) {cause : SolverError α}
    (hresult : run.result = .error cause) : cause.Inner := by
  cases hends with
  | failed =>
      cases hresult
      exact .evaluation _
  | stopped _ _ _ _ hstops =>
      cases hresult
      cases hstops with
      | cancelled => exact .cancelled
      | columns => exact SolverError.ofJacobian_inner _
  | converged => cases hresult
  | exhausted => cases hresult
  | singular => cases hresult

/-- A Newton iteration stays at its time, and its errors are those of the
residual or a cancellation. -/
theorem Newton.solve_spec (system : ResidualSystem α) (settings : NewtonSettings α)
    (unknowns : Unknowns) (indices : List Nat) (point : Point α) (control : Control) :
    (solve system settings unknowns indices point control).point.time = point.time ∧
      ∀ cause, (solve system settings unknowns indices point control).result = .error cause →
        cause.Inner := by
  refine ⟨(solve_spares _ _ _ _ _ _).time, fun cause hcause => ?_⟩
  by_cases hindices : indices = []
  · subst hindices
    cases hcause
  · exact (solve_ends hindices _ _ _ _ _).inner hcause

theorem Core.resolve_spec (core : Core α) (point : Point α) (control : Control) :
    (core.resolve point control).point.time = point.time ∧
      ∀ cause, (core.resolve point control).result = .error cause → cause.Inner := by
  have hfirst := Newton.solve_spec core.system core.newton .state core.algebraicIndices point
    control
  have hsecond : (core.resolveDerivatives (core.resolveAlgebraic point control).point
        (core.resolveAlgebraic point control).control).point.time =
          (core.resolveAlgebraic point control).point.time ∧
      ∀ cause, (core.resolveDerivatives (core.resolveAlgebraic point control).point
        (core.resolveAlgebraic point control).control).result = .error cause → cause.Inner :=
    Newton.solve_spec _ _ _ _ _ _
  unfold resolve
  simp only
  split
  · next cause hcause =>
    refine ⟨hfirst.1, fun _ heq => ?_⟩
    cases heq
    exact hfirst.2 cause hcause
  · split
    · next cause hcause =>
      refine ⟨hsecond.1.trans hfirst.1, fun _ heq => ?_⟩
      cases heq
      exact hsecond.2 cause hcause
    · exact ⟨hsecond.1.trans hfirst.1, nofun⟩

def BdfIntegrator.first (integrator : BdfIntegrator α) (control : Control) : Core.PointRun α :=
  integrator.core.consistentStart integrator.core.config.initialState
    (List.replicate integrator.core.config.initialState.length 0) control

theorem BdfIntegrator.first_spec (integrator : BdfIntegrator α) (control : Control) :
    (integrator.first control).point.time = integrator.core.config.start ∧
      ∀ cause, (integrator.first control).result = .error cause → cause.Inner :=
  Core.resolve_spec _ _ _

/-- A run with other attempts than those of the integrator. -/
def BdfIntegrator.runWith (integrator : BdfIntegrator α)
    (attempt : Bdf.History α → α → Control → Bdf.AttemptRun α Control)
    (told : ProgressEvent α → Control → Control) (control : Control) : Run α Control :=
  match integrator.core.ensureInitialized with
  | .error cause => ⟨.error cause, Session.start control⟩
  | .ok () =>
    match (integrator.first control).result with
    | .error cause => Run.interrupt cause (Session.start (integrator.first control).control)
    | .ok () =>
      Bdf.integrate { integrator.surroundings told with attempt } integrator.settings
        integrator.core.config.stop (integrator.first control).point
        (integrator.first control).control

theorem BdfIntegrator.run_eq_runWith (integrator : BdfIntegrator α)
    (told : ProgressEvent α → Control → Control) (control : Control) :
    integrator.run told control =
      integrator.runWith (Bdf.attempt integrator.core integrator.settings) told control :=
  rfl

end Start

noncomputable section

namespace BdfIntegrator

/-- The times of a run and of the events that it told are as its configuration
and its settings say. -/
structure Covers (integrator : BdfIntegrator ℝ) (run : Run ℝ Control) : Prop where
  increasing : ∀ {trajectory}, run.trajectory = .ok trajectory →
    trajectory.times.Pairwise (· < ·)
  steps : ∀ {trajectory}, run.trajectory = .ok trajectory →
    ∀ step ∈ trajectory.stepSizes, step ≤ integrator.settings.maxStep
  start : ∀ {trajectory}, run.trajectory = .ok trajectory →
    trajectory.times.head? = some integrator.core.config.start ∨
      trajectory.times = [] ∧ trajectory.termination = .cancelled
  completed : ∀ {trajectory}, run.trajectory = .ok trajectory →
    trajectory.termination = .completed →
      trajectory.finalTime? = some integrator.core.config.stop
  told : integrator.core.listening = true →
    run.session.eventTimes = run.session.times.tail
  notStalled : ∀ t, run.outcome ≠ .error (.stalled t)

variable {integrator : BdfIntegrator ℝ}

theorem covers_of_finished {around : Bdf.Surroundings ℝ Control} {run : Run ℝ Control}
    (hfinished : Bdf.Finished around integrator.settings integrator.core.config.start
      integrator.core.config.stop run)
    (htells : integrator.core.listening = true → Bdf.Tells around) : integrator.Covers run := by
  obtain ⟨last, hmarches, hlast⟩ := hfinished.marches
  refine ⟨fun htrajectory => ?_, fun htrajectory => ?_, fun htrajectory => ?_,
    fun htrajectory hcompleted => ?_, fun hlistening => hfinished.told (htells hlistening),
    hfinished.notStalled⟩
  · rw [(Run.trajectory_eq_ok htrajectory).2.1]
    exact hmarches.pairwise
  · have htimes := (Run.trajectory_eq_ok htrajectory).2.1
    unfold Trajectory.stepSizes
    rw [htimes]
    exact Bdf.le_of_mem_differences hmarches.chain
  · rw [(Run.trajectory_eq_ok htrajectory).2.1]
    exact .inl hmarches.head
  · obtain ⟨houtcome, -, hpoints⟩ := Run.trajectory_eq_ok htrajectory
    rw [hcompleted] at houtcome
    have hback : (run.session.points.toList.map Point.time).getLast? = some last :=
      hmarches.last
    rw [List.getLast?_map, Array.getLast?_toList] at hback
    rw [Trajectory.finalTime?, hpoints, hback, hlast houtcome]

theorem covers_of_empty {outcome : Except (SolverError ℝ) Termination} (control : Control)
    (hcompleted : outcome ≠ .ok .completed) (hstalled : ∀ t, outcome ≠ .error (.stalled t)) :
    integrator.Covers ⟨outcome, Session.start control⟩ := by
  have hempty : ∀ {trajectory : Trajectory ℝ},
      Run.trajectory ⟨outcome, Session.start control⟩ = .ok trajectory →
      trajectory.times = [] ∧ trajectory.termination = .cancelled := by
    intro trajectory htrajectory
    obtain ⟨houtcome, htimes, -⟩ := Run.trajectory_eq_ok htrajectory
    refine ⟨htimes, ?_⟩
    cases htermination : trajectory.termination with
    | completed => exact absurd (htermination ▸ houtcome) hcompleted
    | cancelled => rfl
  refine ⟨fun htrajectory => ?_, fun htrajectory => ?_, fun htrajectory => ?_,
    fun htrajectory hend => ?_, fun _ => rfl, hstalled⟩
  · rw [(hempty htrajectory).1]
    exact .nil
  · unfold Trajectory.stepSizes
    rw [(hempty htrajectory).1]
    simp
  · exact .inr (hempty htrajectory)
  · rw [(hempty htrajectory).2] at hend
    cases hend

theorem covers_of_interrupt {cause : SolverError ℝ} (control : Control)
    (hcause : ∀ t, cause ≠ .stalled t) :
    integrator.Covers (Run.interrupt cause (Session.start control)) := by
  cases cause with
  | stalled time => exact absurd rfl (hcause time)
  | _ => exact covers_of_empty control nofun nofun

theorem start_lt_stop_of_validate {core : Core ℝ} (hvalidate : core.validate = .ok ()) :
    core.config.start < core.config.stop := by
  by_contra hnot
  have hle : core.config.stop ≤ core.config.start := not_lt.mp hnot
  unfold Core.validate Core.fault? at hvalidate
  simp only [hle, if_true] at hvalidate
  split at hvalidate
  · cases hvalidate
  · next hnone =>
    revert hnone
    repeat' split
    all_goals nofun

/-- All numbers are finite here, so a configuration is valid if its interval runs
forwards and its state fits the system. -/
theorem validate_of_lt {core : Core ℝ} (hdimension : core.system.dimension ≠ 0)
    (hlength : core.config.initialState.length = core.system.dimension)
    (hlt : core.config.start < core.config.stop) (hintervals : core.config.intervals ≠ 0) :
    core.validate = .ok () := by
  have hfault : core.fault? = none := by
    simp [Core.fault?, hdimension, hlength, not_le.mpr hlt, hintervals]
  rw [Core.validate, hfault]

theorem surroundings_tells {told : ProgressEvent ℝ → Control → Control}
    (attempt : Bdf.History ℝ → ℝ → Control → Bdf.AttemptRun ℝ Control)
    (hlistening : integrator.core.listening = true) :
    Bdf.Tells { integrator.surroundings told with attempt } := by
  intro time status
  exact ⟨_, if_pos hlistening, rfl⟩

theorem covers_runWith (hsettings : integrator.settings.validate = .ok ())
    (hconfig : integrator.core.validate = .ok ())
    {attempt : Bdf.History ℝ → ℝ → Control → Bdf.AttemptRun ℝ Control}
    (hattempt : Bdf.Restrained attempt) (told : ProgressEvent ℝ → Control → Control)
    (control : Control) : integrator.Covers (integrator.runWith attempt told control) := by
  obtain ⟨htime, hresult⟩ := integrator.first_spec control
  unfold runWith Core.ensureInitialized
  simp only
  split
  · next cause hinitialized =>
    split at hinitialized
    · cases hinitialized
    · cases hinitialized
      exact covers_of_empty control nofun nofun
  · split
    · next cause hcause =>
      exact covers_of_interrupt _ (hresult cause hcause).ne_stalled
    · have hlt := start_lt_stop_of_validate hconfig
      rw [← htime] at hlt
      have hfinished : ∀ s, Bdf.Finished { integrator.surroundings told with attempt }
          integrator.settings (integrator.first control).point.time integrator.core.config.stop
          (Bdf.integrate { integrator.surroundings told with attempt } integrator.settings
            integrator.core.config.stop (integrator.first control).point s) := fun s =>
        Bdf.integrate_finished (BdfSettings.valid_of_validate hsettings) hattempt hlt s
      rw [htime] at hfinished
      exact covers_of_finished (hfinished _) (surroundings_tells attempt)

/-- The times of a run go from the start to the end of the interval in bounded
steps, whatever becomes of each attempt, and each of them is told once. -/
theorem run_covers (hsettings : integrator.settings.validate = .ok ())
    (hconfig : integrator.core.validate = .ok ())
    (told : ProgressEvent ℝ → Control → Control) (control : Control) :
    (∀ attempt, Bdf.Restrained attempt →
      integrator.Covers (integrator.runWith attempt told control)) ∧
    integrator.Covers (integrator.run told control) := by
  constructor
  · intro attempt hattempt
    exact covers_runWith hsettings hconfig hattempt told control
  · rw [run_eq_runWith]
    exact covers_runWith hsettings hconfig (Bdf.attempt_restrained _ _) told control

theorem run_covers_affine :
    let system : ResidualSystem ℝ := .affine [[1]] [[1]] [0]
    let core : Core ℝ :=
      { Core.create system ⟨100, 0, 1, [1]⟩ with
        algebraic := [false]
        listening := true
        initialized := true }
    let integrator : BdfIntegrator ℝ := ⟨core, BdfSettings.standard⟩
    let told : ProgressEvent ℝ → Control → Control := fun _ control => control
    let accepting : Bdf.History ℝ → ℝ → Control → Bdf.AttemptRun ℝ Control :=
      fun history _ control => ⟨.ok (.accepted 1 [1] [-1]), history, control⟩
    integrator.settings.validate = .ok () ∧ integrator.core.validate = .ok () ∧
      Bdf.Restrained accepting ∧
      integrator.Covers (integrator.runWith accepting told .fresh) ∧
      integrator.Covers (integrator.run told .fresh) := by
  intro system core integrator told accepting
  have hsettings : integrator.settings.validate = .ok () :=
    BdfSettings.validate_of_valid BdfSettings.standard_valid
  have hconfig : integrator.core.validate = .ok () :=
    validate_of_lt Nat.one_ne_zero rfl one_pos (by decide)
  have haccepting : Bdf.Restrained accepting := by
    refine ⟨fun _ _ _ => rfl, fun _ _ _ => rfl, ?_⟩
    rintro history time control t ⟨⟩
  obtain ⟨hany, hrun⟩ := run_covers hsettings hconfig told .fresh
  exact ⟨hsettings, hconfig, haccepting, hany accepting haccepting, hrun⟩

end BdfIntegrator

end

end ImplicitDynamics
