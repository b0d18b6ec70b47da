import ImplicitDynamics.Proofs.BdfBounds

/-!
# Attempts that are made again

An attempt that is rejected or does not converge is made again from the same time
with half the step, after the step has been fitted to the rest of the interval.
Fitting undoes the halving in one case only: the attempt was for all that is left
and half of that is the smallest step.  Then the whole is tried again.
-/

namespace ImplicitDynamics

noncomputable section

namespace Bdf

variable {σ : Type} {settings : BdfSettings ℝ} {around : Surroundings ℝ σ} {start stop : ℝ}
  {course next : Course ℝ σ}

/-- An attempt fails, and the course goes on. -/
structure Retries (around : Surroundings ℝ σ) (settings : BdfSettings ℝ) (stop : ℝ)
    (course next : Course ℝ σ) : Prop where
  before : course.time < stop
  failed : ∃ s, around.proceed course.session.around = (true, s) ∧
    ((course.attempt around settings stop s).result = .ok .notConverged ∨
      ∃ error, (course.attempt around settings stop s).result = .ok (.rejected error))
  advances : advance around settings stop course = .inl next

theorem exists_afterFailure {time h : ℝ} {history : History ℝ}
    (hcount : history.consecutiveFailures < settings.maxConsecutiveFailures)
    (hmin : settings.minStep ≤ h / 2) :
    ∃ next, afterFailure settings time h history = .ok next := by
  have hhalf : ¬ 1 / 2 * h < settings.minStep := by linarith
  unfold afterFailure
  simp only [Exact.half_eq, Exact.mul_eq, Exact.lt_iff]
  rw [if_neg (Nat.not_lt.mpr hcount), if_neg hhalf]
  exact ⟨_, rfl⟩

/-- An attempt is made again if there have not been too many and half of the step is
not too short. -/
theorem exists_retries {s : σ} (hvalid : settings.Valid) (hrestrained : Restrained around.attempt)
    (hsteady : Steady around settings start stop course) (hlt : course.time < stop)
    (hproceed : around.proceed course.session.around = (true, s))
    (hfailed : (course.attempt around settings stop s).result = .ok .notConverged)
    (hcount : course.history.consecutiveFailures < settings.maxConsecutiveFailures)
    (hmin : settings.minStep ≤ (plan settings stop course).1 / 2) :
    ∃ next, Retries around settings stop course next := by
  have hplanned := plan_planned hvalid hlt hsteady.minStep_le hsteady.step_le
  have hsame : (course.attempt around settings stop s).history.consecutiveFailures =
      course.history.consecutiveFailures :=
    (hrestrained.failures _ _ _).trans hplanned.failures
  obtain ⟨history, hafter⟩ := exists_afterFailure (hsame ▸ hcount) hmin
  have hadvanced := advance_advanced around settings stop course
  generalize houtcome : advance around settings stop course = outcome at hadvanced
  cases hadvanced with
  | cancelled other hother => cases hproceed.symm.trans hother
  | interrupted other cause hother hresult =>
      obtain ⟨-, rfl⟩ := Prod.mk.inj (hproceed.symm.trans hother)
      cases hfailed.symm.trans hresult
  | accepted other error state derivatives hother hresult =>
      obtain ⟨-, rfl⟩ := Prod.mk.inj (hproceed.symm.trans hother)
      cases hfailed.symm.trans hresult
  | retried other next hother _ _ => exact ⟨_, hlt, ⟨s, hproceed, .inl hfailed⟩, houtcome⟩
  | gaveUp other cause hother hfailure =>
      obtain ⟨-, rfl⟩ := Prod.mk.inj (hproceed.symm.trans hother)
      cases hafter.symm.trans hfailure

/-- The step after a failed attempt with one of length `h`, when `remaining` is left
of the interval. -/
structure Refitted (settings : BdfSettings ℝ) (remaining h next : ℝ) : Prop where
  halved : ¬ (h = remaining ∧ h = 2 * settings.minStep) → next = h / 2
  kept : h = remaining ∧ h = 2 * settings.minStep → next = h

/-- A step that has been fitted and halved fits again, unless its half leaves
exactly the smallest step. -/
theorem fitStep_half (hvalid : settings.Valid) {remaining desired : ℝ}
    (hremaining : 0 < remaining)
    (hhalf : settings.minStep ≤ fitStep settings remaining desired / 2) :
    Refitted settings remaining (fitStep settings remaining desired)
      (fitStep settings remaining (fitStep settings remaining desired / 2)) := by
  have hmin := hvalid.minStep
  have hdesired := fitStep_eq settings remaining desired
  generalize fitStep settings remaining desired = h at hdesired hhalf ⊢
  rw [fitStep_eq]
  by_cases hnear : remaining ≤ desired + settings.minStep
  · rw [if_pos hnear] at hdesired
    by_cases hlast : remaining ≤ settings.maxStep
    · -- the attempt was for the rest of the interval
      rw [if_pos hlast] at hdesired
      subst hdesired
      rw [if_pos hlast]
      refine ⟨fun hother => if_neg fun hnear => hother ⟨rfl, by linarith⟩, ?_⟩
      rintro ⟨-, hexact⟩
      exact if_pos (by linarith)
    · rw [if_neg hlast] at hdesired
      exact ⟨fun _ => if_neg (by linarith), fun hboth => by linarith [hboth.1]⟩
  · rw [if_neg hnear] at hdesired
    exact ⟨fun _ => if_neg (by linarith), fun hboth => by linarith [hboth.1]⟩

/-- The time is the same, and the step was halved.  Otherwise the run would be
over. -/
structure Retries.Halved (settings : BdfSettings ℝ) (stop : ℝ) (course next : Course ℝ σ) :
    Prop where
  time : next.time = course.time
  step : next.history.step = (plan settings stop course).1 / 2
  minStep_le : settings.minStep ≤ (plan settings stop course).1 / 2
  failures_pos : 0 < settings.maxConsecutiveFailures

theorem Retries.halved (hvalid : settings.Valid) (hrestrained : Restrained around.attempt)
    (hsteady : Steady around settings start stop course)
    (hretries : Retries around settings stop course next) :
    Retries.Halved settings stop course next := by
  obtain ⟨s, hproceed, hfailed⟩ := hretries.failed
  have hplanned := plan_planned hvalid hretries.before hsteady.minStep_le hsteady.step_le
  have hadvanced := advance_advanced around settings stop course
  rw [hretries.advances] at hadvanced
  cases hadvanced with
  | accepted other error state derivatives hother hresult =>
      obtain ⟨-, rfl⟩ := Prod.mk.inj (hproceed.symm.trans hother)
      rw [hresult] at hfailed
      obtain hfailed | ⟨_, hfailed⟩ := hfailed <;> cases hfailed
  | retried other history _ _ hfailure =>
      have hstep : (course.attempt around settings stop other).history.step =
          (plan settings stop course).1 := (hrestrained.step _ _ _).trans hplanned.history_step
      obtain ⟨hhalf, hmin, -, hcount⟩ := afterFailure_spec hstep hfailure
      exact ⟨rfl, hhalf, hmin, Nat.zero_lt_of_lt hcount⟩

theorem Retries.refitted (hvalid : settings.Valid) (hrestrained : Restrained around.attempt)
    (hsteady : Steady around settings start stop course)
    (hretries : Retries around settings stop course next) :
    Refitted settings (stop - course.time) (plan settings stop course).1
      (plan settings stop next).1 := by
  have hhalved := hretries.halved hvalid hrestrained hsteady
  rw [plan_step settings stop next, hhalved.time, hhalved.step]
  exact fitStep_half hvalid (sub_pos.mpr hretries.before) hhalved.minStep_le

section Singular

variable {core : Core ℝ} {settings : BdfSettings ℝ} {history : History ℝ} {time : ℝ}
  {control looked probed : Control}

theorem Corrector.iterate_of_singular {corrector : Corrector ℝ} {left : Nat}
    {state derivatives residual : List ℝ} {columns : List (List ℝ)}
    (hevaluate : corrector.core.system.evaluate corrector.time state derivatives = .ok residual)
    (hlook : control.look = (true, looked))
    (hcolumns : (Probe.mk corrector.core.system corrector.time state derivatives).columns
      Supervisor.controlled residual (List.range state.length) (.combined corrector.alpha)
      (state.zipWith FiniteDifference.increment corrector.nominal) looked = (.ok columns, probed))
    (hsolve : Linear.solve (Linear.rowsOfColumns residual.length columns)
      (residual.map fun x => -x) = none) :
    corrector.iterate (left + 1) state derivatives control = (.ok none, probed) := by
  rw [Corrector.iterate]
  simp only [hevaluate, hlook, hcolumns, Exact.neg_eq, hsolve]

theorem attempt_of_unsolved {states slopes : List ℝ} (hpredict : history.predict = [states, slopes])
    (hiterate : (history.corrector core settings time).iterate core.newton.maxIterations states
      (predictedDerivatives core.algebraic history.step slopes) control = (.ok none, probed)) :
    attempt core settings history time control = ⟨.ok .notConverged, history, probed⟩ := by
  unfold attempt
  simp only [History.corrector, Exact.zero_eq, Exact.div_eq] at hiterate ⊢
  simp only [hpredict, List.headD_cons, List.getD_cons_succ, List.getD_cons_zero]
  rw [hiterate]

end Singular

end Bdf

/-! ## The integrator -/

namespace BdfIntegrator

variable {integrator : BdfIntegrator ℝ}
  {attempt : Bdf.History ℝ → ℝ → Control → Bdf.AttemptRun ℝ Control}
  {told : ProgressEvent ℝ → Control → Control} {control : Control}
  {course next : Bdf.Course ℝ Control}

/-- At a course of a run an attempt fails, and the run goes on. -/
structure Retries (integrator : BdfIntegrator ℝ)
    (attempt : Bdf.History ℝ → ℝ → Control → Bdf.AttemptRun ℝ Control)
    (told : ProgressEvent ℝ → Control → Control) (control : Control)
    (course next : Bdf.Course ℝ Control) : Prop where
  reached : ∃ turns, integrator.Reached attempt told control turns course
  retries : Bdf.Retries { integrator.surroundings told with attempt } integrator.settings
    integrator.core.config.stop course next

/-- The length of the step that is attempted at a course. -/
def stepAt (integrator : BdfIntegrator ℝ) (course : Bdf.Course ℝ Control) : ℝ :=
  (Bdf.plan integrator.settings integrator.core.config.stop course).1

/-- What is left of the interval at a course. -/
def remainingAt (integrator : BdfIntegrator ℝ) (course : Bdf.Course ℝ Control) : ℝ :=
  integrator.core.config.stop - course.time

theorem Retries.spec (hsettings : integrator.settings.validate = .ok ())
    (hconfig : integrator.core.validate = .ok ()) (hrestrained : Bdf.Restrained attempt)
    (hretries : integrator.Retries attempt told control course next) :
    Bdf.Retries.Halved integrator.settings integrator.core.config.stop course next ∧
      integrator.stepAt course ≤ integrator.settings.maxStep ∧
      Bdf.Refitted integrator.settings (integrator.remainingAt course)
        (integrator.stepAt course) (integrator.stepAt next) := by
  have hvalid := BdfSettings.valid_of_validate hsettings
  obtain ⟨turns, hreached⟩ := hretries.reached
  have hsteady := (hreached.turns.steady hvalid hrestrained
    (first_steady hsettings hconfig _ control)).1
  have hplanned := Bdf.plan_planned hvalid hretries.retries.before hsteady.minStep_le
    hsteady.step_le
  exact ⟨hretries.retries.halved hvalid hrestrained hsteady, hplanned.step_le,
    hretries.retries.refitted hvalid hrestrained hsteady⟩

/-- What is attempted after a failed attempt starts at the same time, and its step is
the one that fits after halving. -/
def RetriesFit (integrator : BdfIntegrator ℝ)
    (attempt : Bdf.History ℝ → ℝ → Control → Bdf.AttemptRun ℝ Control) : Prop :=
  ∀ told control course next, integrator.Retries attempt told control course next →
    next.time = course.time ∧ Bdf.Refitted integrator.settings (integrator.remainingAt course)
      (integrator.stepAt course) (integrator.stepAt next)

/-- Failed attempts halve the step, but for one case: where an attempt for the rest
of the interval fails and that is twice the smallest step, it is made again. -/
theorem retries_fit (hsettings : integrator.settings.validate = .ok ())
    (hconfig : integrator.core.validate = .ok ()) :
    (∀ attempt, Bdf.Restrained attempt → integrator.RetriesFit attempt) ∧
      integrator.RetriesFit (Bdf.attempt integrator.core integrator.settings) := by
  have hany : ∀ attempt, Bdf.Restrained attempt → integrator.RetriesFit attempt := by
    intro attempt hrestrained told control course next hretries
    obtain ⟨hhalved, -, hrefitted⟩ := hretries.spec hsettings hconfig hrestrained
    exact ⟨hhalved.time, hrefitted⟩
  exact ⟨hany, hany _ (Bdf.attempt_restrained _ _)⟩

/-- An attempt that never converges. -/
def refusing (history : Bdf.History ℝ) (_ : ℝ) (s : Control) : Bdf.AttemptRun ℝ Control :=
  ⟨.ok .notConverged, history, s⟩

theorem refusing_restrained : Bdf.Restrained refusing where
  step _ _ _ := rfl
  failures _ _ _ := rfl
  notStalled := nofun

/-- At rest, an attempt that does not converge is made again. -/
theorem exists_retries_resting {settings : BdfSettings ℝ} {stop : ℝ} (hvalid : settings.Valid)
    (hstop : 0 < stop) (hfailures : 0 < settings.maxConsecutiveFailures)
    (told : ProgressEvent ℝ → Control → Control) :
    let integrator := restingUntil stop settings
    let start : Bdf.Course ℝ Control := Bdf.setOut settings ⟨0, [1], [0]⟩ .fresh
    settings.minStep ≤ integrator.stepAt start / 2 →
      ∃ next, integrator.Retries refusing told .fresh start next := by
  intro integrator start hmin
  obtain ⟨next, hretries⟩ : ∃ next, Bdf.Retries
      { integrator.surroundings told with attempt := refusing } settings stop start next :=
    Bdf.exists_retries hvalid refusing_restrained
      (Bdf.setOut_steady _ hvalid hstop _) hstop rfl rfl hfailures hmin
  exact ⟨next, ⟨[], restingUntil_reached _ _ _ _⟩, hretries⟩

/-- The first attempt at rest under the settings that are standard. -/
theorem retries_fit_standard :
    let integrator := restingUntil 1 BdfSettings.standard
    let start : Bdf.Course ℝ Control := Bdf.setOut integrator.settings ⟨0, [1], [0]⟩ .fresh
    let told : ProgressEvent ℝ → Control → Control := fun _ control => control
    integrator.settings.validate = .ok () ∧ integrator.core.validate = .ok () ∧
      integrator.RetriesFit (Bdf.attempt integrator.core integrator.settings) ∧
      Bdf.Restrained refusing ∧ ∃ next, integrator.Retries refusing told .fresh start next ∧
        integrator.stepAt start = 1 / 10000 ∧ integrator.stepAt next = 1 / 20000 := by
  intro integrator start told
  have hvalid : (BdfSettings.standard : BdfSettings ℝ).Valid := BdfSettings.standard_valid
  have hsettings := BdfSettings.validate_of_valid hvalid
  have hconfig : integrator.core.validate = .ok () := restingUntil_validate one_pos _
  have hstep : integrator.stepAt start = 1 / 10000 := by
    change Bdf.fitStep BdfSettings.standard (1 - 0) (Scalar.clamp BdfSettings.standard.initialStep
      BdfSettings.standard.minStep BdfSettings.standard.maxStep) = _
    rw [Bdf.fitStep_eq]
    simp only [BdfSettings.standard, Scalar.clamp, Exact.scientific_eq]
    norm_num
  have hmin : (BdfSettings.standard : BdfSettings ℝ).minStep ≤ integrator.stepAt start / 2 := by
    rw [hstep]
    simp only [BdfSettings.standard, Exact.scientific_eq]
    norm_num
  obtain ⟨next, hretries⟩ : ∃ next, integrator.Retries refusing told .fresh start next :=
    exists_retries_resting hvalid one_pos (by decide) told hmin
  obtain ⟨hany, hown⟩ := retries_fit hsettings hconfig
  have hrest : integrator.remainingAt start = 1 := sub_zero 1
  have hrefitted := (hany refusing refusing_restrained _ _ _ _ hretries).2
  have hnext : integrator.stepAt next = integrator.stepAt start / 2 := by
    refine hrefitted.halved fun hboth => ?_
    have hwhole := hboth.1
    rw [hstep, hrest] at hwhole
    norm_num at hwhole
  refine ⟨hsettings, hconfig, hown, refusing_restrained, next, hretries, hstep, ?_⟩
  rw [hnext, hstep]
  norm_num

/-- With these settings a failed attempt is made again with half the step. -/
structure Halves (settings : BdfSettings ℝ) : Prop where
  step : ∀ integrator : BdfIntegrator ℝ, integrator.settings = settings →
    integrator.core.validate = .ok () → ∀ attempt, Bdf.Restrained attempt →
      ∀ told control course next, integrator.Retries attempt told control course next →
        integrator.stepAt next = integrator.stepAt course / 2

/-- The first attempt is for the whole of an interval that is not longer than the
smallest step allows. -/
theorem stepAt_setOut {settings : BdfSettings ℝ} {stop : ℝ} (hvalid : settings.Valid)
    (hstop : stop ≤ 2 * settings.minStep) (hfits : stop ≤ settings.maxStep) (s : Control) :
    (restingUntil stop settings).stepAt (Bdf.setOut settings ⟨0, [1], [0]⟩ s) = stop := by
  have hdesired := (Bdf.clamp_mem (x := settings.initialStep) hvalid.minStep_le).1
  change Bdf.fitStep settings (stop - 0)
    (Scalar.clamp settings.initialStep settings.minStep settings.maxStep) = stop
  rw [sub_zero, Bdf.fitStep_eq, if_pos (by linarith), if_pos hfits]

/-- Failed attempts always halve the step with settings that let no attempt be made
again, and with no others. -/
theorem halves_iff {settings : BdfSettings ℝ} (hsettings : settings.validate = .ok ()) :
    Halves settings ↔
      settings.maxStep < 2 * settings.minStep ∨ settings.maxConsecutiveFailures = 0 := by
  have hvalid := BdfSettings.valid_of_validate hsettings
  constructor
  · -- otherwise an interval of twice the smallest step is tried as a whole again and again
    intro hhalves
    by_contra hboth
    rw [not_or, not_lt] at hboth
    obtain ⟨hwide, hfailures⟩ := hboth
    let stop := 2 * settings.minStep
    let start : Bdf.Course ℝ Control := Bdf.setOut settings ⟨0, [1], [0]⟩ .fresh
    let told : ProgressEvent ℝ → Control → Control := fun _ control => control
    have hstop : 0 < stop := mul_pos two_pos hvalid.minStep
    have hstep : (restingUntil stop settings).stepAt start = stop :=
      stepAt_setOut hvalid le_rfl hwide _
    have hmin : settings.minStep ≤ (restingUntil stop settings).stepAt start / 2 := by
      rw [hstep]
      exact (mul_div_cancel_left₀ settings.minStep two_ne_zero).ge
    obtain ⟨next, hretry⟩ :=
      exists_retries_resting hvalid hstop (Nat.pos_of_ne_zero hfailures) told hmin
    have hconfig := restingUntil_validate hstop settings
    have hhalf := hhalves.step (restingUntil stop settings) rfl hconfig refusing
      refusing_restrained told .fresh start next hretry
    have hrefitted := (hretry.spec hsettings hconfig refusing_restrained).2.2
    have hrest : (restingUntil stop settings).remainingAt start = stop := sub_zero stop
    have hkept := hrefitted.kept ⟨hstep.trans hrest.symm, hstep⟩
    rw [hkept, hstep] at hhalf
    linarith
  · intro hnever
    refine ⟨?_⟩
    intro integrator hsame hconfig attempt hrestrained told control course next hretries
    subst hsame
    obtain ⟨hhalved, hle, -⟩ := hretries.spec hsettings hconfig hrestrained
    have hmin : integrator.settings.minStep ≤ integrator.stepAt course / 2 := hhalved.minStep_le
    obtain hnarrow | hfailures := hnever
    · linarith
    · exact absurd hfailures hhalved.failures_pos.ne'

/-- An integrator for `y' = y`, which no implicit step of length one can solve for,
on an interval of that length. -/
def resonant : BdfIntegrator ℝ :=
  ⟨{ Core.create (.affine [[1]] [[-1]] [0]) ⟨100, 0, 1, [0]⟩ with
      algebraic := [false]
      initialized := true },
    { BdfSettings.standard with initialStep := 1, minStep := 0.5, maxStep := 1 }⟩

theorem resonant_valid : resonant.settings.Valid := by
  constructor <;>
    simp only [resonant, BdfSettings.standard, BdfSettings.highestOrder, Exact.scientific_eq] <;>
    norm_num

theorem resonant_validate : resonant.core.validate = .ok () :=
  validate_of_lt Nat.one_ne_zero rfl one_pos (by decide)

theorem resonant_evaluate (t : ℝ) : resonant.core.system.evaluate t [0] [0] = .ok [0] := by
  simp [resonant, Core.create, ResidualSystem.evaluate, ResidualSystem.affine,
    ResidualSystem.ofFunction, ResidualSystem.mismatch?, ResidualSystem.accumulate]

theorem resonant_first (control : Control) :
    resonant.first control = ⟨.ok (), ⟨0, [0], [0]⟩, control⟩ := by
  unfold first Core.consistentStart
  rw [Exact.zero_eq]
  exact Core.resolve_of_vanishing rfl rfl (resonant_evaluate 0) control

def resonantStart : Bdf.Course ℝ Control :=
  Bdf.setOut resonant.settings ⟨0, [0], [0]⟩ .fresh

theorem resonant_reached (told : ProgressEvent ℝ → Control → Control) :
    resonant.Reached (Bdf.attempt resonant.core resonant.settings) told .fresh []
      resonantStart where
  initialized := rfl
  first := by rw [resonant_first]
  turns := by
    rw [resonant_first]
    exact .start

theorem resonant_plan : Bdf.plan resonant.settings 1 resonantStart =
    (1, 1, Bdf.History.start [0] [0] 1) := by
  have hclamp : Scalar.clamp resonant.settings.initialStep resonant.settings.minStep
      resonant.settings.maxStep = 1 := by
    simp [resonant, Scalar.clamp]
    norm_num
  have hhistory : resonantStart.history = .start [0] [0] 1 := by
    change Bdf.History.start [0] [0] _ = _
    rw [hclamp]
  have hstep : Bdf.fitStep resonant.settings 1 1 = 1 := by
    rw [Bdf.fitStep_eq, if_pos (by norm_num [resonant]), if_pos (by norm_num [resonant])]
  have htime : (1 : ℝ) - resonantStart.time = 1 := sub_zero 1
  have hsame : Scalar.same (1 : ℝ) (Bdf.History.start [0] [0] (1 : ℝ)).step = true :=
    (Exact.same_eq_true_iff _ _).mpr rfl
  unfold Bdf.plan
  simp only [hhistory, htime, Bdf.History.start, hstep] at hsame ⊢
  rw [if_pos hsame, if_pos le_rfl]

/-- What the step contributes to the derivative of the residual is what the system
takes away. -/
theorem resonant_columns : (Probe.mk resonant.core.system 1 [0] [0]).columns
    Supervisor.controlled [0] (List.range 1) (.combined 1)
    ([0].zipWith FiniteDifference.increment (Bdf.History.start [0] [0] (1 : ℝ)).nominal) .fresh =
      (.ok [[0]], .fresh) := by
  simp [Control.look, Control.fresh, Probe.columns, Probe.quotients, Probe.sweep,
    Supervisor.controlled, Probe.scratch, Scratch.evaluate, Scratch.move, Scratch.restore, resonant,
    Core.create, ResidualSystem.affine, ResidualSystem.ofFunction, ResidualSystem.mismatch?,
    ResidualSystem.accumulate, List.modify_cons]

theorem resonant_unsolved : Linear.solve (Linear.rowsOfColumns 1 [[0]])
    (([0] : List ℝ).map fun x => -x) = none := by
  simp [Linear.solve, Linear.solveMatrix, Linear.largestEntry, Linear.entriesByColumn,
    Linear.rowsOfColumns, Exact.zero_eq]

theorem resonant_attempt : Bdf.attempt resonant.core resonant.settings
    (Bdf.History.start [0] [0] 1) 1 .fresh =
      ⟨.ok .notConverged, Bdf.History.start [0] [0] 1, .fresh⟩ := by
  let history : Bdf.History ℝ := .start [0] [0] 1
  let corrector : Bdf.Corrector ℝ := history.corrector resonant.core resonant.settings 1
  have hpredict : history.predict = [[0], [0]] := by
    simp [history, Bdf.History.start, Bdf.History.predict, Bdf.extrapolate, Bdf.suffixSums]
  have hguess : Bdf.predictedDerivatives resonant.core.algebraic history.step [0] = [0] := by
    simp [Bdf.predictedDerivatives, resonant, history, Bdf.History.start]
  have halpha : corrector.alpha = 1 := by
    simp only [corrector, Bdf.History.corrector, history, Bdf.History.start,
      Bdf.getD_coefficients_one, div_one]
  refine Bdf.attempt_of_unsolved hpredict ?_
  rw [hguess]
  have hcolumns := resonant_columns
  rw [← halpha] at hcolumns
  exact Bdf.Corrector.iterate_of_singular (resonant_evaluate 1) rfl hcolumns resonant_unsolved

/-- The first attempt is for the whole interval, which is twice the smallest step,
and does not converge.  The next one is the same. -/
theorem retry_keeps_step :
    let attempt := Bdf.attempt resonant.core resonant.settings
    let told : ProgressEvent ℝ → Control → Control := fun _ control => control
    resonant.settings.validate = .ok () ∧ resonant.core.validate = .ok () ∧
      ∃ course next, resonant.Retries attempt told .fresh course next ∧
        next.time = course.time ∧ resonant.stepAt course = 1 ∧ resonant.stepAt next = 1 ∧
        resonant.stepAt next ≠ resonant.stepAt course / 2 := by
  intro attempt told
  have hsettings := BdfSettings.validate_of_valid resonant_valid
  have hrestrained : Bdf.Restrained attempt := Bdf.attempt_restrained _ _
  have hstep : resonant.stepAt resonantStart = 1 := congrArg Prod.fst resonant_plan
  have hmin : resonant.settings.minStep ≤ resonant.stepAt resonantStart / 2 := by
    rw [hstep]
    norm_num [resonant]
  obtain ⟨next, hretries⟩ : ∃ next, Bdf.Retries { resonant.surroundings told with attempt }
      resonant.settings 1 resonantStart next := by
    refine Bdf.exists_retries resonant_valid hrestrained
      (Bdf.setOut_steady _ resonant_valid one_pos _) one_pos rfl ?_ (by decide) hmin
    change (Bdf.attempt _ _ (Bdf.plan resonant.settings 1 resonantStart).2.2
      (Bdf.plan resonant.settings 1 resonantStart).2.1 .fresh).result = _
    rw [resonant_plan, resonant_attempt]
  have hretry : resonant.Retries attempt told .fresh resonantStart next :=
    ⟨⟨[], resonant_reached told⟩, hretries⟩
  obtain ⟨hhalved, -, hrefitted⟩ := hretry.spec hsettings resonant_validate hrestrained
  have hkept : resonant.stepAt next = 1 := by
    refine (hrefitted.kept ?_).trans hstep
    rw [hstep]
    exact ⟨(sub_zero 1).symm, by norm_num [resonant]⟩
  refine ⟨hsettings, resonant_validate, resonantStart, next, hretry, hhalved.time, hstep, hkept, ?_⟩
  rw [hkept, hstep]
  norm_num

end BdfIntegrator

end

end ImplicitDynamics
