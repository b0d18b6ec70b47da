import ImplicitDynamics.Proofs.BdfTurns

/-!
# Bounds on a run

A run of variable order comes to its end.  Each of its turns is paid out of the
budget, which the settings and the interval bound, and the turn that cannot be
paid for is the one that ends the run: at the end of the interval, on
cancellation, or with one of three errors.

Steps are no shorter than the smallest one as long as the largest step has room
for two of them.  If it has not, some interval is cut into steps that are too
short: what remains is longer than one step may be, and half of it is shorter.
-/

namespace ImplicitDynamics

noncomputable section

/-- The number of attempts that settings allow for an interval of length
`span`, where all steps but the last are at least the smallest one or half of
the largest one. -/
def BdfSettings.attemptLimit (settings : BdfSettings ℝ) (span : ℝ) : ℝ :=
  let steps := 1 + span / settings.shortestStep
  (steps + 1) * (settings.maxConsecutiveFailures + 1)

namespace Bdf

variable {σ : Type} {settings : BdfSettings ℝ} {around : Surroundings ℝ σ} {start stop : ℝ}
  {first course next : Course ℝ σ} {turns : List Turn}

theorem budget_pos (hsteady : Steady around settings start stop course) (hlt : course.time < stop) :
    1 ≤ budget settings stop course := by
  have hfailures := hsteady.failures
  unfold budget
  rw [if_pos hlt, Nat.add_mul, Nat.one_mul]
  omega

theorem budget_le_attemptLimit (hvalid : settings.Valid) (hlt : course.time < stop) :
    (budget settings stop course : ℝ) ≤ settings.attemptLimit (stop - course.time) := by
  have hshortest := hvalid.shortestStep_pos
  have hspan : 0 ≤ (stop - course.time) / settings.shortestStep :=
    div_nonneg (sub_pos.mpr hlt).le hshortest.le
  unfold BdfSettings.attemptLimit
  calc
    (budget settings stop course : ℝ) ≤
        ((⌊(stop - course.time) / settings.shortestStep⌋₊ + 1) *
          (settings.maxConsecutiveFailures + 1) : ℕ) := by
          unfold budget
          rw [if_pos hlt]
          exact Nat.cast_le.mpr (Nat.sub_le _ _)
    _ = (⌊(stop - course.time) / settings.shortestStep⌋₊ + 1) *
          (settings.maxConsecutiveFailures + 1) := by push_cast; rfl
    _ ≤ (1 + (stop - course.time) / settings.shortestStep + 1) *
          (settings.maxConsecutiveFailures + 1) := by
          apply mul_le_mul_of_nonneg_right _ (by positivity)
          linarith [Nat.floor_le hspan]

theorem Reached.length_lt (hvalid : settings.Valid) (hrestrained : Restrained around.attempt)
    (hsteady : Steady around settings start stop first) (hfirst : first.time < stop)
    (hreached : Reached around settings stop first turns course) (hlt : course.time < stop) :
    (turns.length + 1 : ℝ) ≤ settings.attemptLimit (stop - first.time) := by
  obtain ⟨hcourse, hpaid⟩ := hreached.steady hvalid hrestrained hsteady
  have hleft := budget_pos hcourse hlt
  have hcount : turns.length + 1 ≤ budget settings stop first := by omega
  calc
    (turns.length + 1 : ℝ) = (turns.length + 1 : ℕ) := by push_cast; rfl
    _ ≤ (budget settings stop first : ℝ) := Nat.cast_le.mpr hcount
    _ ≤ settings.attemptLimit (stop - first.time) := budget_le_attemptLimit hvalid hfirst

inductive Ends (settings : BdfSettings ℝ) (stop : ℝ) : Run ℝ σ → Prop where
  | completed (session : Session ℝ σ) :
      session.times.getLast? = some stop → Ends settings stop ⟨.ok .completed, session⟩
  | cancelled (session : Session ℝ σ) : Ends settings stop ⟨.ok .cancelled, session⟩
  | tooManyFailures (time : ℝ) (session : Session ℝ σ) :
      Ends settings stop
        ⟨.error (.tooManyFailures time (settings.maxConsecutiveFailures + 1)), session⟩
  | stepSizeTooSmall (time step : ℝ) (session : Session ℝ σ) :
      Ends settings stop ⟨.error (.stepSizeTooSmall time step), session⟩
  | evaluation (cause : EvalError ℝ) (session : Session ℝ σ) :
      Ends settings stop ⟨.error (.evaluation cause), session⟩

/-- Restrained attempts that fail only where the residual does or on
cancellation. -/
structure Contained (attempt : History ℝ → ℝ → σ → AttemptRun ℝ σ) : Prop
    extends Restrained attempt where
  inner : ∀ {history time s cause}, (attempt history time s).result = .error cause → cause.Inner

theorem attempt_contained (core : Core ℝ) (settings : BdfSettings ℝ) :
    Contained (Bdf.attempt core settings) where
  toRestrained := attempt_restrained core settings
  inner hresult := attempt_inner core settings hresult

theorem ends_interrupt {cause : SolverError ℝ} (hinner : cause.Inner) (session : Session ℝ σ) :
    Ends settings stop (Run.interrupt cause session) := by
  cases hinner with
  | evaluation cause => exact .evaluation cause session
  | cancelled => exact .cancelled session

theorem Steady.ends_advance (hvalid : settings.Valid) (hcontained : Contained around.attempt)
    (hsteady : Steady around settings start stop course) (hlt : course.time < stop)
    {run : Run ℝ σ} (hrun : Bdf.advance around settings stop course = .inr run) :
    Ends settings stop run := by
  have hadvanced := advance_advanced around settings stop course
  rw [hrun] at hadvanced
  cases hadvanced with
  | cancelled s _ => exact .cancelled _
  | interrupted s cause _ hresult => exact ends_interrupt (hcontained.inner hresult) _
  | gaveUp s cause _ hfailure =>
      have hplanned := plan_planned hvalid hlt hsteady.minStep_le hsteady.step_le
      have hcount : (course.attempt around settings stop s).history.consecutiveFailures =
          course.history.consecutiveFailures :=
        (hcontained.failures _ _ _).trans hplanned.failures
      obtain ⟨rfl, hmany⟩ | ⟨step, rfl⟩ := afterFailure_error hfailure
      · have hall : (course.attempt around settings stop s).history.consecutiveFailures =
            settings.maxConsecutiveFailures := by
          have hfailures := hsteady.failures
          omega
        rw [hall]
        exact .tooManyFailures _ _
      · exact .stepSizeTooSmall _ _ _

theorem integrate_ends (hvalid : settings.Valid) (hcontained : Contained around.attempt)
    {point : Point ℝ} (hlt : point.time < stop) (s : σ) :
    Ends settings stop (integrate around settings stop point s) := by
  have hfinished := integrate_finished hvalid hcontained.toRestrained hlt s
  obtain ⟨turns, last, hreached, hrun⟩ := integrate_reached around settings stop point s
  rcases hrun with hcompleted | ⟨hbefore, hended⟩ | hstalled
  · obtain ⟨time, hmarches, htime⟩ := hfinished.marches
    rw [hcompleted] at hmarches htime ⊢
    exact .completed _ (htime rfl ▸ hmarches.last)
  · have hsteady := (hreached.steady hvalid hcontained.toRestrained
      (setOut_steady around hvalid hlt s)).1
    exact hsteady.ends_advance hvalid hcontained hbefore hended
  · rw [hstalled] at hfinished
    exact absurd rfl (hfinished.notStalled last.time)

/-! ## The smallest step -/

/-- No step is attempted, and nothing is left of the interval, that is shorter
than the smallest step. -/
def Course.Ample (settings : BdfSettings ℝ) (stop : ℝ) (course : Course ℝ σ) : Prop :=
  settings.minStep ≤ (plan settings stop course).1 ∧ settings.minStep ≤ stop - course.time

theorem minStep_le_fitStep (hwide : 2 * settings.minStep ≤ settings.maxStep)
    {remaining desired : ℝ} (hremaining : settings.minStep ≤ remaining)
    (hdesired : settings.minStep ≤ desired) :
    settings.minStep ≤ fitStep settings remaining desired ∧
      (fitStep settings remaining desired = remaining ∨
        settings.minStep ≤ remaining - fitStep settings remaining desired) := by
  rw [fitStep_eq]
  by_cases hnear : remaining ≤ desired + settings.minStep
  · rw [if_pos hnear]
    by_cases hlast : remaining ≤ settings.maxStep
    · rw [if_pos hlast]
      exact ⟨hremaining, .inl rfl⟩
    · rw [if_neg hlast]
      have hlong := not_le.mp hlast
      exact ⟨by linarith, .inr (by linarith)⟩
  · rw [if_neg hnear]
    have hfar := not_le.mp hnear
    exact ⟨hdesired, .inr (by linarith)⟩

theorem minStep_le_plan (hwide : 2 * settings.minStep ≤ settings.maxStep)
    (hremaining : settings.minStep ≤ stop - course.time)
    (hstep : settings.minStep ≤ course.history.step) :
    settings.minStep ≤ (plan settings stop course).1 ∧
      ((plan settings stop course).2.1 < stop →
        settings.minStep ≤ stop - (plan settings stop course).2.1) := by
  obtain ⟨hfit, hrest⟩ := minStep_le_fitStep hwide hremaining hstep
  rw [← plan_step] at hfit hrest
  refine ⟨hfit, ?_⟩
  rw [plan_time]
  split
  · exact fun hlt => absurd hlt (lt_irrefl stop)
  · next hmore =>
    intro _
    rcases hrest with hall | hrest
    · exact absurd hall.ge hmore
    · linarith

theorem Reached.ample (hvalid : settings.Valid) (hrestrained : Restrained around.attempt)
    (hwide : 2 * settings.minStep ≤ settings.maxStep)
    (hsteady : Steady around settings start stop first)
    (hspan : settings.minStep ≤ stop - first.time)
    (hreached : Reached around settings stop first turns course) (hlt : course.time < stop) :
    course.Ample settings stop := by
  have hleft : course.time < stop → settings.minStep ≤ stop - course.time := by
    clear hlt
    induction hreached with
    | start => exact fun _ => hspan
    | turn hreached hbefore hnext ih =>
        rename_i turns course next
        have hcourse := (hreached.steady hvalid hrestrained hsteady).1
        have hplan := minStep_le_plan hwide (ih hbefore) hcourse.minStep_le
        have hadvanced := advance_advanced around settings stop course
        rw [hnext] at hadvanced
        cases hadvanced with
        | accepted s error state derivatives _ _ => exact hplan.2
        | retried s history _ _ _ => exact fun _ => ih hbefore
  have hcourse := (hreached.steady hvalid hrestrained hsteady).1
  exact ⟨(minStep_le_plan hwide (hleft hlt) hcourse.minStep_le).1, hleft hlt⟩

end Bdf

/-! ## The integrator -/

namespace BdfIntegrator

variable {integrator : BdfIntegrator ℝ}
  {attempt : Bdf.History ℝ → ℝ → Control → Bdf.AttemptRun ℝ Control}
  {told : ProgressEvent ℝ → Control → Control} {control : Control} {turns : List Bdf.Turn}
  {course : Bdf.Course ℝ Control}

def span (integrator : BdfIntegrator ℝ) : ℝ :=
  integrator.core.config.stop - integrator.core.config.start

/-- The loop makes no more attempts than its settings allow, and then the run
ends. -/
structure Terminates (integrator : BdfIntegrator ℝ)
    (attempt : Bdf.History ℝ → ℝ → Control → Bdf.AttemptRun ℝ Control)
    (told : ProgressEvent ℝ → Control → Control) (control : Control) (run : Run ℝ Control) :
    Prop where
  attempts : ∀ turns course, integrator.Reached attempt told control turns course →
    course.time < integrator.core.config.stop →
      (turns.length + 1 : ℝ) ≤ integrator.settings.attemptLimit integrator.span
  ends : Bdf.Ends integrator.settings integrator.core.config.stop run

theorem first_time (integrator : BdfIntegrator ℝ) (control : Control) :
    (integrator.first control).point.time = integrator.core.config.start :=
  (integrator.first_spec control).1

theorem setOut_time (integrator : BdfIntegrator ℝ) (settings : BdfSettings ℝ)
    (control s : Control) :
    (Bdf.setOut settings (integrator.first control).point s).time =
      integrator.core.config.start :=
  integrator.first_time control

theorem first_steady (hsettings : integrator.settings.validate = .ok ())
    (hconfig : integrator.core.validate = .ok ()) (around : Bdf.Surroundings ℝ Control)
    (control : Control) :
    Bdf.Steady around integrator.settings (integrator.first control).point.time
      integrator.core.config.stop
      (Bdf.setOut integrator.settings (integrator.first control).point
        (integrator.first control).control) := by
  have hlt := start_lt_stop_of_validate hconfig
  rw [← integrator.first_time control] at hlt
  exact Bdf.setOut_steady around (BdfSettings.valid_of_validate hsettings) hlt _

theorem Reached.length_lt (hsettings : integrator.settings.validate = .ok ())
    (hconfig : integrator.core.validate = .ok ()) (hrestrained : Bdf.Restrained attempt)
    (hreached : integrator.Reached attempt told control turns course)
    (hlt : course.time < integrator.core.config.stop) :
    (turns.length + 1 : ℝ) ≤ integrator.settings.attemptLimit integrator.span := by
  have hvalid := BdfSettings.valid_of_validate hsettings
  have hfirst := start_lt_stop_of_validate hconfig
  rw [← integrator.first_time control] at hfirst
  have hlength := hreached.turns.length_lt hvalid hrestrained
    (first_steady hsettings hconfig _ control) hfirst hlt
  rwa [setOut_time] at hlength

theorem runWith_ends (hsettings : integrator.settings.validate = .ok ())
    (hconfig : integrator.core.validate = .ok ())
    (hinitialized : integrator.core.initialized = true) (hcontained : Bdf.Contained attempt) (told : ProgressEvent ℝ → Control → Control)
    (control : Control) :
    Bdf.Ends integrator.settings integrator.core.config.stop
      (integrator.runWith attempt told control) := by
  have hensure : integrator.core.ensureInitialized = .ok () := if_pos hinitialized
  have hlt := start_lt_stop_of_validate hconfig
  rw [← integrator.first_time control] at hlt
  unfold runWith
  rw [hensure]
  simp only
  split
  · next cause hcause =>
    exact Bdf.ends_interrupt ((integrator.first_spec control).2 cause hcause) _
  · exact Bdf.integrate_ends (BdfSettings.valid_of_validate hsettings) hcontained hlt _

/-- The loop of a run comes to its end, whatever becomes of each attempt. -/
theorem run_terminates (hsettings : integrator.settings.validate = .ok ())
    (hconfig : integrator.core.validate = .ok ())
    (hinitialized : integrator.core.initialized = true)
    (told : ProgressEvent ℝ → Control → Control) (control : Control) :
    (∀ attempt, Bdf.Contained attempt →
      integrator.Terminates attempt told control (integrator.runWith attempt told control)) ∧
    integrator.Terminates (Bdf.attempt integrator.core integrator.settings) told control
      (integrator.run told control) := by
  have hany : ∀ attempt, Bdf.Contained attempt →
      integrator.Terminates attempt told control (integrator.runWith attempt told control) := by
    intro attempt hcontained
    refine ⟨?_, runWith_ends hsettings hconfig hinitialized hcontained told control⟩
    intro turns course hreached hlt
    exact hreached.length_lt hsettings hconfig hcontained.toRestrained hlt
  refine ⟨hany, ?_⟩
  rw [run_eq_runWith]
  exact hany _ (Bdf.attempt_contained _ _)

theorem run_terminates_atRest :
    let attempt : Bdf.History ℝ → ℝ → Control → Bdf.AttemptRun ℝ Control := Bdf.trusting [false]
    let told : ProgressEvent ℝ → Control → Control := fun _ control => control
    atRest.settings.validate = .ok () ∧ atRest.core.validate = .ok () ∧
      atRest.core.initialized = true ∧ Bdf.Contained attempt ∧
      atRest.Terminates attempt told .fresh (atRest.runWith attempt told .fresh) ∧
      atRest.Terminates (Bdf.attempt atRest.core atRest.settings) told .fresh
        (atRest.run told .fresh) := by
  intro attempt told
  have hcontained : Bdf.Contained attempt :=
    { toRestrained := (Bdf.trusting_lawful _).toRestrained, inner := nofun }
  obtain ⟨hany, hrun⟩ := run_terminates atRest_ready.settings atRest_ready.config rfl told .fresh
  exact ⟨atRest_ready.settings, atRest_ready.config, rfl, hcontained, hany attempt hcontained, hrun⟩

/-- With these settings nothing shorter than the smallest step is attempted or
left over in an interval that is not shorter itself. -/
def HoldsMinStep (settings : BdfSettings ℝ) : Prop :=
  ∀ integrator : BdfIntegrator ℝ, integrator.settings = settings →
    integrator.core.validate = .ok () → settings.minStep ≤ integrator.span →
    ∀ attempt, Bdf.Restrained attempt → ∀ told control turns course,
      integrator.Reached attempt told control turns course →
        course.time < integrator.core.config.stop →
          course.Ample settings integrator.core.config.stop

theorem Reached.ample (hsettings : integrator.settings.validate = .ok ())
    (hconfig : integrator.core.validate = .ok ()) (hrestrained : Bdf.Restrained attempt)
    (hwide : 2 * integrator.settings.minStep ≤ integrator.settings.maxStep)
    (hspan : integrator.settings.minStep ≤ integrator.span)
    (hreached : integrator.Reached attempt told control turns course)
    (hlt : course.time < integrator.core.config.stop) :
    course.Ample integrator.settings integrator.core.config.stop := by
  refine hreached.turns.ample (BdfSettings.valid_of_validate hsettings) hrestrained hwide
    (first_steady hsettings hconfig _ control) ?_ hlt
  rwa [setOut_time]

/-- An integrator for the system at rest from time zero to `stop`. -/
def restingUntil (stop : ℝ) (settings : BdfSettings ℝ) : BdfIntegrator ℝ :=
  ⟨{ atRest.core with config := { atRest.core.config with stop } }, settings⟩

theorem restingUntil_validate {stop : ℝ} (hstop : 0 < stop) (settings : BdfSettings ℝ) :
    (restingUntil stop settings).core.validate = .ok () :=
  validate_of_lt Nat.one_ne_zero rfl hstop (Nat.succ_ne_zero 99)

theorem restingUntil_first (stop : ℝ) (settings : BdfSettings ℝ) :
    (restingUntil stop settings).first .fresh = ⟨.ok (), ⟨0, [1], [0]⟩, .fresh⟩ :=
  atRest_first .fresh

theorem restingUntil_reached (stop : ℝ) (settings : BdfSettings ℝ)
    (attempt : Bdf.History ℝ → ℝ → Control → Bdf.AttemptRun ℝ Control)
    (told : ProgressEvent ℝ → Control → Control) :
    (restingUntil stop settings).Reached attempt told .fresh []
      (Bdf.setOut settings ⟨0, [1], [0]⟩ .fresh) where
  initialized := rfl
  first := by rw [restingUntil_first]
  turns := by
    rw [restingUntil_first]
    exact .start

/-- The smallest step is kept to if two of them fit into the largest one, and
only then. -/
theorem holdsMinStep_iff {settings : BdfSettings ℝ} (hsettings : settings.validate = .ok ()) :
    HoldsMinStep settings ↔ 2 * settings.minStep ≤ settings.maxStep := by
  have hvalid := BdfSettings.valid_of_validate hsettings
  constructor
  · -- otherwise an interval between the largest step and two smallest ones is halved at once
    intro hholds
    by_contra hnarrow
    obtain ⟨stop, hlong, hshort⟩ := exists_between (not_le.mp hnarrow)
    have hbounds := hvalid.minStep_le
    have hstop : 0 < stop := hvalid.maxStep.trans hlong
    have hspan : settings.minStep ≤ (restingUntil stop settings).span := by
      change settings.minStep ≤ stop - 0
      linarith
    have hample := hholds (restingUntil stop settings) rfl (restingUntil_validate hstop settings)
      hspan (Bdf.trusting [false]) (Bdf.trusting_lawful _).toRestrained (fun _ control => control)
      .fresh [] _ (restingUntil_reached stop settings _ _) hstop
    have hdesired := (Bdf.clamp_mem (x := settings.initialStep) hvalid.minStep_le).1
    have hplan : (Bdf.plan settings stop (Bdf.setOut settings ⟨0, [1], [0]⟩ Control.fresh)).1 =
        1 / 2 * (stop - 0) := by
      change Bdf.fitStep settings (stop - 0)
        (Scalar.clamp settings.initialStep settings.minStep settings.maxStep) = _
      rw [Bdf.fitStep_eq, if_pos (by linarith), if_neg (by linarith)]
    have hhalf : settings.minStep ≤ 1 / 2 * (stop - 0) := hplan ▸ hample.1
    linarith
  · intro hwide integrator hsame hconfig hspan attempt hrestrained told control turns course
      hreached hlt
    subst hsame
    exact hreached.ample hsettings hconfig hrestrained hwide hspan hlt

theorem holdsMinStep_iff_standard :
    let settings : BdfSettings ℝ := BdfSettings.standard
    settings.validate = .ok () ∧ 2 * settings.minStep ≤ settings.maxStep ∧
      HoldsMinStep settings := by
  intro settings
  have hsettings : settings.validate = .ok () :=
    BdfSettings.validate_of_valid BdfSettings.standard_valid
  have hwide : 2 * settings.minStep ≤ settings.maxStep := by
    simp only [settings, BdfSettings.standard, Exact.scientific_eq]
    norm_num
  exact ⟨hsettings, hwide, (holdsMinStep_iff hsettings).mpr hwide⟩

/-- Settings whose largest step has no room for two smallest ones. -/
def narrow : BdfSettings ℝ :=
  { BdfSettings.standard with initialStep := 1, minStep := 1, maxStep := 5 / 4 }

theorem narrow_valid : narrow.Valid := by
  constructor <;>
    simp only [narrow, BdfSettings.standard, BdfSettings.highestOrder, Exact.scientific_eq] <;>
    norm_num

theorem nextStep_narrow (order : Nat) : Bdf.nextStep narrow 1 0 order = 5 / 4 := by
  have hfactor : Bdf.stepFactor narrow 0 order = 2 := by
    simp [Bdf.stepFactor, Exact.literal_eq]
  unfold Bdf.nextStep
  rw [hfactor]
  simp [narrow, Scalar.clamp, Exact.half_eq, Exact.literal_eq]
  norm_num

/-- An interval that two of the largest steps would divide.  The first step is
the smallest one, and what remains is halved. -/
theorem not_ample_narrow :
    let integrator := restingUntil (5 / 2) narrow
    let attempt : Bdf.History ℝ → ℝ → Control → Bdf.AttemptRun ℝ Control := Bdf.trusting [false]
    let told : ProgressEvent ℝ → Control → Control := fun _ control => control
    narrow.validate = .ok () ∧ integrator.core.validate = .ok () ∧
      narrow.minStep ≤ integrator.span ∧ Bdf.Restrained attempt ∧
      ∃ turn course, integrator.Reached attempt told .fresh [turn] course ∧
        turn.accepted = true ∧ course.time = 1 ∧
        (Bdf.plan narrow (5 / 2) course).1 = 3 / 4 ∧ ¬ course.Ample narrow (5 / 2) := by
  intro integrator attempt told
  have hstop : (0 : ℝ) < 5 / 2 := by norm_num
  have hrestrained : Bdf.Restrained attempt := (Bdf.trusting_lawful _).toRestrained
  have hclamp : Scalar.clamp narrow.initialStep narrow.minStep narrow.maxStep = 1 := by
    simp [narrow, Scalar.clamp]
    norm_num
  let point : Point ℝ := ⟨0, [1], [0]⟩
  let start : Bdf.Course ℝ Control := Bdf.setOut narrow point .fresh
  have hstart : integrator.Reached attempt told .fresh [] start := restingUntil_reached _ _ _ _
  have hfirst : (Bdf.plan narrow (5 / 2) start).1 = 1 := by
    rw [Bdf.plan_step]
    change Bdf.fitStep narrow (5 / 2 - 0)
      (Scalar.clamp narrow.initialStep narrow.minStep narrow.maxStep) = 1
    rw [hclamp, Bdf.fitStep_eq, if_neg (by norm_num [narrow])]
  obtain ⟨next, hnext, haccepted, htime, hhistory⟩ : ∃ next,
      Bdf.advance { integrator.surroundings told with attempt } narrow (5 / 2) start = .inl next ∧
        (start.turn next).accepted = true ∧ next.time = (Bdf.plan narrow (5 / 2) start).2.1 ∧
        next.history = Bdf.afterAccepted narrow (Bdf.plan narrow (5 / 2) start).1 0
          (attempt (Bdf.plan narrow (5 / 2) start).2.2 (Bdf.plan narrow (5 / 2) start).2.1
            .fresh).history :=
    ⟨_, rfl, decide_eq_true Nat.one_lt_two, rfl, rfl⟩
  have hplanned : Bdf.Planned narrow (5 / 2) start (Bdf.plan narrow (5 / 2) start) := by
    have hsteady : Bdf.Steady { integrator.surroundings told with attempt } narrow point.time
        (5 / 2) start := Bdf.setOut_steady _ narrow_valid hstop Control.fresh
    exact Bdf.plan_planned narrow_valid hstop hsteady.minStep_le hsteady.step_le
  have hone : next.time = 1 := by
    rw [htime, Bdf.plan_time, hfirst]
    change (if (5 / 2 - 0 : ℝ) ≤ 1 then (5 / 2 : ℝ) else 0 + 1) = 1
    norm_num
  have hstep : next.history.step = 5 / 4 := by
    rw [hhistory, Bdf.afterAccepted_step narrow 0 hplanned.step_pos.ne'
      ((hrestrained.step _ _ _).trans hplanned.history_step), hfirst, nextStep_narrow]
  have hshort : (Bdf.plan narrow (5 / 2) next).1 = 3 / 4 := by
    rw [Bdf.plan_step, hone, hstep, Bdf.fitStep_eq, if_pos (by norm_num [narrow]),
      if_neg (by norm_num [narrow])]
    norm_num
  refine ⟨BdfSettings.validate_of_valid narrow_valid, restingUntil_validate hstop narrow, ?_,
    hrestrained, start.turn next, next, ⟨rfl, hstart.first, ?_⟩, haccepted, hone, hshort, ?_⟩
  · change (1 : ℝ) ≤ 5 / 2 - 0
    norm_num
  · exact hstart.turns.turn hstop hnext
  · intro hample
    have hle : (1 : ℝ) ≤ 3 / 4 := hshort ▸ hample.1
    norm_num at hle

end BdfIntegrator

end

end ImplicitDynamics
