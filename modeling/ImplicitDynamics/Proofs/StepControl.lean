import ImplicitDynamics.Integration.Bdf.StepControl
import ImplicitDynamics.Proofs.Exact

/-!
# Steps stay within their bounds

In exact arithmetic a step that is proposed lies between the smallest and the
largest step.  The step that is fitted to the rest of the interval is never
longer than the largest one, and it either ends the interval or is at least as
long as the smallest step or half of the largest.
-/

namespace ImplicitDynamics

noncomputable section

theorem Setting.positive_of_pos {value : ℝ} (key : String) (hpos : 0 < value) :
    Setting.positive key value = .ok value := by
  unfold Setting.positive
  rw [Exact.zero_eq, if_pos]
  simpa using hpos

theorem Setting.positive_of_not_pos {value : ℝ} (key : String) (hnot : ¬ 0 < value) :
    Setting.positive key value = .error (.invalidInput (.notPositive key value)) := by
  unfold Setting.positive
  rw [Exact.zero_eq, if_neg]
  simpa using hnot

namespace BdfSettings

structure Valid (settings : BdfSettings ℝ) : Prop where
  relativeTolerance : 0 < settings.relativeTolerance
  absoluteTolerance : 0 < settings.absoluteTolerance
  initialStep : 0 < settings.initialStep
  minStep : 0 < settings.minStep
  maxStep : 0 < settings.maxStep
  safetyFactor : 0 < settings.safetyFactor
  correctorTolerance : 0 < settings.correctorTolerance
  minStep_le : settings.minStep ≤ settings.maxStep
  maxOrder_pos : 0 < settings.maxOrder
  maxOrder_le : settings.maxOrder ≤ highestOrder
  safetyFactor_le : settings.safetyFactor ≤ 1

theorem notPositive?_eq_none_iff {entries : List (String × ℝ)} :
    notPositive? entries = none ↔ ∀ entry ∈ entries, 0 < entry.2 := by
  induction entries with
  | nil => simp [notPositive?]
  | cons entry rest ih =>
      obtain ⟨key, value⟩ := entry
      rw [notPositive?, List.forall_mem_cons]
      by_cases hpos : 0 < value
      · rw [Setting.positive_of_pos key hpos]
        simpa [hpos] using ih
      · rw [Setting.positive_of_not_pos key hpos]
        simp [hpos]

theorem valid_of_validate {settings : BdfSettings ℝ} (hvalidate : settings.validate = .ok ()) :
    settings.Valid := by
  unfold validate at hvalidate
  split at hvalidate
  · cases hvalidate
  · next hpositive =>
    split at hvalidate
    · cases hvalidate
    · next hbounds =>
      split at hvalidate
      · cases hvalidate
      · next horder =>
        split at hvalidate
        · cases hvalidate
        · next hsafety =>
          have hall := notPositive?_eq_none_iff.mp hpositive
          simp only [positives, List.forall_mem_cons] at hall
          obtain ⟨h1, h2, h3, h4, h5, h6, h7, -⟩ := hall
          simp only [Bool.or_eq_true, decide_eq_true_eq, not_or, Nat.not_lt] at horder
          rw [Exact.one_eq, Exact.lt_iff, not_lt] at hsafety
          exact ⟨h1, h2, h3, h4, h5, h6, h7, not_lt.mp hbounds,
            Nat.pos_of_ne_zero horder.1, horder.2, hsafety⟩

theorem validate_of_valid {settings : BdfSettings ℝ} (hvalid : settings.Valid) :
    settings.validate = .ok () := by
  have hpositive : notPositive? settings.positives = none := by
    rw [notPositive?_eq_none_iff]
    simp only [positives, List.forall_mem_cons]
    exact ⟨hvalid.relativeTolerance, hvalid.absoluteTolerance, hvalid.initialStep,
      hvalid.minStep, hvalid.maxStep, hvalid.safetyFactor, hvalid.correctorTolerance, by simp⟩
  have horder : ¬ (settings.maxOrder = 0 || decide (highestOrder < settings.maxOrder)) = true := by
    have hpos := hvalid.maxOrder_pos
    have hle := hvalid.maxOrder_le
    simp only [Bool.or_eq_true, decide_eq_true_eq]
    omega
  have hsafety : ¬ (1 : ℝ) < settings.safetyFactor := not_lt.mpr hvalid.safetyFactor_le
  unfold validate
  rw [hpositive]
  simp only [Exact.lt_iff, Exact.one_eq]
  rw [if_neg (not_lt.mpr hvalid.minStep_le), if_neg horder, if_neg hsafety]

theorem standard_valid : (standard : BdfSettings ℝ).Valid := by
  constructor <;> simp only [standard, highestOrder, Exact.scientific_eq] <;> norm_num

/-- The shortest step that does not end the interval. -/
def shortestStep {α : Type} [Scalar α] (settings : BdfSettings α) : α :=
  Scalar.min settings.minStep (0.5 * settings.maxStep)

theorem shortestStep_eq (settings : BdfSettings ℝ) :
    settings.shortestStep = min settings.minStep (1 / 2 * settings.maxStep) := by
  rw [shortestStep, Exact.half_eq, Exact.min_eq, Exact.mul_eq]

theorem Valid.shortestStep_pos {settings : BdfSettings ℝ} (hvalid : settings.Valid) :
    0 < settings.shortestStep := by
  rw [shortestStep_eq]
  exact lt_min hvalid.minStep (by linarith [hvalid.maxStep])

end BdfSettings

namespace Bdf

variable {settings : BdfSettings ℝ}

theorem clamp_mem {x lo hi : ℝ} (hle : lo ≤ hi) :
    lo ≤ Scalar.clamp x lo hi ∧ Scalar.clamp x lo hi ≤ hi := by
  unfold Scalar.clamp
  split
  · exact ⟨le_refl lo, hle⟩
  · next hlo =>
    split
    · exact ⟨hle, le_refl hi⟩
    · next hhi => exact ⟨not_lt.mp hlo, not_lt.mp hhi⟩

/-! ## The step that is attempted -/

theorem fitStep_eq (settings : BdfSettings ℝ) (remaining desired : ℝ) :
    fitStep settings remaining desired =
      if remaining ≤ desired + settings.minStep then
        if remaining ≤ settings.maxStep then remaining else 1 / 2 * remaining
      else desired := by
  simp only [fitStep, Exact.half_eq, Exact.le_iff, Exact.add_eq, Exact.mul_eq]

/-- A fitted step keeps to the largest step.  It ends the interval, or it is
shorter than what remains and not shorter than the shortest step. -/
theorem fitStep_spec (hvalid : settings.Valid) {remaining desired : ℝ}
    (hremaining : 0 < remaining) (hmin : settings.minStep ≤ desired)
    (hmax : desired ≤ settings.maxStep) :
    0 < fitStep settings remaining desired ∧
      fitStep settings remaining desired ≤ settings.maxStep ∧
      (fitStep settings remaining desired = remaining ∨
        settings.shortestStep ≤ fitStep settings remaining desired ∧
          fitStep settings remaining desired < remaining) := by
  have hpos := hvalid.minStep
  have hbounds := hvalid.minStep_le
  rw [fitStep_eq]
  by_cases hnear : remaining ≤ desired + settings.minStep
  · rw [if_pos hnear]
    by_cases hlast : remaining ≤ settings.maxStep
    · rw [if_pos hlast]
      exact ⟨hremaining, hlast, .inl rfl⟩
    · rw [if_neg hlast]
      have hlong := not_le.mp hlast
      refine ⟨by linarith, by linarith, .inr ⟨?_, by linarith⟩⟩
      rw [settings.shortestStep_eq]
      exact min_le_of_right_le (by linarith)
  · rw [if_neg hnear]
    have hfar := not_le.mp hnear
    refine ⟨by linarith, hmax, .inr ⟨?_, by linarith⟩⟩
    rw [settings.shortestStep_eq]
    exact min_le_of_left_le hmin

variable {σ : Type} {stop : ℝ} {course : Course ℝ σ}

theorem rescale_step (history : History ℝ) (ratio : ℝ) :
    (history.rescale ratio).step = history.step * ratio := rfl

theorem rescale_consecutiveFailures (history : History ℝ) (ratio : ℝ) :
    (history.rescale ratio).consecutiveFailures = history.consecutiveFailures := rfl

theorem plan_step (settings : BdfSettings ℝ) (stop : ℝ) (course : Course ℝ σ) :
    (plan settings stop course).1 =
      fitStep settings (stop - course.time) course.history.step := rfl

theorem plan_time (settings : BdfSettings ℝ) (stop : ℝ) (course : Course ℝ σ) :
    (plan settings stop course).2.1 =
      if stop - course.time ≤ (plan settings stop course).1 then stop
      else course.time + (plan settings stop course).1 := rfl

/-- What is planned from a course whose step is within its bounds. -/
structure Planned (settings : BdfSettings ℝ) (stop : ℝ) (course : Course ℝ σ)
    (plan : ℝ × ℝ × History ℝ) : Prop where
  step_pos : 0 < plan.1
  step_le : plan.1 ≤ settings.maxStep
  history_step : plan.2.2.step = plan.1
  failures : plan.2.2.consecutiveFailures = course.history.consecutiveFailures
  time_lt : course.time < plan.2.1
  time_le : plan.2.1 ≤ stop
  span_le : plan.2.1 - course.time ≤ settings.maxStep
  progress : plan.2.1 = stop ∨ settings.shortestStep ≤ plan.2.1 - course.time

theorem plan_planned (hvalid : settings.Valid) (hlt : course.time < stop)
    (hmin : settings.minStep ≤ course.history.step)
    (hmax : course.history.step ≤ settings.maxStep) :
    Planned settings stop course (plan settings stop course) := by
  have hremaining : 0 < stop - course.time := sub_pos.mpr hlt
  have hfit := fitStep_spec hvalid hremaining hmin hmax
  have hstep : course.history.step ≠ 0 := (lt_of_lt_of_le hvalid.minStep hmin).ne'
  have hhistory : (plan settings stop course).2.2 =
      if Scalar.same (plan settings stop course).1 course.history.step then course.history
      else course.history.rescale ((plan settings stop course).1 / course.history.step) := rfl
  rw [← plan_step] at hfit
  obtain ⟨hpos, hle, hfit⟩ := hfit
  have hspan : (plan settings stop course).2.1 - course.time ≤ (plan settings stop course).1 ∧
      course.time < (plan settings stop course).2.1 ∧
      (plan settings stop course).2.1 ≤ stop ∧
      ((plan settings stop course).2.1 = stop ∨
        settings.shortestStep ≤ (plan settings stop course).2.1 - course.time) := by
    rw [plan_time]
    split
    · next hlast => exact ⟨hlast, hlt, le_refl stop, .inl rfl⟩
    · next hmore =>
      have hbefore := not_le.mp hmore
      refine ⟨by linarith, by linarith, by linarith, .inr ?_⟩
      rcases hfit with hall | ⟨hshortest, -⟩
      · linarith
      · linarith
  refine ⟨hpos, hle, ?_, ?_, hspan.2.1, hspan.2.2.1, le_trans hspan.1 hle, hspan.2.2.2⟩
  · rw [hhistory]
    split
    · next hsame => exact ((Exact.same_eq_true_iff _ _).mp hsame).symm
    · rw [rescale_step]
      exact mul_div_cancel₀ _ hstep
  · rw [hhistory]
    split <;> rfl

/-! ## The step after an attempt -/

theorem nextOrder_step (settings : BdfSettings ℝ) (error : ℝ) (recent : Bool)
    (history : History ℝ) : (nextOrder settings error recent history).step = history.step := by
  unfold nextOrder
  simp only
  split
  · rfl
  · split <;> rfl

theorem nextOrder_consecutiveFailures (settings : BdfSettings ℝ) (error : ℝ) (recent : Bool)
    (history : History ℝ) :
    (nextOrder settings error recent history).consecutiveFailures =
      history.consecutiveFailures := by
  unfold nextOrder
  simp only
  split
  · rfl
  · split <;> rfl

theorem afterAccepted_step (settings : BdfSettings ℝ) (error : ℝ) {h : ℝ} {history : History ℝ}
    (hh : h ≠ 0) (hstep : history.step = h) :
    (afterAccepted settings h error history).step = nextStep settings h error history.order := by
  unfold afterAccepted
  rw [rescale_step, nextOrder_step]
  change history.step * (nextStep settings h error history.order / h) = _
  rw [hstep]
  exact mul_div_cancel₀ _ hh

/-- Whatever the error was, the step that is proposed after an accepted step is
within the bounds. -/
theorem afterAccepted_spec (hvalid : settings.Valid) (error : ℝ) {h : ℝ} {history : History ℝ}
    (hh : 0 < h) (hstep : history.step = h) :
    settings.minStep ≤ (afterAccepted settings h error history).step ∧
      (afterAccepted settings h error history).step ≤ settings.maxStep ∧
      (afterAccepted settings h error history).consecutiveFailures = 0 := by
  have hclamp : settings.minStep ≤ nextStep settings h error history.order ∧
      nextStep settings h error history.order ≤ settings.maxStep :=
    clamp_mem hvalid.minStep_le
  rw [afterAccepted_step settings error hh.ne' hstep]
  refine ⟨hclamp.1, hclamp.2, ?_⟩
  unfold afterAccepted
  rw [rescale_consecutiveFailures, nextOrder_consecutiveFailures]

/-- A failed attempt halves the step and counts, or it ends the run. -/
theorem afterFailure_spec {time h : ℝ} {history next : History ℝ} (hstep : history.step = h)
    (hnext : afterFailure settings time h history = .ok next) :
    next.step = h / 2 ∧ settings.minStep ≤ h / 2 ∧
      next.consecutiveFailures = history.consecutiveFailures + 1 ∧
      history.consecutiveFailures + 1 ≤ settings.maxConsecutiveFailures := by
  unfold afterFailure at hnext
  simp only at hnext
  split at hnext
  · cases hnext
  · next hcount =>
    split at hnext
    · cases hnext
    · next hsmall =>
      cases hnext
      rw [Exact.half_eq, Exact.mul_eq, Exact.lt_iff, not_lt] at hsmall
      refine ⟨?_, by linarith, ?_, Nat.le_of_not_lt hcount⟩
      · rw [rescale_step, Exact.half_eq]
        split <;>
          · change history.step * (1 / 2) = h / 2
            rw [hstep]
            ring
      · rw [rescale_consecutiveFailures]
        split <;> rfl

/-- How a failed attempt ends a run. -/
theorem afterFailure_error {time h : ℝ} {history : History ℝ} {cause : SolverError ℝ}
    (hfailure : afterFailure settings time h history = .error cause) :
    (cause = .tooManyFailures time (history.consecutiveFailures + 1) ∧
        settings.maxConsecutiveFailures < history.consecutiveFailures + 1) ∨
      ∃ step, cause = .stepSizeTooSmall time step := by
  unfold afterFailure at hfailure
  simp only at hfailure
  split at hfailure
  · next hmany =>
    cases hfailure
    exact .inl ⟨rfl, hmany⟩
  · split at hfailure
    · cases hfailure
      exact .inr ⟨_, rfl⟩
    · cases hfailure

end Bdf

end

end ImplicitDynamics
