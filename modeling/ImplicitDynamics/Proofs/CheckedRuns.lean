import ImplicitDynamics.Proofs.CheckedAccesses
import ImplicitDynamics.Proofs.FailedPreparation

/-!
# Checked runs of variable order

Attempts and the control of step and order keep the shape of the history.  Every
attempt of a run therefore has all its accesses in range, and the checked run is the
run without checks, if the steps and typical magnitudes that it divides by are
allowed in each turn.
-/

namespace ImplicitDynamics

variable {α : Type} [Scalar α] {allowed : α → Bool} {integrator : BdfIntegrator α}
  {stop : α} {course : Bdf.Course α Control}

namespace Bdf

theorem advance_fits (hcore : integrator.core.Flagged)
    (hmax : integrator.settings.maxOrder ≤ BdfSettings.highestOrder)
    (told : ProgressEvent α → Control → Control) {next : Course α Control}
    (hhistory : course.history.Fits integrator.core.system.dimension)
    (hnext : advance (integrator.surroundings told) integrator.settings stop course = .inl next) :
    next.history.Fits integrator.core.system.dimension := by
  have hadvanced := advance_advanced (integrator.surroundings told) integrator.settings stop course
  have hattempt : ∀ control, (course.attempt (integrator.surroundings told) integrator.settings
      stop control).history.Fits integrator.core.system.dimension :=
    attempt_fits hcore (plan_fits hhistory integrator.settings stop) _ _
  rw [hnext] at hadvanced
  cases hadvanced with
  | accepted control => exact afterAccepted_fits hmax (hattempt control) _ _
  | retried control _ _ _ hfailure => exact afterFailure_fits (hattempt control) hfailure

/-- The steps and typical magnitudes that a turn divides by are allowed. -/
structure Course.Allowed (allowed : α → Bool) (settings : BdfSettings α) (stop : α)
    (course : Course α Control) : Prop where
  step : allowed course.history.step
  length : allowed (plan settings stop course).1
  planned : (plan settings stop course).2.2.Allowed allowed

/-- A property that goes on from course to course, and by which the divisors of each
turn are allowed. -/
structure Guarantees (allowed : α → Bool) (around : Surroundings α Control)
    (settings : BdfSettings α) (stop : α) (Inv : Course α Control → Prop) : Prop where
  allowed : ∀ {course}, Inv course → course.time < stop → course.Allowed allowed settings stop
  goesOn : ∀ {course next}, Inv course → course.time < stop →
    advance around settings stop course = .inl next → Inv next

theorem guarantees_anyDivisor (around : Surroundings α Control) (settings : BdfSettings α)
    (stop : α) : Guarantees Checked.anyDivisor around settings stop fun _ => True where
  allowed _ _ := ⟨rfl, rfl, rfl, fun _ _ => rfl⟩
  goesOn _ _ _ := trivial

end Bdf

/-- An integrator with a flag for each variable and settings that its runs can
divide by. -/
structure BdfIntegrator.Allowed (allowed : α → Bool) (integrator : BdfIntegrator α) : Prop where
  flagged : integrator.core.Flagged
  config : integrator.core.validate = .ok ()
  maxOrder_le : integrator.settings.maxOrder ≤ BdfSettings.highestOrder
  settings : integrator.settings.Allowed allowed

namespace Checked

variable (hdivisors : Divisors allowed) (hintegrator : integrator.Allowed allowed)

include hdivisors

theorem goOn_eq (integrator : BdfIntegrator α) (told : ProgressEvent α → Control → Control)
    {h : α} (hh : allowed h) (stop time error : α) (state derivatives : List α)
    (history : Bdf.History α) (course : Bdf.Course α Control) :
    goOn allowed integrator told stop time h error state derivatives history course =
      some (course.accept (integrator.surroundings told) integrator.settings stop time h error
        state derivatives history) := by
  unfold goOn
  rw [afterAccepted_eq hdivisors hh]
  rfl

include hintegrator

theorem advance_eq (told : ProgressEvent α → Control → Control)
    (hhistory : course.history.Fits integrator.core.system.dimension)
    (hcourse : course.Allowed allowed integrator.settings stop) :
    advance allowed integrator told stop course =
      some (Bdf.advance (integrator.surroundings told) integrator.settings stop course) := by
  have hlook : (integrator.surroundings told).proceed course.session.around =
      course.session.around.look := rfl
  unfold advance Bdf.advance
  rw [hlook]
  rcases course.session.around.look with ⟨_ | _, looked⟩
  · rfl
  have hattempt := attempt_eq hdivisors hintegrator.flagged
    (Core.dimension_ne_zero hintegrator.config) hintegrator.settings
    (Bdf.plan_fits hhistory integrator.settings stop) hcourse.planned
    (Bdf.plan integrator.settings stop course).2.1 looked
  have hlength := hcourse.length
  have hplan := plan_eq hcourse.step integrator.settings stop
  generalize Bdf.plan integrator.settings stop course = planned at hlength hattempt hplan
  rcases planned with ⟨h, time, history⟩
  simp only [hplan, hattempt, Option.bind_eq_bind, Option.bind_some, Option.pure_def,
    BdfIntegrator.surroundings]
  generalize Bdf.attempt integrator.core integrator.settings history time looked = run
  cases run.result with
  | error cause => rfl
  | ok outcome =>
      cases outcome with
      | accepted error state derivatives =>
          simp only [goOn_eq hdivisors integrator told hlength, Option.bind_some]
          rfl
      | rejected error =>
          cases Bdf.afterFailure integrator.settings course.time h run.history <;> rfl
      | notConverged =>
          cases Bdf.afterFailure integrator.settings course.time h run.history <;> rfl

variable {told : ProgressEvent α → Control → Control} {Inv : Bdf.Course α Control → Prop}

theorem follow_eq
    (hguarantees : Bdf.Guarantees allowed (integrator.surroundings told) integrator.settings stop
      Inv)
    (hhistory : course.history.Fits integrator.core.system.dimension) (hinv : Inv course)
    (fuel : Nat) :
    follow allowed integrator told stop fuel course =
      some (Bdf.follow (integrator.surroundings told) integrator.settings stop fuel course) := by
  induction fuel generalizing course with
  | zero => rfl
  | succ fuel ih =>
      rw [follow, Bdf.follow]
      split
      · next hlt =>
        rw [advance_eq hdivisors hintegrator told hhistory (hguarantees.allowed hinv hlt)]
        cases hadvance : Bdf.advance (integrator.surroundings told) integrator.settings stop
            course with
        | inr run => rfl
        | inl next =>
            have hfits := Bdf.advance_fits hintegrator.flagged hintegrator.maxOrder_le told
              hhistory hadvance
            exact ih hfits (hguarantees.goesOn hinv hlt hadvance)
      · rfl

theorem run_eq
    (hguarantees : Bdf.Guarantees allowed (integrator.surroundings told) integrator.settings
      integrator.core.config.stop Inv) {control : Control}
    (hinv : Inv (Bdf.setOut integrator.settings (integrator.first control).point
      (integrator.first control).control)) :
    run allowed integrator told control = some (integrator.run told control) := by
  have hstart := Core.start_fits hintegrator.config
  have hfirst : first allowed integrator.core control = some (integrator.first control) :=
    resolve_eq hdivisors hintegrator.flagged hstart control
  have hfits : (integrator.first control).point.Fits integrator.core.system.dimension :=
    hstart.resolve integrator.core control
  rw [BdfIntegrator.run_eq_runWith, BdfIntegrator.runWith, run]
  cases integrator.core.ensureInitialized with
  | error cause => rfl
  | ok _ =>
      simp only [hfirst, attemptBound_eq hintegrator.settings, Option.bind_eq_bind,
        Option.bind_some, Option.pure_def]
      cases (integrator.first control).result with
      | error cause => rfl
      | ok _ =>
          have hhistory := Bdf.History.start_fits hfits.state_length hfits.derivatives_length
            (Scalar.clamp integrator.settings.initialStep integrator.settings.minStep
              integrator.settings.maxStep)
          exact follow_eq hdivisors hintegrator hguarantees hhistory hinv _

omit hdivisors hintegrator

theorem run_of_not_initialized (hnot : integrator.core.initialized = false)
    (told : ProgressEvent α → Control → Control) (control : Control) :
    run allowed integrator told control = some (integrator.run told control) := by
  unfold run BdfIntegrator.run
  simp only [Core.ensureInitialized_of_not hnot]

end Checked

end ImplicitDynamics
