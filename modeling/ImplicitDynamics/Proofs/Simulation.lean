import ImplicitDynamics.Proofs.Cancellation

/-!
# Runs in other surroundings

Surroundings that translate what goes on around a run, and that answer as before,
have the same run up to this translation.  A listener that leaves the control alone
is one case: without it the same points are logged, and nothing is told.
-/

namespace ImplicitDynamics

section Translation

variable {α σ τ : Type}

/-- A session whose surroundings are translated by `f` and whose events by `g`. -/
def Session.map (f : σ → τ) (g : Array (ProgressEvent α) → Array (ProgressEvent α))
    (session : Session α σ) : Session α τ :=
  ⟨session.points, g session.events, f session.around⟩

def Run.map (f : σ → τ) (g : Array (ProgressEvent α) → Array (ProgressEvent α))
    (run : Run α σ) : Run α τ :=
  ⟨run.outcome, run.session.map f g⟩

variable {f : σ → τ} {g : Array (ProgressEvent α) → Array (ProgressEvent α)}

theorem Run.interrupt_map (cause : SolverError α) (session : Session α σ) :
    interrupt cause (session.map f g) = (interrupt cause session).map f g := by
  cases cause <;> rfl

end Translation

namespace Bdf

section Translation

variable {α σ τ : Type} {f : σ → τ} {g : Array (ProgressEvent α) → Array (ProgressEvent α)}

def Course.map (f : σ → τ) (g : Array (ProgressEvent α) → Array (ProgressEvent α))
    (course : Course α σ) : Course α τ :=
  ⟨course.time, course.history, course.session.map f g⟩

def AttemptRun.map (f : σ → τ) (run : AttemptRun α σ) : AttemptRun α τ :=
  ⟨run.result, run.history, f run.around⟩

variable [Scalar α]

/-- What comes of an attempt, once it has been made. -/
def settle (around : Surroundings α σ) (settings : BdfSettings α) (stop : α)
    (course : Course α σ) (run : AttemptRun α σ) : Course α σ ⊕ Run α σ :=
  let (h, time, _) := plan settings stop course
  let after := course.amid run.around
  match run.result with
  | .error cause => .inr (Run.interrupt cause after.session)
  | .ok (.accepted error state derivatives) =>
    .inl (after.accept around settings stop time h error state derivatives run.history)
  | .ok _ =>
    match afterFailure settings course.time h run.history with
    | .error cause => .inr ⟨.error cause, after.session⟩
    | .ok history => .inl { after with history }

theorem advance_eq_settle (around : Surroundings α σ) (settings : BdfSettings α) (stop : α)
    (course : Course α σ) :
    advance around settings stop course =
      match around.proceed course.session.around with
      | (false, s) => .inr ⟨.ok .cancelled, (course.amid s).session⟩
      | (true, s) => settle around settings stop course (course.attempt around settings stop s) :=
  rfl

/-- The surroundings `other` answer as `around` does in a course whose history has
a property, which it keeps. -/
structure Simulates (f : σ → τ) (g : Array (ProgressEvent α) → Array (ProgressEvent α))
    (settings : BdfSettings α) (stop : α) (Inv : History α → Prop)
    (other : Surroundings α τ) (around : Surroundings α σ) : Prop where
  proceed : ∀ s, other.proceed (f s) = ((around.proceed s).1, f (around.proceed s).2)
  tell : ∀ (session : Session α σ) (time : α) (status : Status α),
    (session.map f g).tell other.told (other.event? time status) =
      (session.tell around.told (around.event? time status)).map f g
  attempt : ∀ {course : Course α σ} (s : σ), Inv course.history →
    (course.map f g).attempt other settings stop (f s) =
      (course.attempt around settings stop s).map f
  goesOn : ∀ {course next : Course α σ}, Inv course.history →
    advance around settings stop course = .inl next → Inv next.history

namespace Simulates

variable {settings : BdfSettings α} {stop : α} {Inv : History α → Prop}
  {other : Surroundings α τ} {around : Surroundings α σ} {course : Course α σ}

theorem settle (hsimulates : Simulates f g settings stop Inv other around) (course : Course α σ)
    (run : AttemptRun α σ) :
    settle other settings stop (course.map f g) (run.map f) =
      (Bdf.settle around settings stop course run).map (Course.map f g) (Run.map f g) := by
  have hplan : plan settings stop (course.map f g) = plan settings stop course := rfl
  have hfailure : ∀ outcome : Except (SolverError α) (History α),
      (match outcome with
        | .error cause => .inr ⟨.error cause, ((course.map f g).amid (f run.around)).session⟩
        | .ok history => .inl { (course.map f g).amid (f run.around) with history }
          : Course α τ ⊕ Run α τ) =
        (match outcome with
          | .error cause => .inr ⟨.error cause, (course.amid run.around).session⟩
          | .ok history => .inl { course.amid run.around with history }
            : Course α σ ⊕ Run α σ).map (Course.map f g) (Run.map f g) := by
    intro outcome
    cases outcome <;> rfl
  unfold Bdf.settle
  rw [hplan]
  rcases plan settings stop course with ⟨h, time, -⟩
  simp only [AttemptRun.map]
  cases run.result with
  | error cause =>
      exact congrArg Sum.inr (Run.interrupt_map cause (course.amid run.around).session)
  | ok attempt =>
      cases attempt with
      | accepted error state derivatives =>
          let next := afterAccepted settings h error run.history
          have htell := hsimulates.tell
            ((course.amid run.around).session.log ⟨time, state, derivatives⟩) time
            (.step time stop next.step (some next.order))
          exact congrArg (fun session => Sum.inl (Course.mk time next session)) htell
      | rejected error => exact hfailure _
      | notConverged => exact hfailure _

theorem advance (hsimulates : Simulates f g settings stop Inv other around)
    (hinv : Inv course.history) :
    advance other settings stop (course.map f g) =
      (Bdf.advance around settings stop course).map (Course.map f g) (Run.map f g) := by
  have hproceed := hsimulates.proceed course.session.around
  have hsession : (course.map f g).session.around = f course.session.around := rfl
  rw [advance_eq_settle, advance_eq_settle, hsession, hproceed]
  rcases around.proceed course.session.around with ⟨_ | _, s⟩
  · rfl
  · simp only [hsimulates.attempt s hinv]
    exact hsimulates.settle _ _

theorem follow (hsimulates : Simulates f g settings stop Inv other around) (fuel : Nat)
    (course : Course α σ) (hinv : Inv course.history) :
    follow other settings stop fuel (course.map f g) =
      (Bdf.follow around settings stop fuel course).map f g := by
  induction fuel generalizing course with
  | zero => rfl
  | succ fuel ih =>
      have htime : (course.map f g).time = course.time := rfl
      rw [Bdf.follow, Bdf.follow, hsimulates.advance hinv, htime]
      split
      · cases hadvance : Bdf.advance around settings stop course with
        | inl next => exact ih next (hsimulates.goesOn hinv hadvance)
        | inr run => rfl
      · rfl

end Simulates

end Translation

end Bdf

/-! ## Runs that nobody listens to -/

section Mute

variable {α : Type} [Scalar α] {told : ProgressEvent α → Control → Control}

namespace FixedStep

end FixedStep

namespace Bdf

end Bdf

namespace Integrator

end Integrator

end Mute

end ImplicitDynamics
