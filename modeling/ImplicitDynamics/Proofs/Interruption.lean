import ImplicitDynamics.Integration.Integrator

/-!
# Interruption of a computation

A computation at a point looks at its control now and then.  A look that finds
a cancellation ends it at once; any other look leaves no trace in the result.
So with any control the result is the one that an undisturbed computation comes
to, or a cancellation.
-/

namespace ImplicitDynamics

/-- Not cancelled, and no cancellation on its way. -/
structure Control.Calm (control : Control) : Prop where
  active : control.cancelled = false
  undisturbed : control.arriving = none

theorem Control.Calm.look {control : Control} (hcalm : control.Calm) :
    control.look = (true, control) := by
  rw [Control.look, hcalm.active, hcalm.undisturbed]
  rfl

/-- What is read off a computation is the same with every control, except that
a control that is not calm may make it `cancelled`. -/
structure Interruptible {ρ ε β : Type} (view : ρ → Except ε β × Control) (cancelled : ε)
    (compute : Control → ρ) : Prop where
  calm : ∀ {control : Control}, control.Calm → (view (compute control)).2.Calm
  passes : ∀ {control : Control}, control.Calm →
    (view (compute control)).1 ≠ .error cancelled
  alike : ∀ {control : Control}, control.Calm → ∀ other,
    (view (compute other)).1 = (view (compute control)).1 ∨
      (view (compute other)).1 = .error cancelled

namespace Interruptible

variable {ρ ε β δ γ : Type} {view : ρ → Except ε β × Control} {cancelled : ε}
  {compute : Control → ρ} {part : Control → Except δ γ × Control} {interrupted : δ}
  {embed : δ → ε} {goOn : γ → Control → ρ}

theorem reading_iff : Interruptible id cancelled (fun control => view (compute control)) ↔
    Interruptible view cancelled compute :=
  ⟨fun h => ⟨h.calm, h.passes, h.alike⟩, fun h => ⟨h.calm, h.passes, h.alike⟩⟩

theorem pure (result : Except ε β) (hcompute : ∀ control, view (compute control) = (result, control))
    (hresult : result ≠ .error cancelled) : Interruptible view cancelled compute where
  calm {control} hcalm := by
    rw [hcompute]
    exact hcalm
  passes {control} _ := by
    rw [hcompute]
    exact hresult
  alike {control} _ other := by
    rw [hcompute, hcompute]
    exact .inl rfl

theorem ne_of_error (hcompute : Interruptible view cancelled compute) {control : Control}
    (hcalm : control.Calm) {cause : ε} (hresult : (view (compute control)).1 = .error cause) :
    cause ≠ cancelled := by
  rintro rfl
  exact hcompute.passes hcalm hresult

/-- A computation that does a part and goes on with its result. -/
theorem bind (hpart : Interruptible id interrupted part)
    (hembed : ∀ cause, embed cause = cancelled ↔ cause = interrupted)
    (hfail : ∀ {control cause after}, part control = (.error cause, after) →
      view (compute control) = (.error (embed cause), after))
    (hok : ∀ {control value after}, part control = (.ok value, after) →
      view (compute control) = view (goOn value after))
    (hgoOn : ∀ value, Interruptible view cancelled (goOn value)) :
    Interruptible view cancelled compute where
  calm {control} hcalm := by
    have hafter := hpart.calm hcalm
    rcases hresult : part control with ⟨cause | value, after⟩
    · rw [hfail hresult]
      rwa [hresult] at hafter
    · rw [hok hresult]
      rw [hresult] at hafter
      exact (hgoOn value).calm hafter
  passes {control} hcalm := by
    have hafter := hpart.calm hcalm
    rcases hresult : part control with ⟨cause | value, after⟩
    · have hcause := hpart.ne_of_error hcalm (congrArg Prod.fst hresult)
      rw [hfail hresult]
      exact fun heq => hcause ((hembed cause).mp (Except.error.inj heq))
    · rw [hok hresult]
      rw [hresult] at hafter
      exact (hgoOn value).passes hafter
  alike {control} hcalm other := by
    have hafter := hpart.calm hcalm
    have halike := hpart.alike hcalm other
    rcases hresult : part control with ⟨outcome, after⟩
    rcases hother : part other with ⟨result, left⟩
    rw [hresult] at hafter
    rw [hresult, hother] at halike
    rcases halike with hsame | hstopped
    · cases hsame
      cases outcome with
      | error cause =>
          rw [hfail hresult, hfail hother]
          exact .inl rfl
      | ok value =>
          -- the part has left a calm control, whatever the other one went through
          rw [hok hresult, hok hother]
          exact (hgoOn value).alike hafter left
    · cases hstopped
      rw [hfail hother, (hembed interrupted).mpr rfl]
      exact .inr rfl

/-- A computation that is not interrupted comes to the result of an undisturbed
one. -/
theorem compare (hcompute : Interruptible view cancelled compute) {control : Control}
    (hcalm : control.Calm) (other : Control) :
    (view (compute other)).1 = .error cancelled ∨
      (∃ cause, cause ≠ cancelled ∧ (view (compute other)).1 = .error cause ∧
        (view (compute control)).1 = .error cause) ∨
      ∃ value, (view (compute other)).1 = .ok value ∧ (view (compute control)).1 = .ok value := by
  rcases hcompute.alike hcalm other with hsame | hstopped
  · rw [hsame]
    cases hresult : (view (compute control)).1 with
    | error cause => exact .inr (.inl ⟨cause, hcompute.ne_of_error hcalm hresult, rfl, rfl⟩)
    | ok value => exact .inr (.inr ⟨value, rfl, rfl⟩)
  · exact .inl hstopped

/-- A part that is done after a look. -/
def guard (interrupted : δ) (part : Control → Except δ γ × Control) (control : Control) :
    Except δ γ × Control :=
  match control.look with
  | (false, after) => (.error interrupted, after)
  | (true, after) => part after

theorem guard_interruptible (hpart : Interruptible id interrupted part) :
    Interruptible id interrupted (guard interrupted part) where
  calm hcalm := by
    rw [guard, hcalm.look]
    exact hpart.calm hcalm
  passes hcalm := by
    rw [guard, hcalm.look]
    exact hpart.passes hcalm
  alike hcalm other := by
    rw [guard, guard, hcalm.look]
    rcases other.look with ⟨_ | _, after⟩
    · exact .inr rfl
    · exact hpart.alike hcalm after

/-- A computation that looks at its control, does a part and goes on with its
result. -/
theorem look_bind (hpart : Interruptible id interrupted part)
    (hembed : ∀ cause, embed cause = cancelled ↔ cause = interrupted)
    (hstop : ∀ {control after}, control.look = (false, after) →
      view (compute control) = (.error cancelled, after))
    (hfail : ∀ {control middle cause after}, control.look = (true, middle) →
      part middle = (.error cause, after) →
      view (compute control) = (.error (embed cause), after))
    (hok : ∀ {control middle value after}, control.look = (true, middle) →
      part middle = (.ok value, after) → view (compute control) = view (goOn value after))
    (hgoOn : ∀ value, Interruptible view cancelled (goOn value)) :
    Interruptible view cancelled compute := by
  apply bind (guard_interruptible hpart) hembed _ _ hgoOn
  · intro control cause after hcause
    unfold guard at hcause
    rcases hlook : control.look with ⟨_ | _, middle⟩
    · rw [hlook] at hcause
      cases hcause
      rw [hstop hlook, (hembed interrupted).mpr rfl]
    · rw [hlook] at hcause
      exact hfail hlook hcause
  · intro control value after hvalue
    unfold guard at hvalue
    rcases hlook : control.look with ⟨_ | _, middle⟩
    · rw [hlook] at hvalue
      cases hvalue
    · rw [hlook] at hvalue
      exact hok hlook hvalue

end Interruptible

section

variable {α : Type}

namespace NewtonRun

variable {run : NewtonRun α}

/-- The point that was reached, unless the iteration failed. -/
def reached (run : NewtonRun α) : Except (SolverError α) (Point α) × Control :=
  (run.result.map fun _ => run.point, run.control)

theorem reached_eq_error {cause : SolverError α} {after : Control} :
    run.reached = (.error cause, after) ↔ run.result = .error cause ∧ run.control = after := by
  rcases run with ⟨_ | _, point, control⟩ <;> simp [reached, Except.map]

theorem reached_eq_ok {point : Point α} {after : Control} :
    run.reached = (.ok point, after) ↔
      (∃ outcome, run.result = .ok outcome) ∧ run.point = point ∧ run.control = after := by
  rcases run with ⟨_ | _, point, control⟩ <;> simp [reached, Except.map]

end NewtonRun

namespace Core.PointRun

variable {run : PointRun α}

def reached (run : PointRun α) : Except (SolverError α) (Point α) × Control :=
  (run.result.map fun _ => run.point, run.control)

theorem reached_eq_error {cause : SolverError α} :
    run.reached.1 = .error cause ↔ run.result = .error cause := by
  rcases run with ⟨_ | _, point, control⟩ <;> simp [reached, Except.map]

theorem reached_eq_ok {point : Point α} :
    run.reached.1 = .ok point ↔ run.result = .ok () ∧ run.point = point := by
  rcases run with ⟨_ | _, point, control⟩ <;> simp [reached, Except.map]

end Core.PointRun

namespace Bdf.AttemptRun

variable {run : AttemptRun α Control}

/-- The attempt and the history that it left, unless it failed. -/
def reached (run : AttemptRun α Control) :
    Except (SolverError α) (Attempt α × History α) × Control :=
  (run.result.map fun attempt => (attempt, run.history), run.around)

theorem reached_eq_error {cause : SolverError α} :
    run.reached.1 = .error cause ↔ run.result = .error cause := by
  rcases run with ⟨_ | _, history, around⟩ <;> simp [reached, Except.map]

theorem reached_eq_ok {attempt : Attempt α} {history : History α} :
    run.reached.1 = .ok (attempt, history) ↔ run.result = .ok attempt ∧ run.history = history := by
  rcases run with ⟨_ | _, history, around⟩ <;> simp [reached, Except.map]

end Bdf.AttemptRun

end

/-! ## Jacobians -/

theorem SolverError.ofJacobian_eq_cancelled {α : Type} (cause : JacobianError α) :
    SolverError.ofJacobian cause = .cancelled ↔ cause = .cancelled := by
  cases cause <;> simp [SolverError.ofJacobian]

variable {α : Type} [Scalar α]

namespace Probe

variable {β : Type}

theorem sweep_interruptible (probe : Probe α) (perturbation : Perturbation α)
    (readOff : Move α → List α → β) (finished total : Nat) (scratch : Scratch α)
    (moves : List (Move α)) :
    Interruptible id .cancelled
      (probe.sweep Supervisor.controlled perturbation readOff finished total scratch moves) := by
  induction moves generalizing finished scratch with
  | nil => exact .pure _ (fun _ => rfl) nofun
  | cons move rest ih =>
      rcases hmoved : scratch.evaluate probe.system probe.time perturbation move.coordinate
        move.distance with ⟨_ | cause, moved⟩
      · apply Interruptible.look_bind (ih (finished + 1) moved) (fun _ => Iff.rfl)
        · intro control after hlook
          simp only [Probe.sweep, Supervisor.controlled, hlook]
          rfl
        · intro control middle cause after hlook hrest
          simp only [Probe.sweep, Supervisor.controlled, hlook, hmoved] at hrest ⊢
          simp only [hrest]
          rfl
        · -- the equation tells what the sweep goes on with
          intro control middle others after hlook hrest
          simp only [Probe.sweep, Supervisor.controlled, hlook, hmoved] at hrest ⊢
          simp only [hrest]
          rfl
        · exact fun others => .pure _ (fun _ => rfl) nofun
      · have hfailed : Interruptible id .cancelled fun control =>
            ((.error (.evaluation cause), control) :
              Except (JacobianError α) Empty × Control) :=
          .pure _ (fun _ => rfl) nofun
        apply hfailed.look_bind (fun _ => Iff.rfl)
        · intro control after hlook
          simp only [Probe.sweep, Supervisor.controlled, hlook]
          rfl
        · rintro control middle cause after hlook ⟨⟩
          simp only [Probe.sweep, Supervisor.controlled, hlook, hmoved]
          rfl
        · exact nofun
        · exact fun value : Empty => value.elim
        · exact fun value : Empty => value.elim

theorem columns_interruptible (probe : Probe α) (base : List α) (columns : List Nat)
    (perturbation : Perturbation α) (increments : List α) :
    Interruptible id .cancelled
      (probe.columns Supervisor.controlled base columns perturbation increments) := by
  unfold Probe.columns
  split
  · exact .pure _ (fun _ => rfl) nofun
  · exact probe.sweep_interruptible _ _ _ _ _ _

end Probe

/-! ## Newton iterations -/

namespace Newton

theorem iterate_interruptible (system : ResidualSystem α) (tolerance : α) (unknowns : Unknowns)
    (indices : List Nat) (left iterations : Nat) (point : Point α) :
    Interruptible NewtonRun.reached .cancelled
      (iterate system tolerance unknowns indices left iterations point) := by
  induction left generalizing iterations point with
  | zero =>
      cases hresidual : system.evaluate point.time point.state point.derivatives with
      | error cause =>
          refine .pure (.error (.evaluation cause)) (fun control => ?_) nofun
          rw [iterate]
          simp only [hresidual]
          rfl
      | ok residual =>
          refine .pure (.ok point) (fun control => ?_) nofun
          rw [iterate]
          simp only [hresidual]
          split <;> rfl
  | succ left ih =>
      cases hresidual : system.evaluate point.time point.state point.derivatives with
      | error cause =>
          refine .pure (.error (.evaluation cause)) (fun control => ?_) nofun
          rw [iterate]
          simp only [hresidual]
          rfl
      | ok residual =>
          by_cases hnorm : Linear.l2Norm (select indices residual) < tolerance
          · refine .pure (.ok point) (fun control => ?_) nofun
            rw [iterate]
            simp only [hresidual, if_pos hnorm]
            rfl
          · apply Interruptible.look_bind (Probe.columns_interruptible
              ⟨system, point.time, point.state, point.derivatives⟩ residual indices
              unknowns.perturbation
              ((unknowns.values point).map fun v => FiniteDifference.increment v 1))
              SolverError.ofJacobian_eq_cancelled
            · intro control after hlook
              rw [iterate]
              simp only [hresidual, if_neg hnorm, hlook]
              rfl
            · intro control middle cause after hlook hcolumns
              rw [iterate]
              simp only [hresidual, if_neg hnorm, hlook, hcolumns]
              rfl
            · intro control middle columns after hlook hcolumns
              rw [iterate]
              simp only [hresidual, if_neg hnorm, hlook, hcolumns]
              rfl
            · intro columns
              cases correction indices columns (select indices residual) with
              | none => exact .pure (.ok point) (fun _ => rfl) nofun
              | some updates => exact ih _ _

theorem solve_interruptible (system : ResidualSystem α) (settings : NewtonSettings α)
    (unknowns : Unknowns) (indices : List Nat) (point : Point α) :
    Interruptible NewtonRun.reached .cancelled (solve system settings unknowns indices point) := by
  unfold solve
  split
  · exact .pure (.ok point) (fun _ => rfl) nofun
  · exact iterate_interruptible _ _ _ _ _ _ _

end Newton

namespace Core

theorem resolve_interruptible (core : Core α) (point : Point α) :
    Interruptible PointRun.reached .cancelled (core.resolve point) := by
  have hfirst := Interruptible.reading_iff.mpr (Newton.solve_interruptible core.system core.newton
    .state core.algebraicIndices point)
  have hsecond := fun reached : Point α => Interruptible.reading_iff.mpr
    (Newton.solve_interruptible core.system core.newton .derivatives core.differentialIndices
      { reached with derivatives := zeroWhere core.algebraic reached.derivatives })
  apply Interruptible.reading_iff.mp
  apply hfirst.bind (fun _ => Iff.rfl) _ _ hsecond
  · intro control cause after hfailed
    obtain ⟨hresult, rfl⟩ := NewtonRun.reached_eq_error.mp hfailed
    simp only [resolve, resolveAlgebraic, hresult]
    rfl
  · intro control reached after hreached
    obtain ⟨⟨outcome, hresult⟩, rfl, rfl⟩ := NewtonRun.reached_eq_ok.mp hreached
    simp only [resolve, resolveAlgebraic, hresult, PointRun.reached, NewtonRun.reached,
      resolveDerivatives]
    split
    next hsecond => simp [hsecond]; rfl
    next hsecond => simp [hsecond]; rfl

end Core

namespace FixedStep

theorem implicitState_interruptible (core : Core α) (size : Nat) (t h : α) (previous : List α)
    (left : Nat) (state : List α) :
    Interruptible id .cancelled (implicitState core size t h previous left state) := by
  induction left generalizing state with
  | zero =>
      cases hresidual : core.system.evaluate t state (rates size h previous state) with
      | error cause =>
          refine .pure (.error (.evaluation cause)) (fun control => ?_) nofun
          rw [implicitState]
          simp only [hresidual]
          rfl
      | ok residual =>
          refine .pure (.ok state) (fun control => ?_) nofun
          rw [implicitState]
          simp only [hresidual]
          split <;> rfl
  | succ left ih =>
      cases hresidual : core.system.evaluate t state (rates size h previous state) with
      | error cause =>
          refine .pure (.error (.evaluation cause)) (fun control => ?_) nofun
          rw [implicitState]
          simp only [hresidual]
          rfl
      | ok residual =>
          by_cases hnorm : Linear.l2Norm residual < core.newton.tolerance
          · refine .pure (.ok state) (fun control => ?_) nofun
            rw [implicitState]
            simp only [hresidual, if_pos hnorm]
            rfl
          · apply Interruptible.look_bind (Probe.columns_interruptible
              ⟨core.system, t, state, rates size h previous state⟩ residual
              (List.range state.length) (.combined (1 / h))
              (state.map fun v => FiniteDifference.increment v 1))
              SolverError.ofJacobian_eq_cancelled
            · intro control after hlook
              rw [implicitState]
              simp only [hresidual, if_neg hnorm, hlook]
              rfl
            · intro control middle cause after hlook hcolumns
              rw [implicitState]
              simp only [hresidual, if_neg hnorm, hlook, hcolumns]
              rfl
            · intro control middle columns after hlook hcolumns
              rw [implicitState]
              simp only [hresidual, if_neg hnorm, hlook, hcolumns]
              rfl
            · intro columns
              cases Linear.solve (Linear.rowsOfColumns residual.length columns)
                (residual.map (-·)) with
              | none => exact .pure (.ok state) (fun _ => rfl) nofun
              | some updates => exact ih _

theorem implicitEuler_interruptible (core : Core α) (size : Nat) (h : α) (point : Point α) :
    Interruptible Core.PointRun.reached .cancelled (implicitEuler core size h point) := by
  apply Interruptible.bind (implicitState_interruptible core size (point.time + h) h point.state
    core.newton.maxIterations (advance core.algebraic h point.state point.derivatives))
    (fun _ => Iff.rfl)
  · intro control cause after hstate
    simp only [implicitEuler, hstate]
    rfl
  · intro control state after hstate
    simp only [implicitEuler, hstate]
    rfl
  · exact fun state => .pure (.ok _) (fun _ => rfl) nofun

theorem stage_interruptible (core : Core α) (size : Nat) (t scale : α) (state slope : List α) :
    Interruptible id .cancelled (stage core size t scale state slope) := by
  let moved : List α := vector size fun i =>
    if core.algebraic.getD i true then state.getD i 0
    else state.getD i 0 + scale * slope.getD i 0
  have hsolve := Interruptible.reading_iff.mpr (Newton.solve_interruptible core.system core.newton
    .derivatives core.differentialIndices ⟨t, moved, Core.zeroWhere core.algebraic slope⟩)
  apply hsolve.bind (fun _ => Iff.rfl)
  · intro control cause after hfailed
    obtain ⟨hresult, rfl⟩ := NewtonRun.reached_eq_error.mp hfailed
    simp only [stage, Core.resolveDerivatives]
    rw [hresult]
    rfl
  · intro control reached after hreached
    obtain ⟨⟨outcome, hresult⟩, hpoint, hafter⟩ := NewtonRun.reached_eq_ok.mp hreached
    simp only [stage, Core.resolveDerivatives]
    rw [hresult, hpoint, hafter, Except.map]
  · exact fun reached => .pure _ (fun _ => rfl) nofun

theorem rungeKutta4_interruptible (core : Core α) (size : Nat) (h : α) (point : Point α) :
    Interruptible Core.PointRun.reached .cancelled (rungeKutta4 core size h point) := by
  apply Interruptible.bind (stage_interruptible core size (point.time + 0.5 * h) (0.5 * h)
    point.state point.derivatives) (fun _ => Iff.rfl)
  · intro control cause after hstage
    simp only [rungeKutta4, hstage]
    rfl
  · intro control k2 after hstage
    simp only [rungeKutta4, hstage]
    rfl
  intro k2
  apply Interruptible.bind (stage_interruptible core size (point.time + 0.5 * h) (0.5 * h)
    point.state k2) (fun _ => Iff.rfl)
  · intro control cause after hstage
    simp only [hstage]
    rfl
  · intro control k3 after hstage
    simp only [hstage]
    rfl
  intro k3
  apply Interruptible.bind (stage_interruptible core size (point.time + h) h point.state k3)
    (fun _ => Iff.rfl)
  · intro control cause after hstage
    simp only [hstage]
    rfl
  · intro control k4 after hstage
    simp only [hstage]
    rfl
  exact fun k4 => core.resolve_interruptible _

theorem step_interruptible (integrator : FixedStepIntegrator α) (h : α) (point : Point α) :
    Interruptible Core.PointRun.reached .cancelled (step integrator h point) := by
  unfold step
  cases integrator.method with
  | explicitEuler => exact Core.resolve_interruptible _ _
  | implicitEuler => exact implicitEuler_interruptible _ _ _ _
  | rungeKutta4 => exact rungeKutta4_interruptible _ _ _ _

end FixedStep

namespace Bdf

theorem Corrector.iterate_interruptible (corrector : Corrector α) (left : Nat)
    (state derivatives : List α) :
    Interruptible id .cancelled (corrector.iterate left state derivatives) := by
  induction left generalizing state derivatives with
  | zero => exact .pure _ (fun _ => rfl) nofun
  | succ left ih =>
      cases hresidual : corrector.core.system.evaluate corrector.time state derivatives with
      | error cause =>
          refine .pure (.error (.evaluation cause)) (fun control => ?_) nofun
          rw [iterate]
          simp only [hresidual]
          rfl
      | ok residual =>
          apply Interruptible.look_bind (Probe.columns_interruptible
            ⟨corrector.core.system, corrector.time, state, derivatives⟩ residual
            (List.range state.length) (.combined corrector.alpha)
            (state.zipWith FiniteDifference.increment corrector.nominal))
            SolverError.ofJacobian_eq_cancelled
          · intro control after hlook
            rw [iterate]
            simp only [hresidual, hlook]
            rfl
          · intro control middle cause after hlook hcolumns
            rw [iterate]
            simp only [hresidual, hlook, hcolumns]
            rfl
          · intro control middle columns after hlook hcolumns
            rw [iterate]
            simp only [hresidual, hlook, hcolumns]
            rfl
          · intro columns
            cases Linear.solve (Linear.rowsOfColumns residual.length columns)
              (residual.map (-·)) with
            | none => exact .pure (.ok none) (fun _ => rfl) nofun
            | some updates =>
                simp only
                split
                · exact .pure (.ok _) (fun _ => rfl) nofun
                · exact ih _ _

end Bdf

end ImplicitDynamics
