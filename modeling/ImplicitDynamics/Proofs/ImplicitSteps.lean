import ImplicitDynamics.Proofs.AffineSystems
import Mathlib

/-!
# Implicit steps for affine systems

A step of the implicit method looks for the state at its end, with the slopes
that lead there from the state at its start.  For an affine system
`c + A y' + B y` the residual is an affine function of that state, with the
matrix `A / h + B`.  In exact arithmetic the first update of the Newton
iteration makes it vanish, so that no further update is made.  There is no
update when the predicted state is good enough, or when the linear solver finds
the matrix singular; in the latter case the prediction is accepted as it is.
-/

open Matrix

namespace ImplicitDynamics

open Linear (tableOf vectorOf)

noncomputable section

variable {n : Nat} {A B : Matrix (Fin n) (Fin n) ℝ} {c : Fin n → ℝ}

/-- The system of a core is affine, and its Newton iterations may make an
update. -/
structure Core.SolvesAffine (core : Core ℝ) (A B : Matrix (Fin n) (Fin n) ℝ)
    (c : Fin n → ℝ) : Prop where
  affine : core.system.IsAffine A B c
  tolerance_pos : 0 < core.newton.tolerance
  iterations_pos : 1 ≤ core.newton.maxIterations

/-- The same settings with one Newton update at most. -/
def Core.once (core : Core ℝ) : Core ℝ :=
  { core with newton := { core.newton with maxIterations := 1 } }

namespace FixedStep

/-- The residual at the end of a step, as a function of the state there. -/
def endResidual (A B : Matrix (Fin n) (Fin n) ℝ) (c : Fin n → ℝ) (h : ℝ)
    (previous state : Fin n → ℝ) : Fin n → ℝ :=
  c + A *ᵥ ((1 / h) • (state - previous)) + B *ᵥ state

theorem endResidual_add (h : ℝ) (previous state update : Fin n → ℝ) :
    endResidual A B c h previous (state + update) =
      endResidual A B c h previous state + ((1 / h) • A + B) *ᵥ update := by
  have hmoved : state + update - previous = (state - previous) + update := by
    rw [add_sub_right_comm]
  unfold endResidual
  rw [hmoved, smul_add, Matrix.mulVec_add, Matrix.mulVec_add, Matrix.add_mulVec,
    Matrix.smul_mulVec, Matrix.mulVec_smul, Matrix.mulVec_smul]
  abel

theorem vectorOf_rates (h : ℝ) (previous state : List ℝ) :
    vectorOf n (rates n h previous state) =
      (1 / h) • (vectorOf n state - vectorOf n previous) := by
  funext i
  rw [vectorOf, rates, vector, Bdf.History.getD_map_range i.isLt]
  simp only [Exact.sub_eq, Exact.div_eq, Exact.zero_eq, vectorOf, Pi.smul_apply, Pi.sub_apply,
    smul_eq_mul]
  ring

variable {core : Core ℝ} {t h : ℝ} {previous state : List ℝ} {control : Control}

theorem evaluate_rates (haffine : core.system.IsAffine A B c) (t h : ℝ) (previous : List ℝ)
    (hstate : state.length = n) :
    core.system.evaluate t state (rates n h previous state) =
      .ok (List.ofFn (endResidual A B c h (vectorOf n previous) (vectorOf n state))) := by
  rw [haffine.evaluate t hstate (length_rates n h previous state), vectorOf_rates]
  rfl

/-! ## The Newton iteration of a step -/

/-- The residual with the slopes that lead from `previous` to the state is below
the tolerance. -/
def NearSolution (core : Core ℝ) (t h : ℝ) (previous state : List ℝ) : Prop :=
  ∃ residual, core.system.evaluate t state (rates state.length h previous state) = .ok residual ∧
    Linear.l2Norm residual < core.newton.tolerance

/-- Where a Newton iteration with one update at most ends, from a predicted
state. -/
inductive Reaches (core : Core ℝ) (A B : Matrix (Fin n) (Fin n) ℝ) (t h : ℝ)
    (previous predicted : List ℝ) : List ℝ → Prop where
  | predicted : NearSolution core t h previous predicted →
      Reaches core A B t h previous predicted predicted
  | singular {residual : List ℝ} :
      core.system.evaluate t predicted (rates n h previous predicted) = .ok residual →
      Linear.solve (tableOf ((1 / h) • A + B)) (residual.map (-·)) = none →
      Reaches core A B t h previous predicted predicted
  | updated {residual updates : List ℝ} :
      core.system.evaluate t predicted (rates n h previous predicted) = .ok residual →
      Linear.solve (tableOf ((1 / h) • A + B)) (residual.map (-·)) = some updates →
      NearSolution core t h previous (predicted.zipWith (· + ·) updates) →
      Reaches core A B t h previous predicted (predicted.zipWith (· + ·) updates)

theorem implicitState_of_near {size : Nat} {residual : List ℝ}
    (hresidual : core.system.evaluate t state (rates size h previous state) = .ok residual)
    (hnear : Linear.l2Norm residual < core.newton.tolerance) (left : Nat) (control : Control) :
    implicitState core size t h previous left state control = (.ok state, control) := by
  cases left with
  | zero =>
      rw [implicitState]
      simp only [hresidual]
      exact if_pos hnear
  | succ left =>
      rw [implicitState]
      simp only [hresidual]
      exact if_pos hnear

/-- The rows with the combined perturbation that a turn of the iteration asks
for. -/
def turnColumns (core : Core ℝ) (size : Nat) (t h : ℝ) (previous state residual : List ℝ)
    (control : Control) : Except (JacobianError ℝ) (List (List ℝ)) × Control :=
  (Probe.mk core.system t state (rates size h previous state)).columns Supervisor.controlled residual
    (List.range state.length) (.combined (1 / h))
    (state.map fun v => FiniteDifference.increment v 1) control

section Turns

variable {size : Nat} {residual : List ℝ} {looked after : Control}

theorem implicitState_of_stopped
    (hresidual : core.system.evaluate t state (rates size h previous state) = .ok residual)
    (hfar : ¬ Linear.l2Norm residual < core.newton.tolerance)
    (hlook : control.look = (false, looked)) (left : Nat) :
    implicitState core size t h previous (left + 1) state control =
      (.error .cancelled, looked) := by
  rw [implicitState]
  simp only [hresidual, hlook]
  exact if_neg hfar

theorem implicitState_of_failed {cause : JacobianError ℝ}
    (hresidual : core.system.evaluate t state (rates size h previous state) = .ok residual)
    (hfar : ¬ Linear.l2Norm residual < core.newton.tolerance)
    (hlook : control.look = (true, looked))
    (hswept : turnColumns core size t h previous state residual looked = (.error cause, after))
    (left : Nat) :
    implicitState core size t h previous (left + 1) state control =
      (.error (.ofJacobian cause), after) := by
  rw [turnColumns] at hswept
  rw [implicitState]
  simp only [hresidual, hlook, Exact.one_eq, Exact.div_eq, hswept]
  exact if_neg hfar

theorem implicitState_of_columns {columns : List (List ℝ)}
    (hresidual : core.system.evaluate t state (rates size h previous state) = .ok residual)
    (hfar : ¬ Linear.l2Norm residual < core.newton.tolerance)
    (hlook : control.look = (true, looked))
    (hswept : turnColumns core size t h previous state residual looked = (.ok columns, after))
    (left : Nat) :
    implicitState core size t h previous (left + 1) state control =
      match Linear.solve (Linear.rowsOfColumns residual.length columns) (residual.map (-·)) with
      | none => (.ok state, after)
      | some updates =>
        implicitState core size t h previous left (state.zipWith (· + ·) updates) after := by
  rw [turnColumns] at hswept
  rw [implicitState]
  simp only [hresidual, hlook, Exact.one_eq, Exact.div_eq, hswept, Exact.neg_eq,
    Exact.add_eq]
  rw [if_neg hfar]
  cases Linear.solve (Linear.rowsOfColumns residual.length columns) (residual.map (-·)) <;> rfl

end Turns

/-- The matrix of a turn is `A / h + B`, unless the turn is cancelled. -/
theorem turnColumns_of_affine (haffine : core.system.IsAffine A B c) (t h : ℝ)
    (previous : List ℝ) (hstate : state.length = n) (hn : n ≠ 0) (looked : Control) :
    let residual := List.ofFn (endResidual A B c h (vectorOf n previous) (vectorOf n state))
    let swept := turnColumns core n t h previous state residual looked
    swept.1 = .error .cancelled ∨ ∃ columns, swept.1 = .ok columns ∧
      Linear.rowsOfColumns residual.length columns = tableOf ((1 / h) • A + B) := by
  intro residual swept
  have hincrements : ∀ j < n,
      0 < (state.map fun v => FiniteDifference.increment v 1).getD j 0 := by
    intro j hj
    have hlt : j < (state.map fun v => FiniteDifference.increment v 1).length := by
      rwa [List.length_map, hstate]
    rw [List.getD_eq_getElem _ _ hlt, List.getElem_map]
    exact FiniteDifference.increment_pos _ one_pos
  have hcolumns := haffine.columns (t := t) hstate (length_rates n h previous state)
    (.combined (1 / h)) hn hincrements .controlled looked
  rw [vectorOf_rates] at hcolumns
  have hswept : swept = (Probe.mk core.system t state (rates n h previous state)).columns
      Supervisor.controlled residual (List.range n) (.combined (1 / h))
      (state.map fun v => FiniteDifference.increment v 1) looked := by
    simp only [swept, turnColumns, hstate]
  rw [hswept]
  rcases hcolumns with hcancelled | hmatrix
  · exact .inl hcancelled
  · refine .inr ⟨_, hmatrix, ?_⟩
    rw [List.length_ofFn]
    exact Linear.rowsOfColumns_ofFn _

/-- An update that solves the linear system makes the residual vanish. -/
theorem endResidual_update {updates : List ℝ} (hstate : state.length = n)
    (hupdates : Linear.solve (tableOf ((1 / h) • A + B))
      ((List.ofFn (endResidual A B c h (vectorOf n previous) (vectorOf n state))).map (-·)) =
        some updates) :
    (state.zipWith (· + ·) updates).length = n ∧
      endResidual A B c h (vectorOf n previous)
        (vectorOf n (state.zipWith (· + ·) updates)) = 0 := by
  rw [List.map_ofFn] at hupdates
  rcases Linear.solve_mulVec hupdates with ⟨hlength, hsolves⟩
  constructor
  · rw [List.length_zipWith, hstate, hlength, Nat.min_self]
  · rw [Linear.vectorOf_zipWith_add hstate hlength, endResidual_add, hsolves]
    exact add_neg_cancel _

theorem nearSolution_of_zero (haffine : core.system.IsAffine A B c)
    (htolerance : 0 < core.newton.tolerance) (hstate : state.length = n)
    (hzero : endResidual A B c h (vectorOf n previous) (vectorOf n state) = 0) :
    NearSolution core t h previous state := by
  have hresidual := evaluate_rates haffine t h previous hstate
  rw [hzero] at hresidual
  have hnorm : Linear.l2Norm (List.ofFn (0 : Fin n → ℝ)) = 0 := by
    apply Linear.l2Norm_eq_zero
    intro value hvalue
    rcases List.mem_ofFn.mp hvalue with ⟨i, rfl⟩
    rfl
  rw [NearSolution, hstate]
  exact ⟨_, hresidual, hnorm.trans_lt htolerance⟩

/-- The Newton iteration of a step ends after one update at most, whatever the
number that is allowed. -/
theorem implicitState_reaches (hcore : core.SolvesAffine A B c) (t h : ℝ) (previous : List ℝ)
    (hstate : state.length = n) (control : Control) :
    ∃ result after,
      (result = .error .cancelled ∨
        ∃ reached, result = .ok reached ∧ reached.length = n ∧
          Reaches core A B t h previous state reached) ∧
      ∀ left, implicitState core n t h previous (left + 1) state control = (result, after) := by
  have hresidual := evaluate_rates hcore.affine t h previous hstate
  let residual := endResidual A B c h (vectorOf n previous) (vectorOf n state)
  by_cases hnear : Linear.l2Norm (List.ofFn residual) < core.newton.tolerance
  · have hpredicted : NearSolution core t h previous state := by
      rw [NearSolution, hstate]
      exact ⟨_, hresidual, hnear⟩
    exact ⟨.ok state, control, .inr ⟨state, rfl, hstate, .predicted hpredicted⟩,
      fun left => implicitState_of_near hresidual hnear _ control⟩
  have hn : n ≠ 0 := by
    intro hzero
    subst hzero
    have hnorm : Linear.l2Norm ([] : List ℝ) = 0 := Linear.l2Norm_eq_zero nofun
    apply hnear
    rw [List.ofFn_zero, hnorm]
    exact hcore.tolerance_pos
  rcases hlook : control.look with ⟨_ | _, looked⟩
  · exact ⟨.error .cancelled, looked, .inl rfl, implicitState_of_stopped hresidual hnear hlook⟩
  have hmatrix := turnColumns_of_affine hcore.affine t h previous hstate hn looked
  rcases hswept : turnColumns core n t h previous state (List.ofFn residual) looked with
    ⟨swept, after⟩
  simp only [residual] at hswept
  simp only [hswept] at hmatrix
  rcases hmatrix with hcancelled | ⟨columns, hcolumns, hrows⟩
  · rw [hcancelled] at hswept
    exact ⟨.error .cancelled, after, .inl rfl,
      implicitState_of_failed hresidual hnear hlook hswept⟩
  rw [hcolumns] at hswept
  have hturn := implicitState_of_columns hresidual hnear hlook hswept
  rw [hrows] at hturn
  cases hsolve : Linear.solve (tableOf ((1 / h) • A + B)) ((List.ofFn residual).map (-·)) with
  | none =>
      rw [hsolve] at hturn
      exact ⟨.ok state, after, .inr ⟨state, rfl, hstate, .singular hresidual hsolve⟩, hturn⟩
  | some updates =>
      rw [hsolve] at hturn
      rcases endResidual_update hstate hsolve with ⟨hlength, hzero⟩
      have hnear' : NearSolution core t h previous (state.zipWith (· + ·) updates) :=
        nearSolution_of_zero hcore.affine hcore.tolerance_pos hlength hzero
      refine ⟨.ok _, after, .inr ⟨_, rfl, hlength, .updated hresidual hsolve hnear'⟩, ?_⟩
      intro left
      rw [hturn]
      rcases hnear' with ⟨vanished, hvanished, hsmall⟩
      rw [hlength] at hvanished
      exact implicitState_of_near hvanished hsmall left after

/-! ## Steps and runs -/

/-- The limit on the updates is all that `once` changes. -/
theorem implicitState_once (core : Core ℝ) (size left : Nat) (t h : ℝ)
    (previous state : List ℝ) (control : Control) :
    implicitState core.once size t h previous left state control =
      implicitState core size t h previous left state control := by
  induction left generalizing state control with
  | zero =>
      rw [implicitState, implicitState]
      rfl
  | succ left ih =>
      rw [implicitState, implicitState]
      simp only [ih]
      rfl

/-- A point follows another one by a step of the implicit method: its state is
where one Newton update at most leads from the predicted state, and its
derivatives are the slopes of the step, but zero for algebraic variables. -/
structure ImplicitlyFollows (core : Core ℝ) (A B : Matrix (Fin n) (Fin n) ℝ) (h : ℝ)
    (point next : Point ℝ) : Prop where
  time : next.time = point.time + h
  state_length : next.state.length = n
  state : Reaches core A B next.time h point.state
    (advance core.algebraic h point.state point.derivatives) next.state
  derivatives_length : next.derivatives.length = n
  derivatives : ∀ i < n, next.derivatives.getD i 0 =
    if core.algebraic.getD i false then 0 else (next.state.getD i 0 - point.state.getD i 0) / h

theorem getD_zeroWhere_eq (flags : List Bool) (values : List ℝ) (i : Nat) :
    (Core.zeroWhere flags values).getD i 0 =
      if flags.getD i false then 0 else values.getD i 0 := by
  induction flags generalizing values i with
  | nil => rfl
  | cons flag flags ih =>
      cases values with
      | nil => simp [Core.zeroWhere]
      | cons value values =>
          rw [Core.zeroWhere]
          cases i with
          | zero => simp only [List.getD_cons_zero, Exact.zero_eq]
          | succ i => simp only [List.getD_cons_succ, ih]

/-- A finished step has the slopes that lead to its state. -/
theorem implicitlyFollows_of_reaches {point : Point ℝ} {reached : List ℝ}
    (hpoint : point.state.length = n) (hlength : reached.length = n)
    (hreaches : Reaches core A B (point.time + h) h point.state
      (advance core.algebraic h point.state point.derivatives) reached) :
    ImplicitlyFollows core A B h point ⟨point.time + h, reached,
      Core.zeroWhere core.algebraic
        (reached.zipWith (fun value previous => (value - previous) / h) point.state)⟩ where
  time := rfl
  state_length := hlength
  state := hreaches
  derivatives_length := by
    rw [Core.length_zeroWhere, List.length_zipWith, hlength, hpoint, Nat.min_self]
  derivatives i hi := by
    rw [getD_zeroWhere_eq, Bdf.getD_zipWith (hlength ▸ hi) (hpoint ▸ hi)]

theorem implicitEuler_follows (hcore : core.SolvesAffine A B c) {point : Point ℝ}
    (hpoint : point.state.length = n) (h : ℝ) (control : Control) :
    implicitEuler core n h point control = implicitEuler core.once n h point control ∧
      ((implicitEuler core n h point control).result = .error .cancelled ∨
        (implicitEuler core n h point control).result = .ok () ∧
          ImplicitlyFollows core A B h point (implicitEuler core n h point control).point) := by
  have hpredicted : (advance core.algebraic h point.state point.derivatives).length = n :=
    (length_advance _ _ _ _).trans hpoint
  rcases implicitState_reaches hcore (point.time + h) h point.state hpredicted control with
    ⟨result, after, hresult, hstate⟩
  have hallowed := hstate (core.newton.maxIterations - 1)
  rw [Nat.sub_add_cancel hcore.iterations_pos] at hallowed
  have honce : implicitState core.once n (point.time + h) h point.state 1
      (advance core.algebraic h point.state point.derivatives) control = (result, after) :=
    (implicitState_once _ _ _ _ _ _ _ _).trans (hstate 0)
  have hstep : implicitEuler core n h point control =
      implicitEuler core.once n h point control := by
    have hlimit : core.once.newton.maxIterations = 1 := rfl
    have hflags : core.once.algebraic = core.algebraic := rfl
    unfold implicitEuler
    simp only [Exact.add_eq, hlimit, hflags, hallowed, honce]
  refine ⟨hstep, ?_⟩
  unfold implicitEuler
  simp only [Exact.add_eq, hallowed]
  rcases hresult with rfl | ⟨reached, rfl, hlength, hreaches⟩
  · exact .inl rfl
  · exact .inr ⟨rfl, implicitlyFollows_of_reaches hpoint hlength hreaches⟩

end FixedStep

namespace FixedStepIntegrator

variable {integrator : FixedStepIntegrator ℝ}

theorem linked_implicitly (hready : integrator.Ready)
    (hcore : integrator.core.SolvesAffine A B c) (hmethod : integrator.method = .implicitEuler)
    (told : ProgressEvent ℝ → Control → Control) :
    FixedStep.Preserved integrator told integrator.core.config.stepLength
      (integrator.Linked (fun point => point.state.length = n)
        (FixedStep.ImplicitlyFollows integrator.core A B integrator.core.config.stepLength)) := by
  apply linked_preserved hready
  intro point control hpoint hresult
  have hworkspace : integrator.workspace = n := hready.workspace.trans hcore.affine.dimension
  unfold FixedStep.step at hresult ⊢
  simp only [hmethod, hworkspace] at hresult ⊢
  rcases (FixedStep.implicitEuler_follows hcore hpoint integrator.core.config.stepLength control).2
    with hcancelled | ⟨-, hfollows⟩
  · rw [hcancelled] at hresult
    cases hresult
  · exact ⟨hfollows.state_length, hfollows.time, hfollows⟩

theorem run_implicitly (hready : integrator.Ready) (hcore : integrator.core.SolvesAffine A B c)
    (hmethod : integrator.method = .implicitEuler) (told : ProgressEvent ℝ → Control → Control)
    (control : Control) :
    (FixedStep.run integrator told control).session.points.toList.IsChain
      (FixedStep.ImplicitlyFollows integrator.core A B integrator.core.config.stepLength) := by
  have hlength := (Core.length_initialState hready.config).trans hcore.affine.dimension
  have hpreserved := linked_implicitly hready hcore hmethod told
  let first := (Integrator.fixedStep integrator).first control
  have hinv : first.result = .ok () →
      integrator.Linked (fun point => point.state.length = n)
        (FixedStep.ImplicitlyFollows integrator.core A B integrator.core.config.stepLength) 1
        first.point ((Session.start first.control).log first.point) := by
    intro hresult
    have hsettled := Core.resolve_settled hresult List.length_replicate
    have htime : first.point.time = integrator.core.config.start :=
      (integrator.core.resolve_spec _ control).1
    exact linked_first (hsettled.state_length.trans hlength) htime _
  rcases hpreserved.run hready.initialized rfl hinv with
    ⟨cause, -, hrun⟩ | ⟨reached, last, hlinked, -⟩
  · rw [hrun, Run.session_interrupt]
    exact .nil
  · exact hlinked.follows

/-- In exact arithmetic a step of the implicit method for an affine system makes
one Newton update at most.  Unless it is cancelled it ends where the residual is
below the tolerance, or at the prediction when the linear solver finds the matrix
`A / h + B` singular; the derivatives are the slopes of the step, but zero for
algebraic variables.  So does each step of a run. -/
theorem implicit_steps_solve (hcore : integrator.core.SolvesAffine A B c)
    (hmethod : integrator.method = .implicitEuler) (hworkspace : integrator.workspace = n) :
    (∀ h point control, point.state.length = n →
      let stepped := FixedStep.step integrator h point control
      stepped = FixedStep.step { integrator with core := integrator.core.once } h point control ∧
        (control.Calm → stepped.result = .ok ()) ∧
        (stepped.result = .error .cancelled ∨ stepped.result = .ok () ∧
          FixedStep.ImplicitlyFollows integrator.core A B h point stepped.point)) ∧
      (integrator.Ready → ∀ told control,
        (FixedStep.run integrator told control).session.points.toList.IsChain
          (FixedStep.ImplicitlyFollows integrator.core A B
            integrator.core.config.stepLength)) := by
  constructor
  · intro h point control hpoint stepped
    have hstep : stepped = FixedStep.implicitEuler integrator.core n h point control := by
      simp only [stepped, FixedStep.step, hmethod, hworkspace]
    have honce : FixedStep.step { integrator with core := integrator.core.once } h point control =
        FixedStep.implicitEuler integrator.core.once n h point control := by
      simp only [FixedStep.step, hmethod, hworkspace]
    have hfollows := FixedStep.implicitEuler_follows hcore hpoint h control
    rw [← hstep, ← honce] at hfollows
    refine ⟨hfollows.1, ?_, hfollows.2⟩
    intro hcalm
    have hpasses := (FixedStep.step_interruptible integrator h point).passes hcalm
    rcases hfollows.2 with hcancelled | ⟨hresult, -⟩
    · exact absurd (Core.PointRun.reached_eq_error.mpr hcancelled) hpasses
    · exact hresult
  · intro hready told control
    exact run_implicitly hready hcore hmethod told control

theorem growth_isAffine :
    CompiledSystem.growth.toResidual.IsAffine (1 : Matrix (Fin 1) (Fin 1) ℝ) (-1) 0 where
  dimension := rfl
  fillsBuffer := CompiledSystem.growth.toResidual_fillsBuffer
  residual t y yp out hy hyp hout := by
    rcases List.length_eq_one_iff.mp hy with ⟨x, rfl⟩
    rcases List.length_eq_one_iff.mp hyp with ⟨slope, rfl⟩
    have hrows : CompiledSystem.growth.RowsAre (CompiledSystem.growth.bindings t [x] [slope])
        [slope - x] := .cons rfl .nil
    rw [CompiledSystem.residual_of_rows rfl rfl hout hrows]
    simp [vectorOf, sub_eq_add_neg, Matrix.neg_mulVec]

/-- The implicit method for exponential growth. -/
theorem implicit_steps_solve_growth :
    let blank := create .implicitEuler CompiledSystem.growth.toResidual ⟨2, 0, 1, [1]⟩
    let integrator : FixedStepIntegrator ℝ := ⟨{ blank.core with
      algebraic := [false]
      initialized := true }, .implicitEuler, 1⟩
    let stepped := FixedStep.step integrator (1 / 2) ⟨0, [1], [1]⟩ .fresh
    integrator.core.SolvesAffine (1 : Matrix (Fin 1) (Fin 1) ℝ) (-1) 0 ∧
      integrator.method = .implicitEuler ∧ integrator.workspace = 1 ∧ integrator.Ready ∧
      stepped.result = .ok () ∧
      FixedStep.ImplicitlyFollows integrator.core (1 : Matrix (Fin 1) (Fin 1) ℝ) (-1) (1 / 2)
        ⟨0, [1], [1]⟩ stepped.point ∧
      (FixedStep.run integrator (fun _ control => control) .fresh).session.points.toList.IsChain
        (FixedStep.ImplicitlyFollows integrator.core (1 : Matrix (Fin 1) (Fin 1) ℝ) (-1)
          integrator.core.config.stepLength) := by
  intro blank integrator stepped
  have hready : integrator.Ready :=
    prepare_ready CompiledSystem.growth.toResidual_fillsBuffer
      (prepare_growth .implicitEuler 2 two_ne_zero)
  have htolerance : 0 < integrator.core.newton.tolerance := by
    change 0 < (NewtonSettings.standard : NewtonSettings ℝ).tolerance
    rw [NewtonSettings.standard, Exact.scientific_eq]
    norm_num
  have hcore : integrator.core.SolvesAffine (1 : Matrix (Fin 1) (Fin 1) ℝ) (-1) 0 :=
    ⟨growth_isAffine, htolerance, by decide⟩
  rcases implicit_steps_solve hcore rfl rfl with ⟨hsteps, hruns⟩
  have hstepped := hsteps (1 / 2) ⟨0, [1], [1]⟩ .fresh rfl
  have hresult := hstepped.2.1 ⟨rfl, rfl⟩
  refine ⟨hcore, rfl, rfl, hready, hresult, ?_, hruns hready _ _⟩
  rcases hstepped.2.2 with hcancelled | ⟨-, hfollows⟩
  · cases hresult.symm.trans hcancelled
  · exact hfollows

end FixedStepIntegrator

end

end ImplicitDynamics
