import ImplicitDynamics.Proofs.FixedStepRun
import Mathlib

/-!
# Explicit systems

The residual of an explicit system is the difference between the derivatives and
a function of time and state.  In exact arithmetic Newton iterations on its rows
converge, so that each slope which an explicit method finds is as near to that
function as the tolerance says, at the time and the state of its own stage.  The
points of a run are then those of the method, up to the slopes.
-/

namespace ImplicitDynamics

noncomputable section

/-- The residual is the difference between the derivatives and a function of time
and state. -/
structure ResidualSystem.IsExplicit (system : ResidualSystem ℝ)
    (f : ℝ → List ℝ → List ℝ) : Prop where
  length_rates : ∀ t {y}, y.length = system.dimension → (f t y).length = system.dimension
  residual : ∀ t {y yp out}, y.length = system.dimension → yp.length = system.dimension →
    out.length = system.dimension →
      system.residual t y yp out = ⟨yp.zipWith (fun slope rate => slope - rate) (f t y), none⟩

variable {system : ResidualSystem ℝ} {f : ℝ → List ℝ → List ℝ}

/-- How far slopes are from the rates at a time and a state. -/
def slopeError (f : ℝ → List ℝ → List ℝ) (t : ℝ) (y slopes : List ℝ) : ℝ :=
  Linear.l2Norm (slopes.zipWith (fun slope rate => slope - rate) (f t y))

/-- The state after moving along slopes. -/
def along (scale : ℝ) (state slopes : List ℝ) : List ℝ :=
  state.zipWith (fun value slope => value + scale * slope) slopes

theorem ResidualSystem.IsExplicit.rates (hexplicit : system.IsExplicit f)
    (hsystem : system.FillsBuffer) (t : ℝ) {y : List ℝ} (hy : y.length = system.dimension) :
    system.Rates t y (List.range system.dimension) fun i => (f t y).getD i 0 where
  fillsBuffer := hsystem
  nodup := List.nodup_range
  lt_dimension i hi := List.mem_range.mp hi
  succeeds hyp hout := by rw [hexplicit.residual t hy hyp hout]
  row {yp out} hyp hout i hi := by
    have hlt := List.mem_range.mp hi
    have hrate := hexplicit.length_rates t hy
    rw [hexplicit.residual t hy hyp hout, Bdf.getD_zipWith (hyp ▸ hlt) (hrate ▸ hlt)]

theorem Core.indices_of_differential {core : Core ℝ} {n : Nat}
    (hkinds : core.algebraic = List.replicate n false) :
    core.algebraicIndices = [] ∧ core.differentialIndices = List.range n := by
  have hzip : (List.replicate n false).zipIdx = (List.range n).map fun i => (false, i) := by
    apply List.ext_getElem
    · simp
    · intro k hk hk'
      simp
  unfold algebraicIndices differentialIndices indicesWhere
  rw [hkinds, hzip, List.filterMap_map, List.filterMap_map]
  constructor
  · simp
  · simp

theorem getD_along {n i : Nat} {state slopes : List ℝ} (scale : ℝ) (hstate : state.length = n)
    (hslopes : slopes.length = n) (hi : i < n) :
    (along scale state slopes).getD i 0 = state.getD i 0 + scale * slopes.getD i 0 :=
  Bdf.getD_zipWith (hstate ▸ hi) (hslopes ▸ hi)

theorem length_along {n : Nat} {state slopes : List ℝ} (scale : ℝ) (hstate : state.length = n)
    (hslopes : slopes.length = n) : (along scale state slopes).length = n := by
  rw [along, List.length_zipWith, hstate, hslopes, Nat.min_self]

namespace FixedStep

theorem advance_of_differential {n : Nat} {state slopes : List ℝ} (scale : ℝ)
    (hstate : state.length = n) (hslopes : slopes.length = n) :
    advance (List.replicate n false) scale state slopes = along scale state slopes := by
  induction n generalizing state slopes with
  | zero =>
      rw [List.length_eq_zero_iff.mp hstate]
      rfl
  | succ n ih =>
      rcases List.exists_cons_of_length_eq_add_one hstate with ⟨value, values, heq⟩
      rcases List.exists_cons_of_length_eq_add_one hslopes with ⟨slope, others, heq'⟩
      subst heq heq'
      rw [List.replicate_succ, advance]
      exact congrArg _ (ih (Nat.succ.inj hstate) (Nat.succ.inj hslopes))

theorem vector_of_differential (n : Nat) (kept moved : Nat → ℝ) :
    vector n (fun i => if (List.replicate n false).getD i true then kept i else moved i) =
      (List.range n).map moved := by
  apply List.map_congr_left
  intro i hi
  have hlt : i < (List.replicate n false).length := by
    rw [List.length_replicate]
    exact List.mem_range.mp hi
  rw [List.getD_eq_getElem _ _ hlt, List.getElem_replicate]
  rfl

/-- A stage looks at the state along its slope. -/
theorem vector_eq_along {n : Nat} {state slopes : List ℝ} (scale : ℝ) (hstate : state.length = n)
    (hslopes : slopes.length = n) :
    vector n (fun i => if (List.replicate n false).getD i true then state.getD i 0
      else state.getD i 0 + scale * slopes.getD i 0) = along scale state slopes := by
  rw [vector_of_differential]
  apply List.ext_getElem
  · rw [List.length_map, List.length_range, length_along scale hstate hslopes]
  · intro i hi hi'
    have hlt : i < n := by
      rwa [length_along scale hstate hslopes] at hi'
    rw [← List.getD_eq_getElem _ 0 hi', getD_along scale hstate hslopes hlt, List.getElem_map,
      List.getElem_range]

theorem getD_weighted {n i : Nat} (h : ℝ) {state : List ℝ} (k1 k2 k3 k4 : List ℝ)
    (hstate : state.length = n) (hi : i < n) :
    (weighted (List.replicate n false) h state k1 k2 k3 k4).getD i 0 = state.getD i 0 +
      h * (k1.getD i 0 + 2 * k2.getD i 0 + 2 * k3.getD i 0 + k4.getD i 0) / 6 := by
  unfold weighted
  simp only [Exact.literal_eq, Exact.add_eq, Exact.mul_eq, Exact.div_eq, Nat.cast_ofNat,
    Nat.cast_zero]
  rw [hstate, vector_of_differential, Bdf.History.getD_map_range hi]

end FixedStep

namespace Core

/-- The system of a core is explicit, its variables are differential, and its
Newton iterations may make an update. -/
structure SolvesRates (core : Core ℝ) (f : ℝ → List ℝ → List ℝ) : Prop where
  explicit : core.system.IsExplicit f
  fillsBuffer : core.system.FillsBuffer
  kinds : core.algebraic = List.replicate core.system.dimension false
  tolerance_pos : 0 < core.newton.tolerance
  iterations_pos : 1 ≤ core.newton.maxIterations

/-- A point whose slopes are near the rates. -/
structure Near (core : Core ℝ) (f : ℝ → List ℝ → List ℝ) (point : Point ℝ) : Prop where
  state_length : point.state.length = core.system.dimension
  derivatives_length : point.derivatives.length = core.system.dimension
  slopes : slopeError f point.time point.state point.derivatives < core.newton.tolerance

variable {core : Core ℝ} {point : Point ℝ} {control : Control}

theorem SolvesRates.converges (hcore : core.SolvesRates f)
    (hstate : point.state.length = core.system.dimension)
    (hderivatives : point.derivatives.length = core.system.dimension) (control : Control) :
    (core.resolveDerivatives point control).result = .error .cancelled ∨
      (core.resolveDerivatives point control).Converged := by
  have hzeroed : (zeroWhere core.algebraic point.derivatives).length = core.system.dimension :=
    (length_zeroWhere _ _).trans hderivatives
  unfold resolveDerivatives
  rw [(indices_of_differential hcore.kinds).2]
  exact (hcore.explicit.rates hcore.fillsBuffer point.time hstate).solve_converges
    hcore.tolerance_pos hcore.iterations_pos hzeroed control

theorem select_range {n : Nat} {values : List ℝ} (hlength : values.length = n) :
    Newton.select (List.range n) values = values := by
  apply List.ext_getElem
  · rw [Newton.select, List.length_map, List.length_range, hlength]
  · intro i hi hi'
    simp only [Newton.select, List.getElem_map, List.getElem_range]
    exact List.getD_eq_getElem _ _ hi'

theorem slopeError_of_below (hcore : core.SolvesRates f)
    (hstate : point.state.length = core.system.dimension)
    (hderivatives : point.derivatives.length = core.system.dimension)
    (hbelow : core.system.RowsBelow core.newton.tolerance (List.range core.system.dimension)
      point) :
    slopeError f point.time point.state point.derivatives < core.newton.tolerance := by
  rcases hbelow with ⟨residual, hresidual, hnorm⟩
  have hlength := hcore.fillsBuffer.length_evaluate hresidual
  unfold ResidualSystem.residualAt ResidualSystem.evaluate at hresidual
  simp only [hcore.explicit.residual point.time hstate hderivatives List.length_replicate]
    at hresidual
  cases hresidual
  rwa [select_range hlength] at hnorm

/-- Slopes that the iteration has found are near the rates. -/
theorem SolvesRates.near (hcore : core.SolvesRates f)
    (hstate : point.state.length = core.system.dimension)
    (hderivatives : point.derivatives.length = core.system.dimension)
    (hconverged : (core.resolveDerivatives point control).Converged) :
    core.Near f (core.resolveDerivatives point control).point := by
  have hindices := (indices_of_differential hcore.kinds).2
  have hkeeps := Newton.solve_keeps core.system core.newton .derivatives core.differentialIndices
    { point with derivatives := zeroWhere core.algebraic point.derivatives } control
  have hstate' := hkeeps.state_length.trans hstate
  have hderivatives' := hkeeps.derivatives_length.trans ((length_zeroWhere _ _).trans hderivatives)
  refine ⟨hstate', hderivatives', ?_⟩
  by_cases hnone : List.range core.system.dimension = []
  · have hempty : (core.resolveDerivatives point control).point.derivatives = [] := by
      apply List.length_eq_zero_iff.mp
      exact hderivatives'.trans (List.range_eq_nil.mp hnone)
    have hzero : Linear.l2Norm ([] : List ℝ) = 0 := Linear.l2Norm_eq_zero nofun
    rw [slopeError, hempty, List.zipWith_nil_left, hzero]
    exact hcore.tolerance_pos
  · apply slopeError_of_below hcore hstate' hderivatives'
    have hreports := Newton.solve_reports (hindices ▸ hnone) core.system core.newton .derivatives
      { point with derivatives := zeroWhere core.algebraic point.derivatives } control
    have hbelow := hconverged.reports hreports
    rwa [hindices] at hbelow

/-- Making a point consistent keeps its time and its state and brings its slopes
near the rates, unless it is cancelled. -/
theorem SolvesRates.resolve (hcore : core.SolvesRates f)
    (hstate : point.state.length = core.system.dimension)
    (hderivatives : point.derivatives.length = core.system.dimension) (control : Control) :
    (core.resolve point control).result = .error .cancelled ∨
      (core.resolve point control).result = .ok () ∧
        (core.resolve point control).point.time = point.time ∧
        (core.resolve point control).point.state = point.state ∧
        core.Near f (core.resolve point control).point := by
  have hfirst : core.resolveAlgebraic point control =
      ⟨.ok ⟨true, 0, @OfNat.ofNat ℝ 0 (Scalar.instOfNat 0), false⟩, point, control⟩ := by
    unfold resolveAlgebraic
    rw [(indices_of_differential hcore.kinds).1]
    rfl
  unfold Core.resolve
  simp only [hfirst]
  rcases hcore.converges hstate hderivatives control with hcancelled | hconverged
  · rw [hcancelled]
    exact .inl rfl
  · have hfixed := core.resolveDerivatives_fixed point control
    have hnear := hcore.near hstate hderivatives hconverged
    rcases hconverged with ⟨outcome, hresult, -⟩
    rw [hresult]
    exact .inr ⟨rfl, congrArg Prod.fst hfixed, congrArg Prod.snd hfixed, hnear⟩

end Core

/-! ## Steps -/

namespace FixedStep

variable {core : Core ℝ} {state slope : List ℝ} {control : Control}

/-- A stage finds slopes near the rates at its own time and its own state, unless
it is cancelled. -/
theorem stage_near (hcore : core.SolvesRates f) (hstate : state.length = core.system.dimension)
    (hslope : slope.length = core.system.dimension) (t scale : ℝ) (control : Control) :
    (stage core core.system.dimension t scale state slope control).1 = .error .cancelled ∨
      ∃ k, (stage core core.system.dimension t scale state slope control).1 = .ok k ∧
        k.length = core.system.dimension ∧
        slopeError f t (along scale state slope) k < core.newton.tolerance := by
  have hmoved : (along scale state slope).length = core.system.dimension :=
    length_along scale hstate hslope
  have hstage : stage core core.system.dimension t scale state slope control =
      ((core.resolveDerivatives ⟨t, along scale state slope, slope⟩ control).result.map fun _ =>
          (core.resolveDerivatives ⟨t, along scale state slope, slope⟩ control).point.derivatives,
        (core.resolveDerivatives ⟨t, along scale state slope, slope⟩ control).control) := by
    unfold stage
    simp only [Exact.zero_eq, Exact.add_eq, Exact.mul_eq]
    rw [hcore.kinds, vector_eq_along scale hstate hslope]
  rw [hstage]
  let aim : Point ℝ := ⟨t, along scale state slope, slope⟩
  have hstate' : aim.state.length = core.system.dimension := hmoved
  have hslope' : aim.derivatives.length = core.system.dimension := hslope
  rcases Prod.mk.inj (core.resolveDerivatives_fixed aim control) with ⟨htime, hkept⟩
  rcases hcore.converges hstate' hslope' control with hcancelled | hconverged
  · rw [hcancelled]
    exact .inl rfl
  · have hnear : core.Near f (core.resolveDerivatives aim control).point :=
      hcore.near hstate' hslope' hconverged
    have hslopes := hnear.slopes
    rw [htime, hkept] at hslopes
    rcases hconverged with ⟨outcome, hresult, -⟩
    rw [hresult]
    exact .inr ⟨_, rfl, hnear.derivatives_length, hslopes⟩

/-- A point follows another one by a step of the explicit Euler method. -/
structure EulerFollows (h : ℝ) (point next : Point ℝ) : Prop where
  time : next.time = point.time + h
  state : next.state = along h point.state point.derivatives

/-- A point follows another one by a step of the classical Runge-Kutta method, the
slopes of whose stages are near the rates at their own times and states. -/
structure RungeKuttaFollows (f : ℝ → List ℝ → List ℝ) (tolerance h : ℝ)
    (point next : Point ℝ) : Prop where
  time : next.time = point.time + h
  stages : ∃ k2 k3 k4 : List ℝ,
    (k2.length = point.derivatives.length ∧ k3.length = point.derivatives.length ∧
      k4.length = point.derivatives.length) ∧
    slopeError f (point.time + h / 2) (along (h / 2) point.state point.derivatives) k2 <
      tolerance ∧
    slopeError f (point.time + h / 2) (along (h / 2) point.state k2) k3 < tolerance ∧
    slopeError f (point.time + h) (along h point.state k3) k4 < tolerance ∧
    next.state.length = point.state.length ∧ ∀ i < point.state.length, next.state.getD i 0 =
      point.state.getD i 0 +
        h * (point.derivatives.getD i 0 + 2 * k2.getD i 0 + 2 * k3.getD i 0 + k4.getD i 0) / 6

/-- A point follows another one by a step of an explicit method. -/
def Follows (integrator : FixedStepIntegrator ℝ) (f : ℝ → List ℝ → List ℝ) (h : ℝ)
    (point next : Point ℝ) : Prop :=
  match integrator.method with
  | .explicitEuler => EulerFollows h point next
  | .implicitEuler => False
  | .rungeKutta4 => RungeKuttaFollows f integrator.core.newton.tolerance h point next

theorem Follows.time {integrator : FixedStepIntegrator ℝ} {h : ℝ} {point next : Point ℝ}
    (hfollows : Follows integrator f h point next) : next.time = point.time + h := by
  unfold Follows at hfollows
  cases hmethod : integrator.method with
  | explicitEuler =>
      rw [hmethod] at hfollows
      exact hfollows.time
  | implicitEuler =>
      rw [hmethod] at hfollows
      exact hfollows.elim
  | rungeKutta4 =>
      rw [hmethod] at hfollows
      exact hfollows.time

theorem slopes_near (hcore : core.SolvesRates f) (h : ℝ) {point : Point ℝ}
    (hpoint : core.Near f point) (control : Control) :
    (slopes core core.system.dimension h point control).1 = .error .cancelled ∨
      ∃ k2 k3 k4, (slopes core core.system.dimension h point control).1 = .ok (k2, k3, k4) ∧
        (k2.length = core.system.dimension ∧ k3.length = core.system.dimension ∧
          k4.length = core.system.dimension) ∧
        slopeError f (point.time + h / 2) (along (h / 2) point.state point.derivatives) k2 <
          core.newton.tolerance ∧
        slopeError f (point.time + h / 2) (along (h / 2) point.state k2) k3 <
          core.newton.tolerance ∧
        slopeError f (point.time + h) (along h point.state k3) k4 < core.newton.tolerance := by
  have hhalf : @OfScientific.ofScientific ℝ Scalar.instOfScientific 5 true 1 * h = h / 2 := by
    rw [Exact.half_eq]
    ring
  have hfirst := stage_near hcore hpoint.state_length hpoint.derivatives_length
    (point.time + h / 2) (h / 2) control
  unfold slopes
  simp only [Exact.add_eq, hhalf]
  rcases hstage : stage core core.system.dimension (point.time + h / 2) (h / 2) point.state
    point.derivatives control with ⟨result, second⟩
  rw [hstage] at hfirst
  rcases hfirst with hcancelled | ⟨k2, hk2, hlength2, hnear2⟩
  · cases hcancelled
    exact .inl rfl
  cases hk2
  simp only
  have hsecond := stage_near hcore hpoint.state_length hlength2 (point.time + h / 2) (h / 2) second
  rcases hstage : stage core core.system.dimension (point.time + h / 2) (h / 2) point.state k2
    second with ⟨result, third⟩
  rw [hstage] at hsecond
  rcases hsecond with hcancelled | ⟨k3, hk3, hlength3, hnear3⟩
  · cases hcancelled
    exact .inl rfl
  cases hk3
  simp only
  have hthird := stage_near hcore hpoint.state_length hlength3 (point.time + h) h third
  rcases hstage : stage core core.system.dimension (point.time + h) h point.state k3 third
    with ⟨result, fourth⟩
  rw [hstage] at hthird
  rcases hthird with hcancelled | ⟨k4, hk4, hlength4, hnear4⟩
  · cases hcancelled
    exact .inl rfl
  cases hk4
  exact .inr ⟨k2, k3, k4, rfl, ⟨hlength2, hlength3, hlength4⟩, hnear2, hnear3, hnear4⟩

variable {integrator : FixedStepIntegrator ℝ} {h : ℝ} {point : Point ℝ}

theorem explicitEuler_follows (hcore : integrator.core.SolvesRates f)
    (hmethod : integrator.method = .explicitEuler) (hpoint : integrator.core.Near f point) :
    (step integrator h point control).result = .error .cancelled ∨
      (step integrator h point control).result = .ok () ∧
        integrator.core.Near f (step integrator h point control).point ∧
        EulerFollows h point (step integrator h point control).point := by
  have hstate := hpoint.state_length
  have hslopes := hpoint.derivatives_length
  have haims : Aims integrator h point control
      ⟨point.time + h, advance integrator.core.algebraic h point.state point.derivatives,
        point.derivatives⟩ control := .explicitEuler hmethod
  rw [hcore.kinds, advance_of_differential h hstate hslopes] at haims
  let aim : Point ℝ := ⟨point.time + h, along h point.state point.derivatives, point.derivatives⟩
  have hmoved : aim.state.length = integrator.core.system.dimension :=
    length_along h hstate hslopes
  have hslopes' : aim.derivatives.length = integrator.core.system.dimension := hslopes
  rw [haims.step_eq]
  rcases hcore.resolve hmoved hslopes' control with hcancelled | ⟨hresult, htime, hkept, hnear⟩
  · exact .inl hcancelled
  · exact .inr ⟨hresult, hnear, htime, hkept⟩

theorem rungeKutta4_follows (hworkspace : integrator.workspace = integrator.core.system.dimension)
    (hcore : integrator.core.SolvesRates f) (hmethod : integrator.method = .rungeKutta4)
    (hpoint : integrator.core.Near f point) :
    (step integrator h point control).result = .error .cancelled ∨
      (step integrator h point control).result = .ok () ∧
        integrator.core.Near f (step integrator h point control).point ∧
        RungeKuttaFollows f integrator.core.newton.tolerance h point
          (step integrator h point control).point := by
  have hstate := hpoint.state_length
  have hslopes := hpoint.derivatives_length
  rcases hstages : slopes integrator.core integrator.workspace h point control with
    ⟨result, after⟩
  have hnear := slopes_near hcore h hpoint control
  rw [← hworkspace, hstages] at hnear
  rcases hnear with hcancelled | ⟨k2, k3, k4, hok, ⟨hlength2, hlength3, hlength4⟩, hstage⟩
  · cases hcancelled
    left
    unfold step
    simp only [hmethod, rungeKutta4_eq, hstages]
  cases hok
  let aim : Point ℝ := ⟨point.time + h,
    weighted integrator.core.algebraic h point.state point.derivatives k2 k3 k4,
    point.derivatives⟩
  have haims : Aims integrator h point control aim after := .rungeKutta4 hmethod hstages
  have hmoved : aim.state.length = integrator.core.system.dimension := by
    change (weighted _ _ _ _ _ _ _).length = _
    rw [weighted, vector, List.length_map, List.length_range, hstate]
  have hslopes' : aim.derivatives.length = integrator.core.system.dimension := hslopes
  rw [haims.step_eq]
  rcases hcore.resolve hmoved hslopes' after with hcancelled | ⟨hresult, htime, hkept, hnear⟩
  · exact .inl hcancelled
  · refine .inr ⟨hresult, hnear, htime, k2, k3, k4, ?_, hstage.1, hstage.2.1, hstage.2.2, ?_, ?_⟩
    · rw [hslopes, ← hworkspace]
      exact ⟨hlength2, hlength3, hlength4⟩
    · rw [hkept, hmoved, hstate]
    · intro i hi
      rw [hkept]
      change (weighted _ _ _ _ _ _ _).getD i 0 = _
      rw [hcore.kinds, getD_weighted h _ _ _ _ hstate (hstate ▸ hi)]

/-- An explicit step from a point with slopes near the rates leads to such a
point, unless it is cancelled. -/
theorem step_follows (hready : integrator.Ready) (hcore : integrator.core.SolvesRates f)
    (hmethod : integrator.method ≠ .implicitEuler) (hpoint : integrator.core.Near f point) :
    (step integrator h point control).result = .error .cancelled ∨
      (step integrator h point control).result = .ok () ∧
        integrator.core.Near f (step integrator h point control).point ∧
        Follows integrator f h point (step integrator h point control).point := by
  unfold Follows
  cases hkind : integrator.method with
  | explicitEuler => exact explicitEuler_follows hcore hkind hpoint
  | implicitEuler => exact absurd hkind hmethod
  | rungeKutta4 => exact rungeKutta4_follows hready.workspace hcore hkind hpoint

end FixedStep

/-! ## Runs -/

namespace FixedStepIntegrator

variable {integrator : FixedStepIntegrator ℝ} {point : Point ℝ}

theorem first_near (hready : integrator.Ready) (hcore : integrator.core.SolvesRates f)
    (control : Control) :
    let first := (Integrator.fixedStep integrator).first control
    first.result = .error .cancelled ∨
      first.result = .ok () ∧ integrator.core.Near f first.point ∧
        first.point.time = integrator.core.config.start := by
  intro first
  have hlength := Core.length_initialState hready.config
  let given : Point ℝ := ⟨integrator.core.config.start, integrator.core.config.initialState,
    List.replicate integrator.core.config.initialState.length
      (@OfNat.ofNat ℝ 0 (Scalar.instOfNat 0))⟩
  have hstate : given.state.length = integrator.core.system.dimension := hlength
  have hslopes : given.derivatives.length = integrator.core.system.dimension :=
    List.length_replicate.trans hlength
  have hfirst : first = integrator.core.resolve given control := rfl
  rw [hfirst]
  rcases hcore.resolve hstate hslopes control with hcancelled | ⟨hresult, htime, -, hnear⟩
  · exact .inl hcancelled
  · exact .inr ⟨hresult, hnear, htime⟩

theorem linked_explicitly (hready : integrator.Ready) (hcore : integrator.core.SolvesRates f)
    (hmethod : integrator.method ≠ .implicitEuler)
    (told : ProgressEvent ℝ → Control → Control) :
    FixedStep.Preserved integrator told integrator.core.config.stepLength
      (integrator.Linked (integrator.core.Near f)
        (FixedStep.Follows integrator f integrator.core.config.stepLength)) := by
  apply linked_preserved hready
  intro point control hnear hresult
  rcases FixedStep.step_follows hready hcore hmethod hnear with hcancelled | ⟨-, hnext, hfollows⟩
  · rw [hcancelled] at hresult
    cases hresult
  · exact ⟨hnext, hfollows.time, hfollows⟩

/-- No step from a point with slopes near the rates fails, so a run ends at its
last step or is cancelled. -/
theorem outcome_of_near (hready : integrator.Ready) (hcore : integrator.core.SolvesRates f)
    (hmethod : integrator.method ≠ .implicitEuler) {final reached : Nat} {run : Run ℝ Control}
    (hnear : integrator.core.Near f point)
    (hends : FixedStep.Ends integrator integrator.core.config.stepLength final reached point run) :
    run.outcome = .ok .completed ∨ run.outcome = .ok .cancelled := by
  cases houtcome : run.outcome with
  | ok termination =>
      cases termination with
      | completed => exact .inl rfl
      | cancelled => exact .inr rfl
  | error cause =>
      rcases hends.failed cause houtcome with ⟨hcause, later, hresult⟩
      rw [FixedStep.stepTo] at hresult
      rcases FixedStep.step_follows hready hcore hmethod hnear with hcancelled | ⟨hfinished, -⟩
      · cases hresult.symm.trans hcancelled
        exact absurd rfl hcause
      · cases hresult.symm.trans hfinished

/-- In exact arithmetic the points of an explicit method for an explicit system
have slopes near the rates, each follows the one before by the formula of the
method, and only a cancellation ends the run early. -/
theorem run_follows (hready : integrator.Ready) (hcore : integrator.core.SolvesRates f)
    (hmethod : integrator.method ≠ .implicitEuler)
    (told : ProgressEvent ℝ → Control → Control) (control : Control) :
    let run := FixedStep.run integrator told control
    (∀ point ∈ run.session.points, integrator.core.Near f point) ∧
      run.session.points.toList.IsChain
        (FixedStep.Follows integrator f integrator.core.config.stepLength) ∧
      (run.outcome = .ok .completed ∨ run.outcome = .ok .cancelled) := by
  intro run
  have hpreserved := linked_explicitly hready hcore hmethod told
  have hfirst := first_near hready hcore control
  let first := (Integrator.fixedStep integrator).first control
  have hinv : first.result = .ok () →
      integrator.Linked (integrator.core.Near f)
        (FixedStep.Follows integrator f integrator.core.config.stepLength) 1 first.point
        ((Session.start first.control).log first.point) := by
    intro hresult
    rcases hfirst with hcancelled | ⟨-, hnear, htime⟩
    · cases hresult.symm.trans hcancelled
    · exact linked_first hnear htime _
  rcases hpreserved.run hready.initialized rfl hinv with
    ⟨cause, hcause, hrun⟩ | ⟨reached, last, hlinked, hends⟩
  · rcases hfirst with hcancelled | ⟨hresult, -⟩
    · cases hcause.symm.trans hcancelled
      have hempty : run = ⟨.ok .cancelled, Session.start first.control⟩ := hrun
      rw [hempty]
      exact ⟨fun point hpoint => absurd hpoint (Array.not_mem_empty point), .nil, .inr rfl⟩
    · cases hcause.symm.trans hresult
  · have hlast : last ∈ run.session.points :=
      Array.mem_toList_iff.mp (List.mem_of_getLast? hlinked.last)
    exact ⟨hlinked.good, hlinked.follows,
      outcome_of_near hready hcore hmethod (hlinked.good last hlast) hends⟩

theorem growth_isExplicit : CompiledSystem.growth.toResidual.IsExplicit fun _ y => y where
  length_rates _ _ hy := hy
  residual t y yp out hy hyp hout := by
    rcases List.length_eq_one_iff.mp hy with ⟨x, rfl⟩
    rcases List.length_eq_one_iff.mp hyp with ⟨slope, rfl⟩
    have hrows : CompiledSystem.growth.RowsAre (CompiledSystem.growth.bindings t [x] [slope])
        [slope - x] := .cons rfl .nil
    exact CompiledSystem.residual_of_rows rfl rfl hout hrows

/-- The Runge-Kutta method for exponential growth. -/
theorem run_follows_growth :
    let blank := create .rungeKutta4 CompiledSystem.growth.toResidual ⟨2, 0, 1, [1]⟩
    let integrator : FixedStepIntegrator ℝ := ⟨{ blank.core with
      algebraic := [false]
      initialized := true }, .rungeKutta4, 1⟩
    let run := FixedStep.run integrator (fun _ control => control) .fresh
    integrator.Ready ∧ integrator.core.SolvesRates (fun _ y => y) ∧
      integrator.method ≠ .implicitEuler ∧
      run.session.points.toList.IsChain
        (FixedStep.RungeKuttaFollows (fun _ y => y) integrator.core.newton.tolerance
          integrator.core.config.stepLength) := by
  intro blank integrator run
  have hsystem : blank.core.system.FillsBuffer := CompiledSystem.growth.toResidual_fillsBuffer
  have hready : integrator.Ready :=
    prepare_ready hsystem (prepare_growth .rungeKutta4 2 two_ne_zero)
  have htolerance : 0 < integrator.core.newton.tolerance := by
    change 0 < (NewtonSettings.standard : NewtonSettings ℝ).tolerance
    rw [NewtonSettings.standard, Exact.scientific_eq]
    norm_num
  have hcore : integrator.core.SolvesRates fun _ y => y :=
    ⟨growth_isExplicit, hsystem, rfl, htolerance, by decide⟩
  have hmethod : integrator.method ≠ .implicitEuler := by decide
  exact ⟨hready, hcore, hmethod, (run_follows hready hcore hmethod _ _).2.1⟩

end FixedStepIntegrator

end

end ImplicitDynamics
