import ImplicitDynamics.Equation.System
import ImplicitDynamics.Integration.Bdf.Attempt
import ImplicitDynamics.Proofs.Nordsieck
import ImplicitDynamics.Proofs.ResidualForm
import Mathlib.Algebra.Polynomial.Roots

/-!
# An accepted step interpolates

Each update of the corrector moves the derivatives of the differential
variables in a fixed ratio to their states, so at the end they are where the
formula says.  The history of an accepted step is then a curve that goes through
the new state with the new derivative, and agrees with the past at as many
earlier times as its order says.  No other curve of this order does.
-/

open Polynomial

namespace ImplicitDynamics

section Lengths

variable {α : Type} [Scalar α]

theorem CompiledSystem.length_writeRows (bindings : Bindings α) (equations : List (Equation α))
    (slots : List α) : (writeRows bindings equations slots).out.length = slots.length := by
  induction equations generalizing slots with
  | nil => simp [writeRows]
  | cons equation equations ih =>
      cases slots with
      | nil => simp [writeRows]
      | cons slot slots =>
          rw [writeRows]
          split
          · rfl
          · simp [ih]

theorem CompiledSystem.toResidual_fillsBuffer (system : CompiledSystem α) :
    system.toResidual.FillsBuffer := by
  intro t y yp out
  simp only [CompiledSystem.toResidual]
  split
  · rfl
  · exact CompiledSystem.length_writeRows _ _ _

theorem Linear.length_eliminate {threshold : α} {n : Nat} {rows : List (Linear.Row α)}
    {solution : List (List α)} (hsolution : Linear.eliminate threshold n rows = some solution) :
    solution.length = n := by
  induction n generalizing rows solution with
  | zero =>
      cases hsolution
      rfl
  | succ n ih =>
      cases rows with
      | nil => cases hsolution
      | cons top rest =>
          rw [Linear.eliminate] at hsolution
          simp only at hsolution
          split at hsolution
          · cases hsolution
          · obtain ⟨others, hothers, rfl⟩ := Option.map_eq_some_iff.mp hsolution
            rw [List.length_cons, ih hothers]

theorem Linear.length_solve {matrix : List (List α)} {rightSide solution : List α}
    (hsolution : Linear.solve matrix rightSide = some solution) :
    solution.length = matrix.length := by
  obtain ⟨unknowns, hunknowns, rfl⟩ := Option.map_eq_some_iff.mp hsolution
  rw [List.length_map]
  unfold Linear.solveMatrix at hunknowns
  simp only at hunknowns
  split at hunknowns
  · cases hunknowns
  · exact Linear.length_eliminate hunknowns

end Lengths

namespace Linear

theorem solve_single {a b : ℝ} (ha : a ≠ 0) : solve [[a]] [b] = some [b / a] := by
  have hthreshold : ¬ |a| ≤ (singularPivot : ℝ) * |a| := by
    have hpos := abs_pos.mpr ha
    simp only [singularPivot, Exact.scientific_eq, not_le]
    norm_num
    linarith
  simp [solve, solveMatrix, largestEntry, entriesByColumn, eliminate, choosePivot, largestLeading,
    Row.leading, Row.solve, ha, hthreshold, Exact.zero_eq]

theorem wrmsNorm_single (v w : ℝ) : wrmsNorm [v] [w] = |v / w| := by
  simp only [wrmsNorm, Exact.sum_eq, Scalar.sqrt]
  simp [Real.sqrt_mul_self_eq_abs]

theorem l2Norm_single (v : ℝ) : l2Norm [v] = |v| := by
  simp only [l2Norm, Exact.sum_eq, Scalar.sqrt]
  simp [Real.sqrt_mul_self_eq_abs]

end Linear

namespace Bdf

noncomputable section

section Corrector

/-- The derivatives of differential variables have moved by `alpha` times what
the states have, those of the others not at all. -/
structure Moved (algebraic : List Bool) (alpha : ℝ) (before after : List ℝ × List ℝ) : Prop where
  state_length : after.1.length = algebraic.length
  slopes_length : after.2.length = algebraic.length
  differential : ∀ {i}, i < algebraic.length → algebraic.getD i false = false →
    after.2.getD i 0 = before.2.getD i 0 + alpha * (after.1.getD i 0 - before.1.getD i 0)
  algebraic : ∀ {i}, i < algebraic.length → algebraic.getD i false = true →
    after.2.getD i 0 = before.2.getD i 0

variable {algebraic : List Bool} {alpha : ℝ} {before middle after : List ℝ × List ℝ}

theorem Moved.trans (hfirst : Moved algebraic alpha before middle)
    (hsecond : Moved algebraic alpha middle after) : Moved algebraic alpha before after where
  state_length := hsecond.state_length
  slopes_length := hsecond.slopes_length
  differential hi hflag := by
    rw [hsecond.differential hi hflag, hfirst.differential hi hflag]
    ring
  algebraic hi hflag := (hsecond.algebraic hi hflag).trans (hfirst.algebraic hi hflag)

variable {corrector : Corrector ℝ} {state derivatives updates : List ℝ}

theorem update_moved (hstate : state.length = corrector.core.algebraic.length)
    (hderivatives : derivatives.length = corrector.core.algebraic.length)
    (hupdates : updates.length = corrector.core.algebraic.length) :
    Moved corrector.core.algebraic corrector.alpha (state, derivatives)
      (corrector.update updates state derivatives) := by
  have hslope : ∀ {i}, i < corrector.core.algebraic.length →
      (corrector.update updates state derivatives).2.getD i 0 =
        if corrector.core.algebraic.getD i false then derivatives.getD i 0
        else derivatives.getD i 0 + corrector.alpha * updates.getD i 0 := by
    intro i hi
    simp only [Corrector.update, Exact.zero_eq, Exact.add_eq, Exact.mul_eq]
    rw [History.getD_map_range (hderivatives ▸ hi),
      getD_zipWith (hderivatives ▸ hi) (hupdates ▸ hi)]
  have hvalue : ∀ {i}, i < corrector.core.algebraic.length →
      (corrector.update updates state derivatives).1.getD i 0 =
        state.getD i 0 + updates.getD i 0 := by
    intro i hi
    simp only [Corrector.update, Exact.add_eq]
    rw [getD_zipWith (hstate ▸ hi) (hupdates ▸ hi)]
  refine ⟨?_, ?_, ?_, ?_⟩
  · simp [Corrector.update, hstate, hupdates]
  · simp [Corrector.update, hderivatives]
  · intro i hi hflag
    rw [hslope hi, hvalue hi, hflag]
    simp
  · intro i hi hflag
    rw [hslope hi, hflag]
    simp

variable (corrector) in
theorem iterate_moved (hsystem : corrector.core.system.FillsBuffer)
    (hdimension : corrector.core.system.dimension = corrector.core.algebraic.length) {left : Nat}
    {control : Control} (hstate : state.length = corrector.core.algebraic.length)
    (hderivatives : derivatives.length = corrector.core.algebraic.length)
    (hiterate : (corrector.iterate left state derivatives control).1 = .ok (some after)) :
    Moved corrector.core.algebraic corrector.alpha (state, derivatives) after := by
  induction left generalizing state derivatives control with
  | zero => cases hiterate
  | succ left ih =>
      rw [Corrector.iterate] at hiterate
      simp only at hiterate
      split at hiterate
      · cases hiterate
      · next residual hresidual =>
        split at hiterate
        · cases hiterate
        · split at hiterate
          · cases hiterate
          · split at hiterate
            · cases hiterate
            · next updates hupdates =>
              have hlength : updates.length = corrector.core.algebraic.length := by
                rw [Linear.length_solve hupdates, Linear.rowsOfColumns, List.length_map,
                  List.length_range, hsystem.length_evaluate hresidual, hdimension]
              have hmoved := update_moved hstate hderivatives hlength
              split at hiterate
              · cases hiterate
                exact hmoved
              · exact hmoved.trans (ih hmoved.state_length hmoved.slopes_length hiterate)

theorem iterate_of_small {left : Nat} {residual : List ℝ} {columns : List (List ℝ)}
    {control looked probed : Control}
    (hevaluate : corrector.core.system.evaluate corrector.time state derivatives = .ok residual)
    (hlook : control.look = (true, looked))
    (hcolumns : (Probe.mk corrector.core.system corrector.time state derivatives).columns
      Supervisor.controlled residual (List.range state.length) (.combined corrector.alpha)
      (state.zipWith FiniteDifference.increment corrector.nominal) looked = (.ok columns, probed))
    (hsolve : Linear.solve (Linear.rowsOfColumns residual.length columns)
      (residual.map fun x => -x) = some updates)
    (hsmall : Linear.wrmsNorm updates corrector.weights ≤ corrector.settings.correctorTolerance) :
    corrector.iterate (left + 1) state derivatives control =
      (.ok (some (corrector.update updates state derivatives)), probed) := by
  rw [Corrector.iterate]
  simp only [hevaluate, hlook, hcolumns, Exact.neg_eq, hsolve]
  rw [if_pos hsmall]

end Corrector

/-! ## What an accepted attempt does -/

section Attempts

variable {algebraic : List Bool} {state derivatives : List ℝ}

/-- The history after a step to a point, as the formula of its order says. -/
structure Corrects (algebraic : List Bool) (history : History ℝ) (state derivatives : List ℝ)
    (after : History ℝ) : Prop where
  after_eq : after =
    history.accept algebraic (coefficients history.order) history.predict state
  state_length : state.length = algebraic.length
  derivatives_length : derivatives.length = algebraic.length
  differential : ∀ {i}, i < algebraic.length → algebraic.getD i false = false →
    derivatives.getD i 0 = (entry history.predict 1 i + (coefficients history.order).getD 1 0 *
      (state.getD i 0 - entry history.predict 0 i)) / history.step
  algebraic : ∀ {i}, i < algebraic.length → algebraic.getD i false = true →
    derivatives.getD i 0 = 0

theorem getD_predictedDerivatives {column : List ℝ} {i : Nat} (h : ℝ) (hi : i < algebraic.length)
    (hcolumn : column.length = algebraic.length) :
    (predictedDerivatives algebraic h column).getD i 0 =
      if algebraic.getD i false then 0 else column.getD i 0 / h := by
  have hzip : i < (column.zip algebraic).length := by
    rw [List.length_zip, hcolumn, Nat.min_self]
    exact hi
  rw [List.getD_eq_getElem _ _ (by simpa [predictedDerivatives] using hzip),
    List.getD_eq_getElem _ _ hi, List.getD_eq_getElem _ _ (hcolumn ▸ hi)]
  simp [predictedDerivatives, Exact.zero_eq]

variable {core : Core ℝ} {settings : BdfSettings ℝ} {history : History ℝ} {time error : ℝ}
  {control : Control}

def History.corrector (history : History ℝ) (core : Core ℝ) (settings : BdfSettings ℝ)
    (time : ℝ) : Corrector ℝ where
  core := core
  settings := settings
  time := time
  alpha := (coefficients history.order).getD 1 0 / history.step
  weights := history.weights settings
  nominal := history.nominal

/-- An accepted point comes out of the corrector and goes into the history. -/
theorem attempt_accepted
    (haccepted : (attempt core settings history time control).result =
      .ok (.accepted error state derivatives)) :
    ((history.corrector core settings time).iterate core.newton.maxIterations
        (history.predict.headD []) (predictedDerivatives core.algebraic history.step
          (history.predict.getD 1 [])) control).1 = .ok (some (state, derivatives)) ∧
      (attempt core settings history time control).history =
        history.accept core.algebraic (coefficients history.order) history.predict state := by
  unfold attempt at haccepted ⊢
  simp only [Exact.zero_eq, Exact.div_eq] at haccepted ⊢
  split at haccepted
  · cases haccepted
  · cases haccepted
  · next hiterate =>
    split at haccepted
    · cases haccepted
    · split at haccepted
      · next herror =>
        cases haccepted
        exact ⟨congrArg Prod.fst hiterate, by rw [if_pos herror]⟩
      · cases haccepted

theorem attempt_of_acceptable {residual states slopes : List ℝ} {probed : Control}
    (hpredict : history.predict = [states, slopes])
    (hiterate : (history.corrector core settings time).iterate core.newton.maxIterations states
      (predictedDerivatives core.algebraic history.step slopes) control =
        (.ok (some (state, derivatives)), probed))
    (hevaluate : core.system.evaluate time state derivatives = .ok residual)
    (herror : localError settings core.algebraic history.order (history.weights settings) residual
      state states = error)
    (hle : error ≤ 1) :
    (attempt core settings history time control).result =
      .ok (.accepted error state derivatives) := by
  unfold attempt
  simp only [History.corrector, Exact.zero_eq, Exact.div_eq] at hiterate ⊢
  simp only [hpredict, List.headD_cons, List.getD_cons_succ, List.getD_cons_zero]
  rw [hiterate]
  simp only [hevaluate, herror, Exact.le_iff, Exact.one_eq]
  rw [if_pos hle]

theorem attempt_not_accepted
    (hresult : ∀ error state derivatives,
      (attempt core settings history time control).result ≠
        .ok (.accepted error state derivatives)) :
    (attempt core settings history time control).history = history := by
  unfold attempt at hresult ⊢
  simp only at hresult ⊢
  split
  · rfl
  · rfl
  · split
    · rfl
    · split
      · next hiterate _ _ hevaluate herror =>
        rw [hiterate] at hresult
        simp only [hevaluate] at hresult
        rw [if_pos herror] at hresult
        exact absurd rfl (hresult _ _ _)
      · rfl

theorem attempt_corrects (hsystem : core.system.FillsBuffer)
    (hdimension : core.system.dimension = core.algebraic.length)
    (hshaped : history.Shaped core.algebraic.length) (horder : 1 ≤ history.order)
    (haccepted : (attempt core settings history time control).result =
      .ok (.accepted error state derivatives)) :
    Corrects core.algebraic history state derivatives
      (attempt core settings history time control).history := by
  obtain ⟨states, slopes, rest, hpredict, hstates, hslopes⟩ := hshaped.exists_predict_eq horder
  obtain ⟨hiterate, hafter⟩ := attempt_accepted haccepted
  rw [hpredict] at hiterate
  have hguess : (predictedDerivatives core.algebraic history.step slopes).length =
      core.algebraic.length := by
    simp [predictedDerivatives, hslopes]
  have hmoved := iterate_moved (history.corrector core settings time) hsystem hdimension hstates
    hguess hiterate
  refine ⟨hafter, hmoved.state_length, hmoved.slopes_length, ?_, ?_⟩
  · intro i hi hflag
    have hslope := hmoved.differential hi hflag
    rw [getD_predictedDerivatives history.step hi hslopes, hflag] at hslope
    rw [hslope, hpredict, entry_cons_zero, entry_cons_succ, entry_cons_zero]
    simp only [History.corrector, Bool.false_eq_true, if_false]
    ring
  · intro i hi hflag
    have hslope := hmoved.algebraic hi hflag
    rw [getD_predictedDerivatives history.step hi hslopes, hflag] at hslope
    exact hslope

/-! ## Interpolation -/

/-- A curve `next` of an order that goes through a point at `time`, with the
derivative there, and agrees with the past at the times before. -/
structure Interpolates (past : ℝ[X]) (order : Nat) (time step state derivative : ℝ)
    (next : ℝ[X]) : Prop where
  degree : next.natDegree ≤ order
  value : next.eval time = state
  slope : (Polynomial.derivative next).eval time = derivative
  agrees : ∀ k : Nat, 1 ≤ k → k ≤ order →
    next.eval (time - k * step) = past.eval (time - k * step)

/-- The new point and the times before determine the curve. -/
theorem Interpolates.unique {past next other : ℝ[X]} {order : Nat}
    {time step state derivative : ℝ} (hstep : step ≠ 0)
    (hnext : Interpolates past order time step state derivative next)
    (hother : Interpolates past order time step state derivative other) : other = next := by
  -- node zero is the new time, the others are the times before
  let nodes : Fin (order + 1) → ℝ := fun k => time - (k : Nat) * step
  have hinjective : Function.Injective nodes := by
    intro j k hjk
    have hproduct : ((j : Nat) : ℝ) * step = (k : Nat) * step := sub_right_injective hjk
    exact Fin.ext (Nat.cast_injective (mul_right_cancel₀ hstep hproduct))
  apply Polynomial.eq_of_natDegree_lt_card_of_eval_eq _ _ hinjective
  · intro k
    by_cases hk : (k : Nat) = 0
    · have hnode : nodes k = time := by simp [nodes, hk]
      rw [hnode, hnext.value, hother.value]
    · have hpos : 1 ≤ (k : Nat) := Nat.one_le_iff_ne_zero.mpr hk
      have hle : (k : Nat) ≤ order := Nat.le_of_lt_succ k.isLt
      rw [hnext.agrees k hpos hle, hother.agrees k hpos hle]
  · rw [Fintype.card_fin]
    exact Nat.lt_succ_of_le (max_le hother.degree hnext.degree)

variable {n : Nat} {after : History ℝ}

theorem Corrects.order_eq (hcorrects : Corrects algebraic history state derivatives after) :
    after.order = history.order := by
  rw [hcorrects.after_eq]
  rfl

theorem Corrects.step_eq (hcorrects : Corrects algebraic history state derivatives after) :
    after.step = history.step := by
  rw [hcorrects.after_eq]
  rfl

theorem Corrects.stepsAtOrder_eq
    (hcorrects : Corrects algebraic history state derivatives after) :
    after.stepsAtOrder = history.stepsAtOrder := by
  rw [hcorrects.after_eq]
  rfl

theorem Corrects.consecutiveFailures_eq
    (hcorrects : Corrects algebraic history state derivatives after) :
    after.consecutiveFailures = history.consecutiveFailures := by
  rw [hcorrects.after_eq]
  rfl

theorem Corrects.shaped (hcorrects : Corrects algebraic history state derivatives after)
    (hshaped : history.Shaped algebraic.length) : after.Shaped algebraic.length where
  toRectangular := by
    rw [hcorrects.after_eq]
    exact hshaped.toRectangular.accept hcorrects.state_length _ _ _
  above := by
    intro j hj i
    rw [hcorrects.after_eq] at hj ⊢
    have hpredicted : history.predict.length ≤ j := by
      rw [hshaped.length_predict]
      exact hj
    rw [History.entry_accept_of_le hpredicted, hshaped.above hj]

theorem History.Shaped.natDegree_curve_le (hshaped : history.Shaped n) (time : ℝ) (i : Nat) :
    (history.curve time i).natDegree ≤ history.order := by
  have hpolynomial := hshaped.natDegree_polynomial_le i
  have hlinear : (C (1 / history.step) * (X - C time)).natDegree ≤ 1 := by
    apply (Polynomial.natDegree_C_mul_le _ _).trans
    exact (Polynomial.natDegree_X_sub_C_le time)
  calc (history.curve time i).natDegree
      ≤ (history.polynomial i).natDegree * (C (1 / history.step) * (X - C time)).natDegree :=
        history.curve_eq_comp time i ▸ Polynomial.natDegree_comp_le
    _ ≤ history.order * 1 := Nat.mul_le_mul hpolynomial hlinear
    _ = history.order := Nat.mul_one _

theorem eval_derivative_curve (history : History ℝ) (time : ℝ) (i : Nat) :
    (Polynomial.derivative (history.curve time i)).eval time =
      entry history.columns 1 i / history.step := by
  rw [History.curve_eq_comp, Polynomial.derivative_comp, eval_mul, eval_comp]
  have hcoeff : (Polynomial.derivative (history.polynomial i)).eval 0 =
      entry history.columns 1 i := by
    rw [← Polynomial.coeff_zero_eq_eval_zero, Polynomial.coeff_derivative,
      History.coeff_polynomial]
    simp
  simp [hcoeff]
  ring

theorem Corrects.interpolates (hcorrects : Corrects algebraic history state derivatives after)
    (hshaped : history.Shaped algebraic.length) (hstep : history.step ≠ 0) (time : ℝ) {i : Nat}
    (hi : i < algebraic.length)
    (hflag : algebraic.getD i false = false) :
    Interpolates (history.curve time i) history.order (time + history.step) history.step
      (state.getD i 0) (derivatives.getD i 0) (after.curve (time + history.step) i) := by
  have hle := hshaped.order_le
  have hpolynomial : after.polynomial i = taylor 1 (history.polynomial i) +
      C (state.getD i 0 - entry history.predict 0 i) * series (formula history.order) := by
    rw [hcorrects.after_eq]
    exact hshaped.polynomial_accept hi hcorrects.state_length hflag
  have hpredicted : ∀ j, (taylor 1 (history.polynomial i)).coeff j = entry history.predict j i := by
    intro j
    rw [← hshaped.series_predict hi, coeff_series_entries]
  refine ⟨?_, ?_, ?_, ?_⟩
  · rw [← hcorrects.order_eq]
    exact (hcorrects.shaped hshaped).natDegree_curve_le _ _
  · rw [History.eval_curve, sub_self, zero_div, hpolynomial, eval_add, eval_mul, eval_C,
      eval_zero_formula hle, ← Polynomial.coeff_zero_eq_eval_zero, hpredicted]
    ring
  · rw [eval_derivative_curve, hcorrects.step_eq, hcorrects.differential hi hflag,
      ← History.coeff_polynomial, hpolynomial, coeff_add, coeff_C_mul, hpredicted,
      getD_coefficients]
    ring
  · -- at the times before, the formula vanishes and only the prediction is left
    intro k hk hkle
    obtain ⟨earlier, rfl⟩ := Nat.exists_eq_add_of_le hk
    have hvanish := eval_neg_formula hle (k := earlier) (by omega)
    have hpoint : (time + history.step - ((1 + earlier : Nat) : ℝ) * history.step -
        (time + history.step)) / after.step = -(earlier + 1 : ℝ) := by
      rw [hcorrects.step_eq]
      field_simp
      push_cast
      ring
    have hpast : (time + history.step - ((1 + earlier : Nat) : ℝ) * history.step - time) /
        history.step = -(earlier + 1 : ℝ) + 1 := by
      field_simp
      push_cast
      ring
    rw [History.eval_curve, hpoint, History.eval_curve, hpast, hpolynomial, eval_add, eval_mul,
      hvanish, taylor_eval]
    ring

/-- After an accepted step the history of each differential variable is the one
curve of its order through the new point that agrees with the past. -/
theorem attempt_interpolates (hsystem : core.system.FillsBuffer)
    (hdimension : core.system.dimension = core.algebraic.length)
    (hshaped : history.Shaped core.algebraic.length) (horder : 1 ≤ history.order)
    (hstep : history.step ≠ 0)
    (haccepted : (attempt core settings history (time + history.step) control).result =
      .ok (.accepted error state derivatives)) :
    let after := (attempt core settings history (time + history.step) control).history
    state.length = core.algebraic.length ∧ derivatives.length = core.algebraic.length ∧
      after.Shaped core.algebraic.length ∧ after.order = history.order ∧
      after.step = history.step ∧
      ∀ i < core.algebraic.length, core.algebraic.getD i false = false →
        Interpolates (history.curve time i) history.order (time + history.step) history.step
          (state.getD i 0) (derivatives.getD i 0) (after.curve (time + history.step) i) ∧
        ∀ other, Interpolates (history.curve time i) history.order (time + history.step)
          history.step (state.getD i 0) (derivatives.getD i 0) other →
            other = after.curve (time + history.step) i := by
  intro after
  have hcorrects := attempt_corrects hsystem hdimension hshaped horder haccepted
  refine ⟨hcorrects.state_length, hcorrects.derivatives_length, hcorrects.shaped hshaped,
    hcorrects.order_eq, hcorrects.step_eq, ?_⟩
  intro i hi hflag
  have hnext := hcorrects.interpolates hshaped hstep time hi hflag
  exact ⟨hnext, fun other hother => hnext.unique hstep hother⟩

end Attempts

/-- The first formula is that of the implicit Euler method. -/
theorem getD_coefficients_one : (coefficients 1 : List ℝ).getD 1 0 = 1 := by
  simp [coefficients, formula, timesFactor, BdfSettings.highestOrder, List.range_succ,
    Exact.literal_eq]

namespace AtRest

/-- The system `y' = 0` in one variable. -/
def core : Core ℝ :=
  { Core.create (.affine [[1]] [[0]] [0]) ⟨100, 0, 1, [1]⟩ with algebraic := [false] }

def settings : BdfSettings ℝ :=
  { BdfSettings.standard with
    relativeTolerance := 1
    absoluteTolerance := 1
    correctorTolerance := 1 }

/-- A past that rises, so that the prediction has to be corrected. -/
def history : History ℝ := ⟨[[1], [1], [0], [0], [0], [0]], 1, 1, 0, 0, [1]⟩

theorem history_shaped : history.Shaped 1 where
  count := rfl
  sized := by
    intro column hcolumn
    simp only [history, List.mem_cons, List.not_mem_nil, or_false] at hcolumn
    rcases hcolumn with rfl | rfl | rfl | rfl | rfl | rfl <;> rfl
  order_le := by decide
  above := by
    intro j hj i
    have hzero : ∀ i, ([0] : List ℝ).getD i 0 = 0 := getD_replicate_zero 1
    match j, hj with
    | 2, _ | 3, _ | 4, _ | 5, _ => exact hzero i
    | _ + 6, _ => exact entry_of_le (by simp [history])

theorem predict_history : history.predict = [[2], [1]] := by
  simp [history, History.predict, extrapolate, suffixSums]
  norm_num

theorem weights_history : history.weights settings = [2] := by
  simp [history, History.weights, settings]
  norm_num

theorem alpha_corrector (time : ℝ) : (history.corrector core settings time).alpha = 1 := by
  simp only [History.corrector, history, getD_coefficients_one, div_one]

theorem evaluate_core (t y slope : ℝ) : core.system.evaluate t [y] [slope] = .ok [slope] := by
  simp [core, Core.create, ResidualSystem.evaluate, ResidualSystem.affine,
    ResidualSystem.ofFunction, ResidualSystem.mismatch?, ResidualSystem.accumulate]

theorem columns_core (time : ℝ) :
    (Probe.mk core.system time [2] [1]).columns Supervisor.controlled [1]
      (List.range 1) (.combined (history.corrector core settings time).alpha)
      ([2].zipWith FiniteDifference.increment [1]) .fresh = (.ok [[1]], .fresh) := by
  have hincrement : FiniteDifference.increment (2 : ℝ) 1 ≠ 0 := by
    simp only [FiniteDifference.increment, Exact.epsilon_eq, Scalar.sqrt, Exact.mul_eq,
      Exact.abs_eq, Exact.max_eq]
    positivity
  rw [alpha_corrector]
  simp [Control.look, Control.fresh, Probe.columns, Probe.quotients, Probe.sweep,
    Supervisor.controlled, Probe.scratch, Scratch.evaluate, Scratch.move, Scratch.restore, core,
    Core.create, ResidualSystem.affine, ResidualSystem.ofFunction, ResidualSystem.mismatch?,
    ResidualSystem.accumulate, List.modify_cons, hincrement]

theorem iterate_core (time : ℝ) :
    (history.corrector core settings time).iterate (9 + 1) [2]
      (predictedDerivatives core.algebraic history.step [1]) .fresh =
        (.ok (some ([1], [0])), .fresh) := by
  have hguess : predictedDerivatives core.algebraic history.step [1] = [1] := by
    simp [predictedDerivatives, core, history]
  have hlook : Control.fresh.look = (true, .fresh) := rfl
  have hsolve : Linear.solve (Linear.rowsOfColumns 1 [[1]]) ([1].map fun x : ℝ => -x) =
      some [-1 / 1] := Linear.solve_single one_ne_zero
  have hsmall : Linear.wrmsNorm [-1 / 1] (history.weights settings) ≤ 1 := by
    rw [weights_history, Linear.wrmsNorm_single, abs_le]
    norm_num
  have hupdate : (history.corrector core settings time).update [-1 / 1] [2] [1] =
      ([1], [0]) := by
    simp only [Corrector.update, alpha_corrector]
    simp [History.corrector, core, Exact.zero_eq]
    norm_num
  rw [hguess, ← hupdate]
  exact iterate_of_small (evaluate_core _ _ _) hlook (columns_core time) hsolve hsmall

theorem attempt_result (time : ℝ) :
    (attempt core settings history time .fresh).result = .ok (.accepted (1 / 4) [1] [0]) := by
  have herror : localError settings core.algebraic history.order (history.weights settings) [0] [1]
      [2] = 1 / 4 := by
    rw [weights_history]
    simp [localError, core, history, Exact.zero_eq, Linear.l2Norm_single, Scalar.sqrt]
    norm_num
  exact attempt_of_acceptable predict_history (iterate_core time) (evaluate_core _ _ _) herror
    (by norm_num)

end AtRest

theorem attempt_interpolates_atRest :
    let attempted := attempt AtRest.core AtRest.settings AtRest.history (0 + 1) .fresh
    AtRest.core.system.FillsBuffer ∧ AtRest.core.system.dimension = 1 ∧
      AtRest.history.Shaped 1 ∧ 1 ≤ AtRest.history.order ∧ AtRest.history.step ≠ 0 ∧
      attempted.result = .ok (.accepted (1 / 4) [1] [0]) ∧
      Interpolates (AtRest.history.curve 0 0) 1 (0 + 1) 1 1 0
        (attempted.history.curve (0 + 1) 0) := by
  intro attempted
  have hsystem : AtRest.core.system.FillsBuffer := ResidualSystem.affine_fillsBuffer rfl rfl
  have haccepted := AtRest.attempt_result (0 + AtRest.history.step)
  obtain ⟨-, -, -, -, -, hcurve⟩ := attempt_interpolates hsystem rfl AtRest.history_shaped le_rfl
    one_ne_zero haccepted
  exact ⟨hsystem, rfl, AtRest.history_shaped, le_rfl, one_ne_zero, haccepted,
    (hcurve 0 Nat.zero_lt_one rfl).1⟩

end

end Bdf

end ImplicitDynamics
