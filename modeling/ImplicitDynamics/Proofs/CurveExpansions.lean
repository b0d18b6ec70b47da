import ImplicitDynamics.Proofs.Nordsieck
import Mathlib.Algebra.Polynomial.Roots

/-!
# Expansions of curves

The columns of a history expand the curves of its variables in powers of the
time since the present, counted in steps.  As long as the step is not zero a
curve has one such expansion.  The prediction is the expansion of the same
curves around the end of the step.  A power of the time counted from there is a
binomial in the time counted from here, so the predicted columns are sums of
the old ones weighted with binomial coefficients.

Rescaling counts the time in other steps.  It leaves the curves as they are, and
to rescale twice is to rescale once by the product.
-/

open Polynomial

namespace ImplicitDynamics.Bdf

noncomputable section

variable {n : Nat} {columns others : List (List ℝ)} {time step : ℝ} {curves : Fin n → ℝ[X]}

/-- Column `j` holds for each variable the coefficient of
`((s - time) / step) ^ j` in its curve, and a curve has no other powers. -/
def Expands (columns : List (List ℝ)) (time step : ℝ) (curves : Fin n → ℝ[X]) : Prop :=
  ∀ i, curves i = ∑ j ∈ Finset.range columns.length,
    C (entry columns j i) * (C (1 / step) * (X - C time)) ^ j

theorem Expands.eq_comp (hexpands : Expands columns time step curves) (i : Fin n) :
    curves i = (series (entries columns i)).comp (C (1 / step) * (X - C time)) :=
  (hexpands i).trans (sum_powers_eq_comp columns time step i)

/-- The time can be read back off the number of steps. -/
theorem comp_steps_injective (hstep : step ≠ 0) (time : ℝ) {p q : ℝ[X]}
    (hcomp : p.comp (C (1 / step) * (X - C time)) = q.comp (C (1 / step) * (X - C time))) :
    p = q := by
  have hback : (C (1 / step) * (X - C time)).comp (C step * X + C time) = X := by
    rw [mul_comp, C_comp, sub_comp, X_comp, C_comp, add_sub_cancel_right, ← mul_assoc, ← C_mul,
      one_div_mul_cancel hstep, C_1, one_mul]
  have hread : (p.comp (C (1 / step) * (X - C time))).comp (C step * X + C time) =
      (q.comp (C (1 / step) * (X - C time))).comp (C step * X + C time) := by
    rw [hcomp]
  rwa [comp_assoc, comp_assoc, hback, comp_X, comp_X] at hread

theorem Expands.unique (hstep : step ≠ 0) (hcolumns : Expands columns time step curves)
    (hothers : Expands others time step curves) (hlength : columns.length = others.length)
    (hsized : Sized n columns) (hsized' : Sized n others) : columns = others := by
  have hentry : ∀ i : Fin n, ∀ j, entry columns j i = entry others j i := by
    intro i j
    have hcomp := (hcolumns.eq_comp i).symm.trans (hothers.eq_comp i)
    rw [← coeff_series_entries, comp_steps_injective hstep time hcomp, coeff_series_entries]
  apply List.ext_getElem hlength
  intro j hj hj'
  have hcolumn := hsized _ (List.getElem_mem hj)
  apply eq_of_getD
  · rw [hcolumn, hsized' _ (List.getElem_mem hj')]
  · intro i hi
    rw [← entry_of_lt hj, ← entry_of_lt hj']
    exact hentry ⟨i, hcolumn ▸ hi⟩ j

/-- The binomial theorem for all powers at once. -/
theorem coeff_taylor_one {p : ℝ[X]} {order j : Nat} (hdegree : p.natDegree ≤ order)
    (hj : j ≤ order) :
    (taylor 1 p).coeff j = ∑ k ∈ Finset.Icc j order, (k.choose j : ℝ) * p.coeff k := by
  have hlt : (hasseDeriv j p).natDegree < order + 1 - j := by
    have hle := natDegree_hasseDeriv_le p j
    omega
  rw [taylor_coeff, eval_eq_sum_range' hlt, ← Finset.Ico_add_one_right_eq_Icc,
    Finset.sum_Ico_eq_sum_range]
  apply Finset.sum_congr rfl
  intro k _
  rw [hasseDeriv_coeff, one_pow, mul_one, Nat.add_comm]

namespace History

variable {history : History ℝ}

theorem Shaped.expands_predict (hshaped : history.Shaped n) (hstep : history.step ≠ 0)
    (hexpands : Expands history.columns time history.step curves) :
    Expands history.predict (time + history.step) history.step curves := by
  intro i
  -- one step more than since the end of the step is the time since its start
  have hsteps : (X + C (1 : ℝ)).comp (C (1 / history.step) * (X - C (time + history.step))) =
      C (1 / history.step) * (X - C time) := by
    have hone : C (1 / history.step) * C history.step = 1 := by
      rw [← C_mul, one_div_mul_cancel hstep, C_1]
    rw [add_comp, X_comp, C_comp, C_1, C_add, ← hone]
    ring
  rw [sum_powers_eq_comp, hshaped.series_predict i.isLt, taylor_apply, comp_assoc, hsteps]
  exact hexpands.eq_comp i

theorem Shaped.entry_predict (hshaped : history.Shaped n) {i j : Nat} (hi : i < n)
    (hj : j ≤ history.order) :
    entry history.predict j i =
      ∑ k ∈ Finset.Icc j history.order, (k.choose j : ℝ) * entry history.columns k i := by
  rw [← coeff_series_entries, hshaped.series_predict hi,
    coeff_taylor_one (hshaped.natDegree_polynomial_le i) hj]
  simp only [coeff_polynomial]

theorem scaleColumns_scaleColumns (first second factor factor' : ℝ) (columns : List (List ℝ)) :
    scaleColumns second factor' (scaleColumns first factor columns) =
      scaleColumns (first * second) (factor * factor') columns := by
  induction columns generalizing factor factor' with
  | nil => rfl
  | cons column rest ih =>
      have hfactor : factor * first * (factor' * second) =
          factor * factor' * (first * second) := by ring
      have hcolumn : (column.map (· * (factor * first))).map (· * (factor' * second)) =
          column.map (· * (factor * factor' * (first * second))) := by
        rw [List.map_map]
        apply List.map_congr_left
        intro value _
        rw [Function.comp_apply, mul_assoc, hfactor]
      have hrest := ih (factor * first) (factor' * second)
      rw [hfactor] at hrest
      exact congrArg₂ List.cons hcolumn hrest

theorem rescale_rescale (history : History ℝ) (first second : ℝ) :
    (history.rescale first).rescale second = history.rescale (first * second) := by
  unfold rescale
  cases history.columns with
  | nil => simp only [Exact.mul_eq, mul_assoc]
  | cons states rest =>
      simp only [Exact.mul_eq, mul_assoc, Exact.one_eq, scaleColumns_scaleColumns, one_mul]

theorem Shaped.expands_rescale_iff (hshaped : history.Shaped n) {ratio : ℝ} (hratio : ratio ≠ 0) :
    Expands (history.rescale ratio).columns time (history.rescale ratio).step curves ↔
      Expands history.columns time history.step curves := by
  have hcurve := fun i => curve_rescale hshaped hratio time i
  constructor
  · exact fun hexpands i => (hexpands i).trans (hcurve i)
  · exact fun hexpands i => (hexpands i).trans (hcurve i).symm

/-- The prediction is the one expansion of the same curves around the end of the
step, and its columns are binomial sums.  A rescaled history expands the same
curves in the other steps, and to rescale twice is to rescale once by the
product. -/
theorem Shaped.reexpands_curves (hshaped : history.Shaped n) :
    (∀ (time : ℝ) (curves : Fin n → ℝ[X]), history.step ≠ 0 →
      Expands history.columns time history.step curves →
        ∀ moved, moved = history.predict ↔
          moved.length = history.order + 1 ∧ Sized n moved ∧
            Expands moved (time + history.step) history.step curves) ∧
    (∀ j ≤ history.order, ∀ i < n, entry history.predict j i =
      ∑ k ∈ Finset.Icc j history.order, (k.choose j : ℝ) * entry history.columns k i) ∧
    (∀ ratio : ℝ, ratio ≠ 0 →
      (history.rescale ratio).Shaped n ∧ (history.rescale ratio).order = history.order ∧
        (history.rescale ratio).step = ratio * history.step ∧
        ∀ (time : ℝ) (curves : Fin n → ℝ[X]),
          Expands (history.rescale ratio).columns time (ratio * history.step) curves ↔
            Expands history.columns time history.step curves) ∧
    ∀ first second : ℝ,
      (history.rescale first).rescale second = history.rescale (first * second) := by
  refine ⟨?_, ?_, ?_, rescale_rescale history⟩
  · intro time curves hstep hexpands moved
    have hpredict := hshaped.expands_predict hstep hexpands
    constructor
    · rintro rfl
      exact ⟨hshaped.length_predict, hshaped.sized_predict, hpredict⟩
    · rintro ⟨hlength, hsized, hmoved⟩
      exact hmoved.unique hstep hpredict (hlength.trans hshaped.length_predict.symm) hsized
        hshaped.sized_predict
  · exact fun j hj i hi => hshaped.entry_predict hi hj
  · intro ratio hratio
    have hstep : (history.rescale ratio).step = ratio * history.step := mul_comm _ _
    refine ⟨hshaped.rescale ratio, rfl, hstep, ?_⟩
    intro time curves
    rw [← hstep]
    exact hshaped.expands_rescale_iff hratio

end History

namespace Parabolas

def graphs : Fin 2 → ℝ[X] := ![1 + X + X ^ 2, X ^ 2]

/-- The parabolas around the time zero. -/
def history (step : ℝ) : History ℝ :=
  ⟨[[1, 0], [step, 0], [step ^ 2, step ^ 2], [0, 0], [0, 0], [0, 0]], 2, step, 0, 0, [1, 1]⟩

theorem history_shaped (step : ℝ) : (history step).Shaped 2 where
  count := rfl
  sized := by
    intro column hcolumn
    simp only [history, List.mem_cons, List.not_mem_nil, or_false] at hcolumn
    rcases hcolumn with rfl | rfl | rfl | rfl | rfl | rfl <;> rfl
  order_le := Nat.le_of_ble_eq_true rfl
  above := by
    intro j hj i
    have hzero : ∀ i, ([0, 0] : List ℝ).getD i 0 = 0 := getD_replicate_zero 2
    match j, hj with
    | 3, _ | 4, _ | 5, _ => exact hzero i
    | _ + 6, _ => exact entry_of_le (by simp [history])

theorem history_expands (hstep : step ≠ 0) : Expands (history step).columns 0 step graphs := by
  intro i
  apply Polynomial.funext
  intro s
  rw [eval_finsetSum]
  fin_cases i <;>
    simp [graphs, history, entry, Finset.sum_range_succ] <;>
    field_simp

theorem predict_history (step : ℝ) :
    (history step).predict =
      [[1 + (step + step ^ 2), step ^ 2], [step + step ^ 2 + step ^ 2, step ^ 2 + step ^ 2],
        [step ^ 2, step ^ 2]] := by
  simp [history, History.predict, extrapolate, suffixSums]

end Parabolas

theorem History.reexpands_curves_parabolas :
    let history := Parabolas.history (1 / 2)
    history.Shaped 2 ∧ history.step ≠ 0 ∧
      Expands history.columns 0 history.step Parabolas.graphs ∧
      Expands [[7 / 4, 1 / 4], [1, 1 / 2], [1 / 4, 1 / 4]] (0 + history.step) history.step
        Parabolas.graphs ∧
      1 ≤ history.order ∧
      entry history.predict 1 0 =
        ∑ k ∈ Finset.Icc 1 history.order, (k.choose 1 : ℝ) * entry history.columns k 0 ∧
      (-2 : ℝ) ≠ 0 ∧
      Expands (history.rescale (-2)).columns 0 (-2 * history.step) Parabolas.graphs ∧
      (history.rescale (-2)).rescale 3 = history.rescale (-2 * 3) := by
  intro history
  have hshaped : history.Shaped 2 := Parabolas.history_shaped _
  have hstep : history.step ≠ 0 := one_div_ne_zero two_ne_zero
  have horder : 1 ≤ history.order := Nat.le_of_ble_eq_true rfl
  have hratio : (-2 : ℝ) ≠ 0 := neg_ne_zero.mpr two_ne_zero
  have hexpands : Expands history.columns 0 history.step Parabolas.graphs :=
    Parabolas.history_expands hstep
  have hpredict : [[7 / 4, 1 / 4], [1, 1 / 2], [1 / 4, 1 / 4]] = history.predict := by
    rw [Parabolas.predict_history]
    norm_num
  obtain ⟨hpredicted, hsums, hscaled, htwice⟩ := History.Shaped.reexpands_curves hshaped
  obtain ⟨-, -, hmoved⟩ := (hpredicted 0 _ hstep hexpands _).mp hpredict
  obtain ⟨-, -, -, hother⟩ := hscaled (-2) hratio
  exact ⟨hshaped, hstep, hexpands, hmoved, horder, hsums 1 horder 0 Nat.zero_lt_two, hratio,
    (hother 0 _).mpr hexpands, htwice (-2) 3⟩

end

end ImplicitDynamics.Bdf
