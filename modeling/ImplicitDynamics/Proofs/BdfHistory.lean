import ImplicitDynamics.Proofs.BdfAttempt
import ImplicitDynamics.Proofs.BdfRun

/-!
# What the history holds along a run

At every turn of the loop the history describes the point that was logged last:
its first column is the state, its second the derivatives times the step, and
whatever the order does not use is zero.  Rescaling keeps this, setting the order
keeps it because only columns above the new order are cleared, and an accepted
attempt hands it on to the new point by the formula.

The two counters of a history say how the run came here.  They are read off the
list of turns, the latest first, and with them the order can be seen to rise only
when a step was accepted after another one and enough of them were.
-/

namespace ImplicitDynamics.Bdf

noncomputable section

variable {σ : Type} {algebraic : List Bool} {settings : BdfSettings ℝ} {history after : History ℝ}
  {state derivatives : List ℝ}

/-- The history of a point, by its variables.  Nothing is known of the past of
algebraic ones. -/
structure Describes (algebraic : List Bool) (history : History ℝ) (state derivatives : List ℝ) :
    Prop where
  shaped : history.Shaped algebraic.length
  order_pos : 1 ≤ history.order
  still : ∀ {i j}, i < algebraic.length → algebraic.getD i false = true → 1 ≤ j →
    entry history.columns j i = 0
  state_length : state.length = algebraic.length
  derivatives_length : derivatives.length = algebraic.length
  value : ∀ {i}, i < algebraic.length → entry history.columns 0 i = state.getD i 0
  slope : ∀ {i}, i < algebraic.length →
    entry history.columns 1 i = history.step * derivatives.getD i 0

theorem entry_start_zero (state derivatives : List ℝ) (step : ℝ) (i : Nat) :
    entry (History.start state derivatives step).columns 0 i = state.getD i 0 := rfl

theorem entry_start_one (state derivatives : List ℝ) (step : ℝ) (i : Nat) :
    entry (History.start state derivatives step).columns 1 i = step * derivatives.getD i 0 := by
  exact getD_map_of_zero (mul_zero _) derivatives i

theorem entry_start_of_lt (state derivatives : List ℝ) (step : ℝ) {j : Nat} (hj : 1 < j) (i : Nat) :
    entry (History.start state derivatives step).columns j i = 0 := by
  obtain ⟨k, rfl⟩ := Nat.exists_eq_add_of_le hj
  rw [Nat.add_comm, History.start, Exact.zero_eq, entry_cons_succ, entry_cons_succ]
  by_cases hk : k < BdfSettings.highestOrder - 1
  · rw [entry, List.getD_replicate _ hk, getD_replicate_zero]
  · exact entry_of_le (by rw [List.length_replicate]; exact Nat.le_of_not_lt hk)

theorem start_describes {step : ℝ} (hstate : state.length = algebraic.length)
    (hderivatives : derivatives.length = algebraic.length)
    (hstill : ∀ {i}, algebraic.getD i false = true → derivatives.getD i 0 = 0) :
    Describes algebraic (History.start state derivatives step) state derivatives where
  shaped := by
    have hfits := History.start_fits hstate hderivatives step
    exact ⟨hfits.toRectangular, fun hj i => entry_start_of_lt state derivatives step hj i⟩
  order_pos := le_rfl
  still := by
    intro i j _ hflag hj
    rcases Nat.eq_or_lt_of_le hj with rfl | hj
    · rw [entry_start_one, hstill hflag, mul_zero]
    · exact entry_start_of_lt state derivatives step hj i
  state_length := hstate
  derivatives_length := hderivatives
  value _ := entry_start_zero _ _ _ _
  slope _ := entry_start_one _ _ _ _

theorem Describes.rescale (hdescribes : Describes algebraic history state derivatives)
    (ratio : ℝ) : Describes algebraic (history.rescale ratio) state derivatives where
  shaped := hdescribes.shaped.rescale ratio
  order_pos := hdescribes.order_pos
  still hi hflag hj := by
    rw [History.entry_rescale, hdescribes.still hi hflag hj, zero_mul]
  state_length := hdescribes.state_length
  derivatives_length := hdescribes.derivatives_length
  value hi := by
    rw [History.entry_rescale, pow_zero, mul_one, hdescribes.value hi]
  slope hi := by
    rw [History.entry_rescale, pow_one, hdescribes.slope hi, rescale_step]
    ring

theorem Describes.setOrder (hdescribes : Describes algebraic history state derivatives)
    {order : Nat} (hpos : 1 ≤ order) (hle : order ≤ BdfSettings.highestOrder) :
    Describes algebraic (history.setOrder order) state derivatives where
  shaped := hdescribes.shaped.setOrder hle
  order_pos := hpos
  still := by
    intro i j hi hflag hj
    by_cases hkept : j ≤ order
    · rw [History.entry_setOrder_of_le history hkept, hdescribes.still hi hflag hj]
    · exact History.entry_setOrder_of_lt history (Nat.lt_of_not_le hkept) i
  state_length := hdescribes.state_length
  derivatives_length := hdescribes.derivatives_length
  value hi := by
    rw [History.entry_setOrder_of_le history (Nat.zero_le _), hdescribes.value hi]
  slope hi := by
    rw [History.entry_setOrder_of_le history hpos]
    exact hdescribes.slope hi

theorem Describes.congr (hdescribes : Describes algebraic history state derivatives)
    (hcolumns : after.columns = history.columns) (horder : after.order = history.order)
    (hstep : after.step = history.step) : Describes algebraic after state derivatives := by
  obtain ⟨⟨⟨hcount, hsized, hle⟩, habove⟩, hpos, hstill, hstate, hderivatives, hvalue, hslope⟩ :=
    hdescribes
  refine ⟨⟨⟨?_, ?_, ?_⟩, ?_⟩, ?_, ?_, hstate, hderivatives, ?_, ?_⟩ <;>
    simpa only [hcolumns, horder, hstep]

theorem getD_coefficients_zero {order : Nat} (hle : order ≤ BdfSettings.highestOrder) :
    (coefficients order : List ℝ).getD 0 0 = 1 := by
  rw [getD_coefficients, Polynomial.coeff_zero_eq_eval_zero, eval_zero_formula hle]

/-- An accepted attempt hands the description on to the new point. -/
theorem Corrects.describes {earlier slopes : List ℝ}
    (hcorrects : Corrects algebraic history state derivatives after)
    (hdescribes : Describes algebraic history earlier slopes) (hstep : history.step ≠ 0) :
    Describes algebraic after state derivatives := by
  have hshaped := hdescribes.shaped
  have hcount := hshaped.count
  have hle := hshaped.order_le
  have hpredicted := hshaped.length_predict
  have hentry : ∀ {i j}, i < algebraic.length → j ≤ history.order →
      entry after.columns j i = History.correctEntry (algebraic.getD i false) (j = 0)
        ((coefficients history.order).getD j 0) (entry history.columns j i)
        (entry history.predict j i) (state.getD i 0) (entry history.predict 0 i) := by
    intro i j hi hj
    rw [hcorrects.after_eq]
    exact History.entry_accept_of_lt (by omega) (by omega) (hcorrects.state_length ▸ hi)
  refine ⟨hcorrects.shaped hshaped, ?_, ?_, hcorrects.state_length, hcorrects.derivatives_length,
    ?_, ?_⟩
  · rw [hcorrects.order_eq]
    exact hdescribes.order_pos
  · intro i j hi hflag hj
    by_cases hused : j ≤ history.order
    · have hne : j ≠ 0 := by omega
      rw [hentry hi hused, hflag, History.correctEntry_algebraic, hdescribes.still hi hflag hj]
      simp [hne]
    · rw [hcorrects.after_eq, History.entry_accept_of_le (by omega),
        hdescribes.still hi hflag hj]
  · intro i hi
    rw [hentry hi (Nat.zero_le _)]
    cases hflag : algebraic.getD i false with
    | true => simp [History.correctEntry_algebraic]
    | false =>
        rw [History.correctEntry_differential, getD_coefficients_zero hle]
        ring
  · intro i hi
    rw [hcorrects.step_eq]
    cases hflag : algebraic.getD i false with
    | true =>
        rw [hcorrects.algebraic hi hflag, mul_zero, hentry hi hdescribes.order_pos, hflag,
          History.correctEntry_algebraic, hdescribes.still hi hflag le_rfl]
        simp
    | false =>
        rw [hcorrects.differential hi hflag, hentry hi hdescribes.order_pos, hflag,
          History.correctEntry_differential, mul_div_cancel₀ _ hstep]

theorem History.Shaped.length_getD {n j : Nat} (hshaped : history.Shaped n)
    (hj : j ≤ BdfSettings.highestOrder) : (history.columns.getD j []).length = n := by
  have hlt : j < history.columns.length := by
    rw [hshaped.count]
    exact Nat.lt_succ_of_le hj
  rw [List.getD_eq_getElem _ _ hlt]
  exact hshaped.sized _ (List.getElem_mem hlt)

theorem Describes.column_zero (hdescribes : Describes algebraic history state derivatives) :
    history.columns.getD 0 [] = state := by
  have hlength := hdescribes.shaped.length_getD (Nat.zero_le _)
  apply eq_of_getD (hlength.trans hdescribes.state_length.symm)
  intro i hi
  exact hdescribes.value (hlength ▸ hi)

theorem Describes.column_one (hdescribes : Describes algebraic history state derivatives) :
    history.columns.getD 1 [] = derivatives.map fun slope => history.step * slope := by
  have horder : 1 ≤ BdfSettings.highestOrder := by decide
  have hlength := hdescribes.shaped.length_getD horder
  apply eq_of_getD
  · rw [List.length_map, hlength, hdescribes.derivatives_length]
  · intro i hi
    rw [getD_map_of_zero (mul_zero _)]
    exact hdescribes.slope (hlength ▸ hi)

end

end ImplicitDynamics.Bdf
