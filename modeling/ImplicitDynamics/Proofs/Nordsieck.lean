import ImplicitDynamics.Proofs.Exact
import ImplicitDynamics.Proofs.HistoryShape
import Mathlib.Algebra.Polynomial.Taylor
import Mathlib.Data.List.GetD

/-!
# Histories are polynomials

The entries of one variable in the columns of a history are the coefficients of
a polynomial.  Suffix sums divide it by `X - 1`: the first sum is the remainder
and the others are the quotient.  Repeated division gives the coefficients at
the point one, which is what the prediction is.

The formula by which a history is corrected is a polynomial too.  It is one at
zero and vanishes at minus one, minus two, and so forth down to its order, so a
correction moves the curve at the new time and leaves it alone at the times
before.
-/

open Polynomial

namespace ImplicitDynamics.Bdf

noncomputable section

/-- The polynomial with the given coefficients, the constant first. -/
def series : List ℝ → ℝ[X]
  | [] => 0
  | coefficient :: rest => C coefficient + X * series rest

def entry (columns : List (List ℝ)) (j i : Nat) : ℝ :=
  (columns.getD j []).getD i 0

def entries (columns : List (List ℝ)) (i : Nat) : List ℝ :=
  columns.map fun column => column.getD i 0

variable {columns rest : List (List ℝ)} {first : List ℝ} {n i j : Nat}

theorem coeff_series (values : List ℝ) (j : Nat) : (series values).coeff j = values.getD j 0 := by
  induction values generalizing j with
  | nil => simp [series]
  | cons value values ih =>
      rw [series, coeff_add]
      cases j with
      | zero => simp
      | succ j => simp [coeff_X_mul, coeff_C_succ, ih]

theorem series_eq_sum (values : List ℝ) :
    series values = ∑ j ∈ Finset.range values.length, C (values.getD j 0) * X ^ j := by
  ext k
  rw [coeff_series, finsetSum_coeff]
  simp only [coeff_C_mul, coeff_X_pow, mul_ite, mul_one, mul_zero]
  rw [Finset.sum_ite_eq]
  split
  · rfl
  · next hk =>
    rw [Finset.mem_range, not_lt] at hk
    exact List.getD_eq_default _ _ hk

theorem getD_entries (columns : List (List ℝ)) (i j : Nat) :
    (entries columns i).getD j 0 = entry columns j i := by
  simp only [entries, entry, List.getD_eq_getElem?_getD, List.getElem?_map]
  cases columns[j]? with
  | none => simp
  | some column => simp

theorem coeff_series_entries (columns : List (List ℝ)) (i j : Nat) :
    (series (entries columns i)).coeff j = entry columns j i := by
  rw [coeff_series, getD_entries]

theorem entry_of_getElem? {column : List ℝ} (hcolumn : columns[j]? = some column) :
    entry columns j i = column.getD i 0 := by
  have hgetD : columns.getD j [] = column := by
    rw [List.getD_eq_getElem?_getD, hcolumn, Option.getD_some]
  rw [entry, hgetD]

@[simp] theorem entry_cons_zero : entry (first :: rest) 0 i = first.getD i 0 := rfl

@[simp] theorem entry_cons_succ : entry (first :: rest) (j + 1) i = entry rest j i := rfl

theorem entry_of_lt (hlt : j < columns.length) : entry columns j i = columns[j].getD i 0 := by
  rw [entry, List.getD_eq_getElem _ _ hlt]

theorem entry_of_le (hle : columns.length ≤ j) : entry columns j i = 0 := by
  rw [entry, List.getD_eq_default _ _ hle, List.getD_nil]

/-- The powers of the time since the present, counted in steps. -/
theorem sum_powers_eq_comp (columns : List (List ℝ)) (time step : ℝ) (i : Nat) :
    ∑ j ∈ Finset.range columns.length, C (entry columns j i) * (C (1 / step) * (X - C time)) ^ j =
      (series (entries columns i)).comp (C (1 / step) * (X - C time)) := by
  have hlength : (entries columns i).length = columns.length := List.length_map _
  rw [series_eq_sum, hlength, Polynomial.sum_comp]
  simp only [getD_entries, mul_comp, C_comp, pow_comp, X_comp]

theorem natDegree_series_le {values : List ℝ} {order : Nat}
    (hzero : ∀ j, order < j → values.getD j 0 = 0) : (series values).natDegree ≤ order := by
  rw [Polynomial.natDegree_le_iff_coeff_eq_zero]
  intro j hj
  rw [coeff_series, hzero j hj]

theorem getD_replicate_zero (count k : Nat) : (List.replicate count (0 : ℝ)).getD k 0 = 0 := by
  by_cases hk : k < count
  · exact List.getD_replicate _ hk
  · exact List.getD_eq_default _ _ (by simpa using hk)

theorem getD_map_of_zero {f : ℝ → ℝ} (hzero : f 0 = 0) (values : List ℝ) (i : Nat) :
    (values.map f).getD i 0 = f (values.getD i 0) := by
  have hmap : (values.map f).getD i (f 0) = f (values.getD i 0) := List.getD_map values 0 f
  rw [hzero] at hmap
  exact hmap

theorem eq_of_getD {xs ys : List ℝ} (hlength : xs.length = ys.length)
    (hentries : ∀ i < xs.length, xs.getD i 0 = ys.getD i 0) : xs = ys := by
  apply List.ext_getElem hlength
  intro i hxs hys
  rw [← List.getD_eq_getElem xs 0 hxs, ← List.getD_eq_getElem ys 0 hys, hentries i hxs]

theorem getD_zipWith {f : ℝ → ℝ → ℝ} {xs ys : List ℝ} (hxs : i < xs.length)
    (hys : i < ys.length) : (xs.zipWith f ys).getD i 0 = f (xs.getD i 0) (ys.getD i 0) := by
  have hlength : i < (xs.zipWith f ys).length := by
    rw [List.length_zipWith]
    exact lt_min hxs hys
  rw [List.getD_eq_getElem _ _ hlength, List.getD_eq_getElem _ _ hxs, List.getD_eq_getElem _ _ hys,
    List.getElem_zipWith]

/-- Suffix sums are the remainder and the quotient of division by `X - 1`. -/
theorem series_suffixSums (hsized : Sized n columns) (hi : i < n)
    (hsums : suffixSums columns = first :: rest) :
    series (entries columns i) =
      C (first.getD i 0) + (X - 1) * series (entries rest i) := by
  induction columns generalizing first rest with
  | nil => cases hsums
  | cons column columns ih =>
      rw [suffixSums] at hsums
      split at hsums
      · next hnil =>
        have hempty : columns = [] := by
          rw [← List.length_eq_zero_iff, ← length_suffixSums, hnil, List.length_nil]
        cases hsums
        simp [hempty, entries, series]
      · next next others hcons =>
        cases hsums
        have hnext : next.length = n := by
          have hmem : next ∈ suffixSums columns := hcons ▸ List.mem_cons_self
          exact hsized.tail.suffixSums next hmem
        have hcolumn : column.length = n := hsized column List.mem_cons_self
        have hsum : (column.zipWith (fun x y => Scalar.add x y) next).getD i 0 =
            column.getD i 0 + next.getD i 0 :=
          getD_zipWith (hcolumn ▸ hi) (hnext ▸ hi)
        -- the first sum of the rest is the value of the rest at one
        have hquotient := ih hsized.tail hcons
        have hunfold : series (entries (column :: columns) i) =
            C (column.getD i 0) + X * series (entries columns i) := rfl
        have hothers : series (entries (next :: others) i) =
            C (next.getD i 0) + X * series (entries others i) := rfl
        change _ = C ((column.zipWith (fun x y => Scalar.add x y) next).getD i 0) + _
        rw [hunfold, hquotient, hothers, hsum, C_add]
        ring

/-- Extrapolated columns are the coefficients of the same polynomial around the
point one. -/
theorem series_extrapolate {count : Nat} (hsized : Sized n columns) (hi : i < n)
    (hcount : columns.length ≤ count + 1) :
    series (entries (extrapolate count columns) i) = taylor 1 (series (entries columns i)) := by
  induction count generalizing columns with
  | zero =>
      match columns, hcount with
      | [], _ => simp [extrapolate, entries, series]
      | [column], _ => simp [extrapolate, entries, series]
  | succ count ih =>
      have hlength := length_suffixSums columns
      have hsums := hsized.suffixSums
      rw [extrapolate]
      split
      · next hnil =>
        rw [hnil] at hlength
        rw [List.length_eq_zero_iff.mp hlength.symm]
        simp [entries, series]
      · next first rest hcons =>
        rw [hcons] at hlength hsums
        rw [List.length_cons] at hlength
        have hrest := ih hsums.tail (by omega)
        have hunfold : series (entries (first :: extrapolate count rest) i) =
            C (first.getD i 0) + X * series (entries (extrapolate count rest) i) := rfl
        rw [hunfold, hrest, series_suffixSums hsized hi hcons]
        simp [taylor_mul]

/-! ## The formula -/

theorem series_concat_zero (values : List ℝ) : series (values ++ [0]) = series values := by
  induction values with
  | nil => simp [series]
  | cons value values ih => rw [List.cons_append, series, ih, series]

theorem series_zipWith_mul_add (factor : ℝ) {xs ys : List ℝ} (hlength : xs.length = ys.length) :
    series (xs.zipWith (fun x y => x + y * factor) ys) = series xs + C factor * series ys := by
  induction xs generalizing ys with
  | nil =>
      rw [List.length_eq_zero_iff.mp hlength.symm]
      simp [series]
  | cons x xs ih =>
      match ys, hlength with
      | y :: ys, hlength =>
        have htail := ih (Nat.succ.inj hlength)
        rw [List.zipWith_cons_cons, series, htail, series, series, C_add, C_mul]
        ring

theorem series_timesFactor (factor : ℝ) (values : List ℝ) :
    series (timesFactor factor values) = (1 + C factor * X) * series values := by
  have hproduct : timesFactor factor values =
      (values ++ [0]).zipWith (fun x y => x + y * factor) (0 :: values) := by
    simp only [timesFactor, Exact.zero_eq, Exact.add_eq, Exact.mul_eq]
  rw [hproduct, series_zipWith_mul_add factor (by simp), series_concat_zero, series]
  simp only [map_zero, zero_add]
  ring

theorem formula_succ {order : Nat} (hlt : order < BdfSettings.highestOrder) :
    formula (order + 1) = timesFactor ((1 : ℝ) / (order + 1 : Nat)) (formula order) := by
  have hmin : min (order + 1) BdfSettings.highestOrder = order + 1 := Nat.min_eq_left hlt
  have hmin' : min order BdfSettings.highestOrder = order := Nat.min_eq_left hlt.le
  rw [formula, hmin, List.range_succ, List.foldl_append, List.foldl_cons, List.foldl_nil, formula,
    hmin', Exact.ofNat_eq, Exact.one_eq]

theorem series_formula {order : Nat} (hle : order ≤ BdfSettings.highestOrder) :
    series (formula order) =
      ∏ k ∈ Finset.range order, (1 + C ((1 : ℝ) / (k + 1 : Nat)) * X) := by
  induction order with
  | zero =>
      have hone : (formula 0 : List ℝ) = [1] := by
        change [@OfNat.ofNat ℝ 1 (Scalar.instOfNat 1)] = [1]
        rw [Exact.one_eq]
      rw [hone]
      simp [series]
  | succ order ih =>
      rw [formula_succ hle, series_timesFactor, ih (Nat.le_of_succ_le hle),
        Finset.prod_range_succ, mul_comm]

theorem eval_zero_formula {order : Nat} (hle : order ≤ BdfSettings.highestOrder) :
    (series (formula order)).eval 0 = 1 := by
  rw [series_formula hle, eval_prod]
  simp

theorem eval_neg_formula {order k : Nat} (hle : order ≤ BdfSettings.highestOrder) (hk : k < order) :
    (series (formula order)).eval (-(k + 1 : ℝ)) = 0 := by
  rw [series_formula hle, eval_prod]
  -- the factor `1 + X / (k + 1)` has this root
  apply Finset.prod_eq_zero (Finset.mem_range.mpr hk)
  have hne : ((k : ℝ) + 1) ≠ 0 := by positivity
  simp only [eval_add, eval_one, eval_mul, eval_C, eval_X, Nat.cast_add, Nat.cast_one]
  field_simp
  ring

theorem getD_coefficients {order : Nat} (j : Nat) :
    (coefficients order : List ℝ).getD j 0 = (series (formula order)).coeff j := by
  rw [coeff_series, coefficients]
  by_cases hj : j < (formula order : List ℝ).length
  · rw [List.getD_append _ _ _ _ hj]
  · rw [List.getD_append_right _ _ _ _ (Nat.le_of_not_lt hj),
      List.getD_eq_default (formula order) _ (Nat.le_of_not_lt hj), Exact.zero_eq,
      getD_replicate_zero]

/-! ## Histories -/

namespace History

variable {history : History ℝ} {order : Nat}

def polynomial (history : History ℝ) (i : Nat) : ℝ[X] :=
  series (entries history.columns i)

/-- The past of a variable as a function of time, for a history at `time`. -/
def curve (history : History ℝ) (time : ℝ) (i : Nat) : ℝ[X] :=
  ∑ j ∈ Finset.range history.columns.length,
    C (entry history.columns j i) * (C (1 / history.step) * (X - C time)) ^ j

/-- A history of `n` variables whose columns above its order are zero. -/
structure Shaped (n : Nat) (history : History ℝ) : Prop extends Rectangular n history where
  above : ∀ {j}, history.order < j → ∀ i, entry history.columns j i = 0

theorem coeff_polynomial (history : History ℝ) (i j : Nat) :
    (history.polynomial i).coeff j = entry history.columns j i :=
  coeff_series_entries _ _ _

theorem curve_eq_comp (history : History ℝ) (time : ℝ) (i : Nat) :
    history.curve time i = (history.polynomial i).comp (C (1 / history.step) * (X - C time)) :=
  sum_powers_eq_comp history.columns time history.step i

theorem eval_curve (history : History ℝ) (time : ℝ) (i : Nat) (s : ℝ) :
    (history.curve time i).eval s = (history.polynomial i).eval ((s - time) / history.step) := by
  rw [curve_eq_comp, eval_comp]
  congr 1
  simp only [eval_mul, eval_C, eval_sub, eval_X]
  ring

theorem Shaped.natDegree_polynomial_le (hshaped : history.Shaped n) (i : Nat) :
    (history.polynomial i).natDegree ≤ history.order := by
  apply natDegree_series_le
  intro j hj
  rw [getD_entries, hshaped.above hj]

/-- The prediction has the coefficients of the past one step later. -/
theorem Shaped.series_predict (hshaped : history.Shaped n) (hi : i < n) :
    series (entries history.predict i) = taylor 1 (history.polynomial i) := by
  have hsized : Sized n (history.columns.take (history.order + 1)) := fun column hcolumn =>
    hshaped.sized column (List.mem_of_mem_take hcolumn)
  rw [predict, series_extrapolate hsized hi (List.length_take_le _ _)]
  congr 1
  ext j
  rw [coeff_series_entries, coeff_polynomial]
  by_cases hj : j < history.order + 1
  · simp only [entry, List.getD_eq_getElem?_getD, List.getElem?_take, hj, if_true]
  · rw [hshaped.above (by omega), entry_of_le]
    exact (List.length_take_le _ _).trans (Nat.le_of_not_lt hj)

theorem entry_scaleColumns (ratio factor : ℝ) (columns : List (List ℝ)) (j i : Nat) :
    entry (scaleColumns ratio factor columns) j i =
      entry columns j i * (factor * ratio ^ (j + 1)) := by
  induction columns generalizing factor j with
  | nil => simp [scaleColumns, entry]
  | cons column columns ih =>
      cases j with
      | zero =>
          rw [pow_one]
          exact getD_map_of_zero (zero_mul (factor * ratio)) column i
      | succ j =>
          have hrest := ih (factor * ratio) j
          have hfactor : factor * ratio * ratio ^ (j + 1) = factor * ratio ^ (j + 1 + 1) := by ring
          rw [hfactor] at hrest
          exact hrest

theorem entry_rescale (history : History ℝ) (ratio : ℝ) (j i : Nat) :
    entry (history.rescale ratio).columns j i = entry history.columns j i * ratio ^ j := by
  unfold rescale
  cases history.columns with
  | nil => simp [entry]
  | cons column columns =>
      cases j with
      | zero => simp [entry]
      | succ j =>
          have hrest := entry_scaleColumns ratio 1 columns j i
          rw [one_mul, ← Exact.one_eq] at hrest
          exact hrest

theorem Shaped.rescale (hshaped : history.Shaped n) (ratio : ℝ) :
    (history.rescale ratio).Shaped n where
  toRectangular := hshaped.toRectangular.rescale ratio
  above hj i := by rw [entry_rescale, hshaped.above hj, zero_mul]

/-- A history for another step describes the same past. -/
theorem curve_rescale (hshaped : history.Shaped n) {ratio : ℝ} (hratio : ratio ≠ 0) (time : ℝ)
    (i : Nat) : (history.rescale ratio).curve time i = history.curve time i := by
  have hcount : (history.rescale ratio).columns.length = history.columns.length := by
    rw [(hshaped.rescale ratio).count, hshaped.count]
  have hstep : (history.rescale ratio).step = history.step * ratio := rfl
  rw [curve, curve, hcount]
  apply Finset.sum_congr rfl
  intro j _
  have hunit : ratio ^ j * (1 / (history.step * ratio)) ^ j = (1 / history.step) ^ j := by
    rw [← mul_pow]
    congr 1
    rw [one_div, one_div, mul_inv, mul_left_comm, mul_inv_cancel₀ hratio, mul_one]
  rw [entry_rescale, hstep, mul_pow, mul_pow, ← C_pow, ← C_pow, ← hunit, C_mul, C_mul]
  ring

theorem getElem?_setOrder_of_le (history : History ℝ) (hj : j ≤ order) :
    (history.setOrder order).columns[j]? = history.columns[j]? := by
  have htake : (history.columns.take (order + 1))[j]? = history.columns[j]? :=
    List.getElem?_take_of_lt (Nat.lt_succ_of_le hj)
  by_cases hcount : j < history.columns.length
  · rw [setOrder, List.getElem?_append_left, htake]
    rw [List.length_take]
    omega
  · have hdrop : history.columns.drop (order + 1) = [] := by
      rw [List.drop_eq_nil_iff]
      omega
    rw [setOrder, hdrop, List.map_nil, List.append_nil, htake]

theorem entry_setOrder_of_le (history : History ℝ) (hj : j ≤ order) (i : Nat) :
    entry (history.setOrder order).columns j i = entry history.columns j i := by
  simp only [entry, List.getD_eq_getElem?_getD, getElem?_setOrder_of_le history hj]

theorem entry_setOrder_of_lt (history : History ℝ) (hj : order < j) (i : Nat) :
    entry (history.setOrder order).columns j i = 0 := by
  have hlength : (history.columns.take (order + 1)).length ≤ j :=
    (List.length_take_le _ _).trans hj
  have hcolumn : (history.setOrder order).columns[j]? =
      ((history.columns.drop (order + 1))[j - (history.columns.take (order + 1)).length]?).map
        fun column => column.map fun _ => 0 := by
    rw [setOrder, List.getElem?_append_right hlength, List.getElem?_map, Exact.zero_eq]
  have hentry : (history.setOrder order).columns.getD j [] =
      (history.setOrder order).columns[j]?.getD [] := List.getD_eq_getElem?_getD
  rw [entry, hentry, hcolumn]
  cases (history.columns.drop (order + 1))[j - (history.columns.take (order + 1)).length]? with
  | none => exact List.getD_nil
  | some column =>
      rw [Option.map_some, Option.getD_some, List.map_const', getD_replicate_zero]

theorem Shaped.setOrder (hshaped : history.Shaped n) (horder : order ≤ BdfSettings.highestOrder) :
    (history.setOrder order).Shaped n where
  toRectangular := hshaped.toRectangular.setOrder horder
  above hj i := entry_setOrder_of_lt history hj i

variable {algebraic : List Bool} {factors state : List ℝ} {predicted : List (List ℝ)}

theorem getD_map_range {f : Nat → ℝ} (hi : i < n) : ((List.range n).map f).getD i 0 = f i := by
  rw [List.getD_eq_getElem _ _ (by simpa using hi)]
  simp

theorem entry_accept_of_lt (hcount : j < history.columns.length) (hj : j < predicted.length)
    (hi : i < state.length) :
    entry (history.accept algebraic factors predicted state).columns j i =
      correctEntry (algebraic.getD i false) (j = 0) (factors.getD j 0)
        (entry history.columns j i) (entry predicted j i) (state.getD i 0)
        (entry predicted 0 i) := by
  have hhead : (predicted.headD []).getD i 0 = entry predicted 0 i := by cases predicted <;> rfl
  have hcolumn : (history.accept algebraic factors predicted state).columns[j]? =
      some ((List.range state.length).map fun i =>
        correctEntry (algebraic.getD i false) (j = 0) (factors.getD j 0)
          (history.columns[j].getD i 0) (predicted[j].getD i 0) (state.getD i 0)
          ((predicted.headD []).getD i 0)) := by
    simp [accept, hcount, hj, Exact.zero_eq]
  rw [entry_of_getElem? hcolumn, getD_map_range hi, hhead, entry_of_lt hcount, entry_of_lt hj]

theorem entry_accept_of_le (hj : predicted.length ≤ j) :
    entry (history.accept algebraic factors predicted state).columns j i =
      entry history.columns j i := by
  by_cases hcount : j < history.columns.length
  · have hcolumn : (history.accept algebraic factors predicted state).columns[j]? =
        some history.columns[j] := by
      simp [accept, hcount, hj]
    rw [entry_of_getElem? hcolumn, entry_of_lt hcount]
  · rw [entry_of_le (by rw [length_accept]; exact Nat.le_of_not_lt hcount),
      entry_of_le (Nat.le_of_not_lt hcount)]

theorem correctEntry_differential (first : Bool) (coefficient old guess y y0 : ℝ) :
    correctEntry false first coefficient old guess y y0 = guess + coefficient * (y - y0) := by
  simp [correctEntry]

theorem correctEntry_algebraic (first : Bool) (coefficient old guess y y0 : ℝ) :
    correctEntry true first coefficient old guess y y0 = if first then y else old := by
  simp [correctEntry]

/-- A differential variable follows the prediction, corrected by the formula. -/
theorem Shaped.polynomial_accept (hshaped : history.Shaped n) (hi : i < n)
    (hstate : state.length = n) (hdifferential : algebraic.getD i false = false) :
    (history.accept algebraic (coefficients history.order) history.predict state).polynomial i =
      taylor 1 (history.polynomial i) +
        C (state.getD i 0 - entry history.predict 0 i) * series (formula history.order) := by
  have hle := hshaped.order_le
  rw [← hshaped.series_predict hi]
  ext j
  rw [coeff_polynomial, coeff_add, coeff_C_mul, coeff_series_entries, ← getD_coefficients]
  by_cases hj : j ≤ history.order
  · have hcount : j < history.columns.length := by
      rw [hshaped.count]
      omega
    have hpredicted : j < history.predict.length := by
      rw [hshaped.length_predict]
      omega
    rw [entry_accept_of_lt hcount hpredicted (hstate ▸ hi), hdifferential,
      correctEntry_differential]
    ring
  · have habove : history.predict.length ≤ j := by
      rw [hshaped.length_predict]
      omega
    have hformula : (formula history.order : List ℝ).length ≤ j := by
      rw [length_formula hle]
      omega
    rw [entry_accept_of_le habove, hshaped.above (Nat.lt_of_not_le hj), entry_of_le habove,
      getD_coefficients, coeff_series, List.getD_eq_default _ _ hformula]
    ring

end History

end

end ImplicitDynamics.Bdf
