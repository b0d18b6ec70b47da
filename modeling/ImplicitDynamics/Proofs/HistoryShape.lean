import ImplicitDynamics.Integration.Bdf.StepControl

/-!
# The shape of a history

A history of `n` variables has six columns of `n` entries, whatever its order.
The control of step and order keeps this shape in any arithmetic, and the order
stays among those for which there is a formula.
-/

namespace ImplicitDynamics.Bdf

variable {α : Type} {n : Nat} {columns : List (List α)}

/-- All columns have `n` entries. -/
def Sized (n : Nat) (columns : List (List α)) : Prop :=
  ∀ column ∈ columns, column.length = n

theorem Sized.tail {first : List α} {rest : List (List α)} (hsized : Sized n (first :: rest)) :
    Sized n rest :=
  fun column hcolumn => hsized column (List.mem_cons_of_mem _ hcolumn)

/-- The columns of a history of `n` variables. -/
structure History.Rectangular (n : Nat) (history : History α) : Prop where
  count : history.columns.length = BdfSettings.highestOrder + 1
  sized : Sized n history.columns
  order_le : history.order ≤ BdfSettings.highestOrder

/-- A history of `n` variables. -/
structure History.Fits (n : Nat) (history : History α) : Prop
    extends History.Rectangular n history where
  nominal_length : history.nominal.length = n
  order_pos : 1 ≤ history.order

/-- The counters may be anything. -/
theorem History.Fits.counted {history : History α} (hfits : history.Fits n)
    (stepsAtOrder consecutiveFailures : Nat) :
    ({ history with stepsAtOrder, consecutiveFailures }).Fits n :=
  { hfits with }

variable [Scalar α]

theorem length_suffixSums (columns : List (List α)) :
    (suffixSums columns).length = columns.length := by
  induction columns with
  | nil => rfl
  | cons column rest ih =>
      rw [suffixSums]
      split
      · next hnil =>
        rw [hnil] at ih
        simp [← ih]
      · next next others hcons =>
        rw [hcons] at ih
        simp [← ih]

theorem Sized.suffixSums (hsized : Sized n columns) : Sized n (suffixSums columns) := by
  induction columns with
  | nil => exact hsized
  | cons column rest ih =>
      have hcolumn := hsized column List.mem_cons_self
      have hrest := ih hsized.tail
      rw [Bdf.suffixSums]
      split
      · intro c hc
        rw [List.mem_singleton.mp hc, hcolumn]
      · next next others hcons =>
        rw [hcons] at hrest
        intro c hc
        rcases List.mem_cons.mp hc with rfl | hc
        · rw [List.length_zipWith, hcolumn, hrest next List.mem_cons_self, Nat.min_self]
        · exact hrest c hc

theorem length_extrapolate (count : Nat) (columns : List (List α)) :
    (extrapolate count columns).length = columns.length := by
  induction count generalizing columns with
  | zero => rfl
  | succ count ih =>
      have hlength := length_suffixSums columns
      rw [extrapolate]
      split
      · next hnil => rw [← hlength, hnil]
      · next first rest hcons =>
        rw [hcons] at hlength
        rw [List.length_cons, ih, ← hlength, List.length_cons]

theorem Sized.extrapolate (hsized : Sized n columns) (count : Nat) :
    Sized n (extrapolate count columns) := by
  induction count generalizing columns with
  | zero => exact hsized
  | succ count ih =>
      have hsums := hsized.suffixSums
      rw [Bdf.extrapolate]
      split
      · exact fun _ hcolumn => absurd hcolumn List.not_mem_nil
      · next first rest hcons =>
        rw [hcons] at hsums
        intro column hcolumn
        rcases List.mem_cons.mp hcolumn with rfl | hcolumn
        · exact hsums column List.mem_cons_self
        · exact ih hsums.tail column hcolumn

theorem length_scaleColumns (ratio factor : α) (columns : List (List α)) :
    (History.scaleColumns ratio factor columns).length = columns.length := by
  induction columns generalizing factor with
  | nil => rfl
  | cons column columns ih => rw [History.scaleColumns, List.length_cons, ih, List.length_cons]

theorem Sized.scaleColumns {ratio factor : α} (hsized : Sized n columns) :
    Sized n (History.scaleColumns ratio factor columns) := by
  induction columns generalizing factor with
  | nil => exact hsized
  | cons column columns ih =>
      intro scaled hscaled
      rcases List.mem_cons.mp hscaled with rfl | hscaled
      · rw [List.length_map, hsized column List.mem_cons_self]
      · exact ih hsized.tail scaled hscaled

theorem length_timesFactor (factor : α) (values : List α) :
    (timesFactor factor values).length = values.length + 1 := by
  rw [timesFactor, List.length_zipWith, List.length_append, List.length_cons, List.length_cons,
    List.length_nil, Nat.min_self]

theorem length_foldl_timesFactor (indices : List Nat) (factor : Nat → α) (values : List α) :
    (indices.foldl (fun values k => timesFactor (factor k) values) values).length =
      values.length + indices.length := by
  induction indices generalizing values with
  | nil => rfl
  | cons k rest ih => rw [List.foldl_cons, ih, length_timesFactor, List.length_cons, Nat.add_assoc,
      Nat.add_comm 1]

theorem length_formula {order : Nat} (hle : order ≤ BdfSettings.highestOrder) :
    (formula order : List α).length = order + 1 := by
  rw [formula, length_foldl_timesFactor, List.length_range, Nat.min_eq_left hle, Nat.add_comm]
  rfl

theorem length_coefficients {order : Nat} (hle : order ≤ BdfSettings.highestOrder) :
    (coefficients order : List α).length = BdfSettings.highestOrder + 1 := by
  have hformula : (formula order : List α).length = order + 1 := length_formula hle
  rw [coefficients, List.length_append, List.length_replicate, hformula]
  omega

/-! ## Histories -/

namespace History

variable {history : History α}

theorem length_accept (history : History α) (algebraic : List Bool) (factors state : List α)
    (predicted : List (List α)) :
    (history.accept algebraic factors predicted state).columns.length =
      history.columns.length := by
  simp [accept]

theorem sized_accept {algebraic : List Bool} {factors state : List α} {predicted : List (List α)}
    (hsized : Sized n history.columns) (hstate : state.length = n) :
    Sized n (history.accept algebraic factors predicted state).columns := by
  intro column hcolumn
  simp only [accept, List.mem_map] at hcolumn
  obtain ⟨⟨old, j⟩, hold, rfl⟩ := hcolumn
  split
  · exact hsized old (List.fst_mem_of_mem_zipIdx hold)
  · simp [hstate]

theorem start_fits {state derivatives : List α} (hstate : state.length = n)
    (hderivatives : derivatives.length = n) (step : α) :
    (start state derivatives step).Fits n where
  count := rfl
  sized := by
    intro column hcolumn
    simp only [start, List.mem_cons, List.mem_replicate] at hcolumn
    rcases hcolumn with rfl | rfl | ⟨-, rfl⟩
    · exact hstate
    · rw [List.length_map, hderivatives]
    · rw [List.length_replicate, hstate]
  nominal_length := (List.length_map _).trans hstate
  order_pos := Nat.le_refl 1
  order_le := Nat.le_of_ble_eq_true rfl

theorem Rectangular.rescale (hhistory : history.Rectangular n) (ratio : α) :
    (history.rescale ratio).Rectangular n := by
  have hcount := hhistory.count
  have hsized := hhistory.sized
  refine ⟨?_, ?_, hhistory.order_le⟩
  · unfold History.rescale
    cases hcolumns : history.columns with
    | nil =>
        rw [hcolumns] at hcount
        exact hcount
    | cons column rest =>
        rw [hcolumns] at hcount
        rwa [List.length_cons, length_scaleColumns]
  · unfold History.rescale
    cases hcolumns : history.columns with
    | nil => exact fun _ hcolumn => absurd hcolumn List.not_mem_nil
    | cons column rest =>
        rw [hcolumns] at hsized
        intro scaled hscaled
        rcases List.mem_cons.mp hscaled with rfl | hscaled
        · exact hsized scaled List.mem_cons_self
        · exact hsized.tail.scaleColumns scaled hscaled

theorem Rectangular.setOrder (hhistory : history.Rectangular n) {order : Nat}
    (hle : order ≤ BdfSettings.highestOrder) : (history.setOrder order).Rectangular n where
  count := by
    have hcount := hhistory.count
    rw [History.setOrder, List.length_append, List.length_map, List.length_take, List.length_drop]
    omega
  sized := by
    intro column hcolumn
    rcases List.mem_append.mp hcolumn with hkept | hcleared
    · exact hhistory.sized column (List.mem_of_mem_take hkept)
    · obtain ⟨old, hold, rfl⟩ := List.mem_map.mp hcleared
      rw [List.length_map, hhistory.sized old (List.mem_of_mem_drop hold)]
  order_le := hle

theorem Rectangular.accept (hhistory : history.Rectangular n) {state : List α}
    (hstate : state.length = n) (algebraic : List Bool) (factors : List α)
    (predicted : List (List α)) :
    (history.accept algebraic factors predicted state).Rectangular n where
  count := (length_accept _ _ _ _ _).trans hhistory.count
  sized := sized_accept hhistory.sized hstate
  order_le := hhistory.order_le

theorem Rectangular.length_predict (hhistory : history.Rectangular n) :
    history.predict.length = history.order + 1 := by
  have hle := hhistory.order_le
  rw [predict, length_extrapolate, List.length_take, hhistory.count]
  omega

theorem Rectangular.sized_predict (hhistory : history.Rectangular n) : Sized n history.predict :=
  Sized.extrapolate (fun column hcolumn => hhistory.sized column (List.mem_of_mem_take hcolumn)) _

theorem Rectangular.exists_predict_eq (hhistory : history.Rectangular n)
    (horder : 1 ≤ history.order) :
    ∃ states slopes rest, history.predict = states :: slopes :: rest ∧ states.length = n ∧
      slopes.length = n := by
  have hlength := hhistory.length_predict
  have hsized := hhistory.sized_predict
  match hpredict : history.predict with
  | [] | [_] =>
      rw [hpredict] at hlength
      simp only [List.length_nil, List.length_cons] at hlength
      omega
  | states :: slopes :: rest =>
      rw [hpredict] at hsized
      exact ⟨states, slopes, rest, rfl, hsized states (by simp), hsized slopes (by simp)⟩

theorem Fits.rescale (hfits : history.Fits n) (ratio : α) : (history.rescale ratio).Fits n :=
  ⟨hfits.toRectangular.rescale ratio, hfits.nominal_length, hfits.order_pos⟩

theorem Fits.setOrder (hfits : history.Fits n) {order : Nat} (hpos : 1 ≤ order)
    (hle : order ≤ BdfSettings.highestOrder) : (history.setOrder order).Fits n :=
  ⟨hfits.toRectangular.setOrder hle, hfits.nominal_length, hpos⟩

theorem Fits.accept (hfits : history.Fits n) {state : List α} (hstate : state.length = n)
    (algebraic : List Bool) (factors : List α) (predicted : List (List α)) :
    (history.accept algebraic factors predicted state).Fits n :=
  ⟨hfits.toRectangular.accept hstate _ _ _, hfits.nominal_length, hfits.order_pos⟩

theorem Fits.length_weights (hfits : history.Fits n) (settings : BdfSettings α) :
    (history.weights settings).length = n := by
  have hcount := hfits.count
  have hsized := hfits.sized
  rw [weights, List.length_zipWith, hfits.nominal_length]
  cases hcolumns : history.columns with
  | nil =>
      rw [hcolumns] at hcount
      cases hcount
  | cons column rest =>
      rw [hcolumns] at hsized
      rw [List.headD_cons, hsized column List.mem_cons_self, Nat.min_self]

end History

variable {settings : BdfSettings α} {history : History α}

theorem nextOrder_fits (hmax : settings.maxOrder ≤ BdfSettings.highestOrder)
    (hfits : history.Fits n) (error : α) (recentFailure : Bool) :
    (nextOrder settings error recentFailure history).Fits n := by
  unfold nextOrder
  simp only
  split
  · next hraise =>
    have hlt : history.order < settings.maxOrder := by simp_all
    exact hfits.setOrder (Nat.succ_pos _) (Nat.le_trans hlt hmax)
  · split
    · next hlower =>
      have hlt : 1 < history.order := by simp_all
      have hle := hfits.order_le
      exact hfits.setOrder (by omega) (by omega)
    · exact hfits

theorem afterAccepted_fits (hmax : settings.maxOrder ≤ BdfSettings.highestOrder)
    (hfits : history.Fits n) (h error : α) : (afterAccepted settings h error history).Fits n :=
  (nextOrder_fits hmax (hfits.counted _ _) _ _).rescale _

theorem afterFailure_fits {time h : α} {next : History α} (hfits : history.Fits n)
    (hnext : afterFailure settings time h history = .ok next) : next.Fits n := by
  have horder : 1 ≤ BdfSettings.highestOrder := by decide
  unfold afterFailure at hnext
  simp only at hnext
  split at hnext
  · cases hnext
  · split at hnext
    · cases hnext
    · cases hnext
      apply History.Fits.rescale
      split
      · exact (hfits.counted _ _).setOrder (Nat.le_refl 1) horder
      · exact hfits.counted _ _

theorem plan_fits {σ : Type} {course : Course α σ} (hfits : course.history.Fits n)
    (settings : BdfSettings α) (stop : α) : (plan settings stop course).2.2.Fits n := by
  unfold plan
  simp only
  split
  · exact hfits
  · exact hfits.rescale _

end ImplicitDynamics.Bdf
