import ImplicitDynamics.Proofs.AllowedDivisors
import ImplicitDynamics.Proofs.BdfStart
import ImplicitDynamics.Proofs.HistoryShape
import ImplicitDynamics.Proofs.Sweeps

/-!
# Accesses in range

Where all vectors have an entry for each variable, no access of a checked
computation is out of range.  If the divisors are allowed too, the computation has
the result of the unchecked one.
-/

namespace ImplicitDynamics

variable {α : Type} [Scalar α] {allowed : α → Bool}

omit [Scalar α] in
theorem getElem?_of_length {values : List α} {i n : Nat} (hlength : values.length = n)
    (hi : i < n) (default : α) : values[i]? = some (values.getD i default) := by
  rw [← hlength] at hi
  rw [List.getElem?_eq_getElem hi, List.getD_eq_getElem _ _ hi]

/-- A point with an entry for each of `n` variables. -/
structure Point.Fits {α : Type} (n : Nat) (point : Point α) : Prop where
  state_length : point.state.length = n
  derivatives_length : point.derivatives.length = n

variable {n : Nat} {point : Point α} {system : ResidualSystem α} {indices : List Nat}

theorem Point.Fits.update (hpoint : point.Fits n) (unknowns : Unknowns) (indices : List Nat)
    (updates : List α) : (unknowns.update indices updates point).Fits n := by
  cases unknowns with
  | state => exact ⟨(Unknowns.length_addTo _ _ _).trans hpoint.state_length,
      hpoint.derivatives_length⟩
  | derivatives => exact ⟨hpoint.state_length,
      (Unknowns.length_addTo _ _ _).trans hpoint.derivatives_length⟩

theorem Point.Fits.solve (hpoint : point.Fits n) (system : ResidualSystem α)
    (settings : NewtonSettings α) (unknowns : Unknowns) (indices : List Nat) (control : Control) :
    (Newton.solve system settings unknowns indices point control).point.Fits n where
  state_length :=
    (Newton.solve_spares _ _ _ _ _ _).lengths.1.trans hpoint.state_length
  derivatives_length :=
    (Newton.solve_spares _ _ _ _ _ _).lengths.2.trans hpoint.derivatives_length

/-- The columns of a sweep are as high as the residual that they are differences
of. -/
theorem Probe.length_of_columns {probe : Probe α} (hsystem : probe.system.FillsBuffer)
    {base : List α} {perturbation : Perturbation α} {increments : List α}
    {columns : List (List α)} {control after : Control}
    (hcolumns : probe.columns Supervisor.controlled base indices perturbation increments control =
      (.ok columns, after)) :
    columns.length = indices.length ∧ ∀ column ∈ columns, column.length = base.length := by
  by_cases hbase : base = []
  · subst hbase
    cases hcolumns
    refine ⟨List.length_map _, fun column hcolumn => ?_⟩
    rcases List.mem_map.mp hcolumn with ⟨j, -, rfl⟩
    rfl
  · have hsees := probe.columns_sees hsystem hbase (congrArg Prod.fst hcolumns)
    refine ⟨hsees.length_eq.symm, fun column hcolumn => ?_⟩
    rcases List.mem_iff_getElem.mp hcolumn with ⟨k, hk, rfl⟩
    rcases List.forall₂_iff_get.mp hsees with ⟨hlength, hget⟩
    rcases hget k (hlength ▸ hk) hk with ⟨out, hout, -, heq⟩
    rw [List.get_eq_getElem] at heq
    rw [heq, Probe.quotients, List.length_zipWith, Probe.length_written hsystem, hout, Nat.min_self]

theorem Linear.length_of_columns {residual rightSide updates : List α}
    {columns : List (List α)} (hheight : residual.length = n)
    (hupdates : Linear.solve (Linear.rowsOfColumns residual.length columns) rightSide =
      some updates) : updates.length = n := by
  rw [Linear.length_solve hupdates, Linear.rowsOfColumns, List.length_map, List.length_range,
    hheight]

namespace Checked

theorem select_eq {values : List α} (hindices : ∀ i ∈ indices, i < values.length) :
    select indices values = some (Newton.select indices values) := by
  apply mapM_of_forall
  intro i hi
  exact getElem?_of_length rfl (hindices i hi) 0

omit [Scalar α] in
theorem copy_eq {source target : List α} (hlength : target.length = source.length) :
    copy source target = some source :=
  if_pos hlength

omit [Scalar α] in
theorem overwrite_eq {entries values : List α} (hlength : entries.length = values.length) :
    overwrite entries values = entries := by
  rw [overwrite, ← hlength, List.take_length, List.drop_of_length_le hlength.ge,
    List.append_nil]

theorem addTo_eq {updates values : List α} (hindices : ∀ i ∈ indices, i < values.length) :
    addTo indices updates values = some (Unknowns.addTo indices updates values) := by
  induction indices generalizing updates values with
  | nil => rfl
  | cons i rest ih =>
      cases updates with
      | nil => rfl
      | cons d updates =>
          have hi := hindices i List.mem_cons_self
          have hrest : ∀ j ∈ rest, j < (values.modify i (· + d)).length := by
            intro j hj
            rw [List.length_modify]
            exact hindices j (List.mem_cons_of_mem _ hj)
          rw [addTo, List.zip_cons_cons, List.foldlM_cons]
          simp only [if_pos hi]
          exact ih hrest

theorem update_eq (hpoint : point.Fits n) (hindices : ∀ i ∈ indices, i < n) (unknowns : Unknowns)
    (updates : List α) :
    update unknowns indices updates point = some (unknowns.update indices updates point) := by
  cases unknowns with
  | state =>
      rw [update, addTo_eq (hpoint.state_length ▸ hindices)]
      rfl
  | derivatives =>
      rw [update, addTo_eq (hpoint.derivatives_length ▸ hindices)]
      rfl

theorem solve_eq {matrix : List (List α)} {rightSide : List α}
    (hside : rightSide.length = matrix.length)
    (hrows : ∀ row ∈ matrix, row.length = matrix.length) :
    solve matrix rightSide = some (Linear.solve matrix rightSide) :=
  if_pos ⟨hside, hrows⟩

theorem columns_eq {probe : Probe α} {increments : List α}
    (hincrements : ∀ increment ∈ increments, allowed increment)
    (hindices : ∀ j ∈ indices, j < increments.length ∧ j < probe.state.length ∧
      j < probe.derivatives.length) (base : List α) (perturbation : Perturbation α)
    (control : Control) :
    columns allowed probe base indices perturbation increments control =
      some (probe.columns Supervisor.controlled base indices perturbation increments control) := by
  apply if_pos
  rw [List.all_eq_true]
  intro j hj
  rcases hindices j hj with ⟨hincrement, hstate, hderivatives⟩
  have hallowed := hincrements _ (List.getElem_mem hincrement)
  simp [hincrement, hallowed, hstate, hderivatives]

theorem correction_eq {columns : List (List α)} {rows : List α}
    (hindices : ∀ i ∈ indices, i < n) (hcount : columns.length = indices.length)
    (hcolumns : ∀ column ∈ columns, column.length = n) (hrows : rows.length = indices.length) :
    correction indices columns rows = some (Newton.correction indices columns rows) := by
  have hmatrix : (indices.mapM fun i => columns.mapM fun column => column[i]?) =
      some (indices.map fun i => columns.map fun column => column.getD i 0) := by
    apply mapM_of_forall
    intro i hi
    apply mapM_of_forall
    intro column hcolumn
    exact getElem?_of_length (hcolumns column hcolumn) (hindices i hi) 0
  rw [correction, hmatrix]
  apply solve_eq
  · rw [List.length_map, List.length_map, hrows]
  · intro row hrow
    rcases List.mem_map.mp hrow with ⟨i, -, rfl⟩
    rw [List.length_map, List.length_map, hcount]

/-- The matrix of all columns is square. -/
theorem solve_rowsOfColumns {columns : List (List α)} {residual : List α}
    (hcount : columns.length = residual.length) :
    solve (Linear.rowsOfColumns residual.length columns) (residual.map (-·)) =
      some (Linear.solve (Linear.rowsOfColumns residual.length columns) (residual.map (-·))) := by
  apply solve_eq
  · simp [Linear.rowsOfColumns]
  · intro row hrow
    simp only [Linear.rowsOfColumns, List.mem_map] at hrow
    rcases hrow with ⟨i, -, rfl⟩
    simp [Linear.rowsOfColumns, hcount]

/-! ## Newton iterations -/

variable (hdivisors : Divisors allowed)

include hdivisors

/-- The increments of a point are for its coordinates. -/
theorem columns_of_fits (hpoint : point.Fits n) (hindices : ∀ i ∈ indices, i < n)
    (system : ResidualSystem α) (unknowns : Unknowns) (base : List α) (control : Control) :
    let probe : Probe α := ⟨system, point.time, point.state, point.derivatives⟩
    let increments := (unknowns.values point).map fun v => FiniteDifference.increment v 1
    columns allowed probe base indices unknowns.perturbation increments control =
      some (probe.columns Supervisor.controlled base indices unknowns.perturbation increments
        control) := by
  intro probe increments
  apply columns_eq (hdivisors.increments _)
  intro j hj
  have hlt := hindices j hj
  rw [List.length_map]
  cases unknowns <;>
    simpa only [Unknowns.values, probe, hpoint.state_length, hpoint.derivatives_length, and_self]

theorem iterate_eq (hsystem : system.FillsBuffer)
    (hindices : ∀ i ∈ indices, i < system.dimension) (tolerance : α) (unknowns : Unknowns)
    (left iterations : Nat) (hpoint : point.Fits system.dimension) (control : Control) :
    iterate allowed system tolerance unknowns indices left iterations point control =
      some (Newton.iterate system tolerance unknowns indices left iterations point control) := by
  induction left generalizing iterations point control with
  | zero =>
      rw [iterate, Newton.iterate]
      cases hresidual : system.evaluate point.time point.state point.derivatives with
      | error cause => rfl
      | ok residual =>
          have hrows := select_eq (hsystem.length_evaluate hresidual ▸ hindices)
          simp only [hrows, Option.bind_eq_bind, Option.bind_some, Option.pure_def]
          split <;> rfl
  | succ left ih =>
      rw [iterate, Newton.iterate]
      cases hresidual : system.evaluate point.time point.state point.derivatives with
      | error cause => rfl
      | ok residual =>
          have hheight := hsystem.length_evaluate hresidual
          have hrows := select_eq (hheight ▸ hindices)
          simp only [hrows, Option.bind_eq_bind, Option.bind_some, Option.pure_def]
          split
          · rfl
          rcases control.look with ⟨_ | _, looked⟩
          · rfl
          simp only [columns_of_fits hdivisors hpoint hindices system unknowns, Option.bind_some]
          rcases hcolumns : (Probe.mk system point.time point.state point.derivatives).columns
            Supervisor.controlled residual indices unknowns.perturbation
            ((unknowns.values point).map fun v => FiniteDifference.increment v 1) looked with
            ⟨cause | columns, after⟩
          · rfl
          rcases Probe.length_of_columns hsystem hcolumns with ⟨hcount, hhigh⟩
          rw [hheight] at hhigh
          have hselected : (Newton.select indices residual).length = indices.length :=
            List.length_map _
          simp only [correction_eq hindices hcount hhigh hselected, Option.bind_some]
          cases Newton.correction indices columns (Newton.select indices residual) with
          | none => rfl
          | some updates =>
              simp only [update_eq hpoint hindices, Option.bind_some]
              exact ih _ (hpoint.update _ _ _) _

theorem newton_eq (hsystem : system.FillsBuffer)
    (hindices : ∀ i ∈ indices, i < system.dimension) (settings : NewtonSettings α)
    (unknowns : Unknowns) (hpoint : point.Fits system.dimension) (control : Control) :
    newton allowed system settings unknowns indices point control =
      some (Newton.solve system settings unknowns indices point control) := by
  unfold newton Newton.solve
  split
  · rfl
  · exact iterate_eq hdivisors hsystem hindices _ _ _ _ hpoint _

end Checked

/-- A core with a flag for each variable. -/
structure Core.Flagged {α : Type} (core : Core α) : Prop where
  system : core.system.FillsBuffer
  flags : core.algebraic.length = core.system.dimension

variable {core : Core α}

omit [Scalar α] in
theorem Core.Flagged.lt_of_mem (hcore : core.Flagged) (flag : Bool) {i : Nat}
    (hi : i ∈ core.indicesWhere flag) : i < core.system.dimension := by
  simp only [indicesWhere, List.mem_filterMap] at hi
  rcases hi with ⟨⟨isAlgebraic, j⟩, hj, hsome⟩
  have hlt := List.snd_lt_of_mem_zipIdx hj
  rw [hcore.flags, Nat.add_zero] at hlt
  split at hsome
  · cases hsome
    exact hlt
  · cases hsome

theorem Point.Fits.zeroed (hpoint : point.Fits n) (flags : List Bool) :
    ({ point with derivatives := Core.zeroWhere flags point.derivatives }).Fits n :=
  ⟨hpoint.state_length, (Core.length_zeroWhere _ _).trans hpoint.derivatives_length⟩

theorem Point.Fits.resolve (hpoint : point.Fits n) (core : Core α) (control : Control) :
    (core.resolve point control).point.Fits n := by
  have hfirst : (core.resolveAlgebraic point control).point.Fits n := hpoint.solve _ _ _ _ _
  unfold Core.resolve
  simp only
  split
  · exact hfirst
  · have hsecond : (core.resolveDerivatives (core.resolveAlgebraic point control).point
        (core.resolveAlgebraic point control).control).point.Fits n :=
      (hfirst.zeroed core.algebraic).solve _ _ _ _ _
    split <;> exact hsecond

theorem Core.start_fits (hvalidate : core.validate = .ok ()) :
    Point.Fits core.system.dimension ⟨core.config.start, core.config.initialState,
      List.replicate core.config.initialState.length 0⟩ :=
  ⟨Core.length_initialState hvalidate,
    List.length_replicate.trans (Core.length_initialState hvalidate)⟩

namespace Checked

theorem resolveAlgebraic_eq (hdivisors : Divisors allowed) (hcore : core.Flagged)
    (hpoint : point.Fits core.system.dimension) (control : Control) :
    resolveAlgebraic allowed core point control = some (core.resolveAlgebraic point control) :=
  newton_eq hdivisors hcore.system (fun _ hi => hcore.lt_of_mem true hi) _ _ hpoint _

theorem resolveDerivatives_eq (hdivisors : Divisors allowed) (hcore : core.Flagged)
    (hpoint : point.Fits core.system.dimension) (control : Control) :
    resolveDerivatives allowed core point control = some (core.resolveDerivatives point control) :=
  newton_eq hdivisors hcore.system (fun _ hi => hcore.lt_of_mem false hi) _ _
    (hpoint.zeroed core.algebraic) _

theorem resolve_eq (hdivisors : Divisors allowed) (hcore : core.Flagged)
    (hpoint : point.Fits core.system.dimension) (control : Control) :
    resolve allowed core point control = some (core.resolve point control) := by
  have hfirst : (core.resolveAlgebraic point control).point.Fits core.system.dimension :=
    hpoint.solve _ _ _ _ _
  unfold resolve Core.resolve
  simp only [resolveAlgebraic_eq hdivisors hcore hpoint,
    resolveDerivatives_eq hdivisors hcore hfirst, Option.bind_eq_bind, Option.bind_some,
    Option.pure_def]
  cases (core.resolveAlgebraic point control).result with
  | error cause => rfl
  | ok outcome =>
      simp only
      cases (core.resolveDerivatives (core.resolveAlgebraic point control).point
        (core.resolveAlgebraic point control).control).result <;> rfl

end Checked

/-! ## Attempts of variable order -/

/-- A corrector with entries for each of the variables of its core. -/
structure Bdf.Corrector.Fits {α : Type} (corrector : Bdf.Corrector α) : Prop where
  flagged : corrector.core.Flagged
  nominal_length : corrector.nominal.length = corrector.core.system.dimension

/-- A corrector whose weights and typical magnitudes are allowed. -/
structure Bdf.Corrector.Allowed {α : Type} (allowed : α → Bool) (corrector : Bdf.Corrector α) :
    Prop where
  weights : ∀ weight ∈ corrector.weights, allowed weight
  nominal : ∀ scale ∈ corrector.nominal, allowed scale

variable {corrector : Bdf.Corrector α} {state derivatives updates : List α}

theorem Bdf.Corrector.length_update (corrector : Bdf.Corrector α) (hstate : state.length = n)
    (hderivatives : derivatives.length = n) (hupdates : updates.length = n) :
    (corrector.update updates state derivatives).1.length = n ∧
      (corrector.update updates state derivatives).2.length = n := by
  simp [update, hstate, hderivatives, hupdates]

theorem Bdf.Corrector.length_of_iterate (hsystem : corrector.core.system.FillsBuffer) {left : Nat}
    {control after : Control} {reached slopes : List α}
    (hstate : state.length = corrector.core.system.dimension)
    (hderivatives : derivatives.length = corrector.core.system.dimension)
    (hreached : corrector.iterate left state derivatives control =
      (.ok (some (reached, slopes)), after)) :
    reached.length = corrector.core.system.dimension ∧
      slopes.length = corrector.core.system.dimension := by
  induction left generalizing state derivatives control with
  | zero => cases hreached
  | succ left ih =>
      rw [iterate] at hreached
      simp only at hreached
      split at hreached
      · cases hreached
      · next residual hresidual =>
        split at hreached
        · cases hreached
        · split at hreached
          · cases hreached
          · split at hreached
            · cases hreached
            · next updates hupdates =>
              have hlength := Linear.length_of_columns (hsystem.length_evaluate hresidual) hupdates
              have hmoved := corrector.length_update hstate hderivatives hlength
              split at hreached
              · cases hreached
                exact hmoved
              · exact ih hmoved.1 hmoved.2 hreached

namespace Checked

theorem correctPoint_eq (hcorrector : corrector.Fits)
    (hstate : state.length = corrector.core.system.dimension)
    (hderivatives : derivatives.length = corrector.core.system.dimension)
    (hupdates : updates.length = corrector.core.system.dimension) :
    correctPoint corrector updates state derivatives =
      some (corrector.update updates state derivatives) := by
  apply if_pos
  rw [List.all_eq_true]
  intro i hi
  have hlt := List.mem_range.mp hi
  simp [hstate, hderivatives, hcorrector.flagged.flags, hupdates ▸ hlt]

theorem columns_of_corrector (hdivisors : Divisors allowed) (hcorrector : corrector.Fits)
    (hnominal : ∀ scale ∈ corrector.nominal, allowed scale)
    (hstate : state.length = corrector.core.system.dimension)
    (hderivatives : derivatives.length = corrector.core.system.dimension) (base : List α)
    (control : Control) :
    let probe : Probe α := ⟨corrector.core.system, corrector.time, state, derivatives⟩
    let increments := state.zipWith FiniteDifference.increment corrector.nominal
    columns allowed probe base (List.range state.length) (.combined corrector.alpha) increments
        control =
      some (probe.columns Supervisor.controlled base (List.range state.length)
        (.combined corrector.alpha) increments control) := by
  intro probe increments
  apply columns_eq (hdivisors.scaledIncrements hnominal state)
  intro j hj
  have hlt := List.mem_range.mp hj
  simp [probe, hcorrector.nominal_length, hderivatives, hstate ▸ hlt, hlt]

theorem correct_eq (hdivisors : Divisors allowed) (hcorrector : corrector.Fits)
    (hallowed : corrector.Allowed allowed) (left : Nat)
    (hstate : state.length = corrector.core.system.dimension)
    (hderivatives : derivatives.length = corrector.core.system.dimension) (control : Control) :
    correct allowed corrector left state derivatives control =
      some (corrector.iterate left state derivatives control) := by
  induction left generalizing state derivatives control with
  | zero => rfl
  | succ left ih =>
      rw [correct, Bdf.Corrector.iterate]
      simp only
      cases hresidual : corrector.core.system.evaluate corrector.time state derivatives with
      | error cause => rfl
      | ok residual =>
          have hsystem := hcorrector.flagged.system
          have hheight := hsystem.length_evaluate hresidual
          simp only [Option.bind_eq_bind, Option.pure_def, Option.bind_some,
            columns_of_corrector hdivisors hcorrector hallowed.nominal hstate hderivatives]
          rcases control.look with ⟨_ | _, looked⟩
          · rfl
          simp only
          rcases hcolumns : (Probe.mk corrector.core.system corrector.time state
            derivatives).columns Supervisor.controlled residual (List.range state.length)
            (.combined corrector.alpha)
            (state.zipWith FiniteDifference.increment corrector.nominal) looked with
            ⟨cause | columns, after⟩
          · rfl
          have hcount : columns.length = residual.length := by
            rw [(Probe.length_of_columns hsystem hcolumns).1, List.length_range, hstate, hheight]
          simp only [solve_rowsOfColumns hcount, Option.bind_some]
          cases hupdates : Linear.solve (Linear.rowsOfColumns residual.length columns)
              (residual.map (-·)) with
          | none => rfl
          | some updates =>
              have hlength := Linear.length_of_columns hheight hupdates
              have hmoved := corrector.length_update hstate hderivatives hlength
              simp only [correctPoint_eq hcorrector hstate hderivatives hlength,
                wrmsNorm_eq hdivisors hallowed.weights, Option.bind_some]
              split
              · rfl
              · exact ih hmoved.1 hmoved.2 _

theorem localError_eq (hdivisors : Divisors allowed) {settings : BdfSettings α}
    (htolerance : allowed settings.absoluteTolerance) {algebraic : List Bool}
    {weights residual predicted : List α} (hallowed : ∀ weight ∈ weights, allowed weight)
    (hn : n ≠ 0) (hflags : algebraic.length = n) (hweights : weights.length = n)
    (hresidual : residual.length = n) (hstate : state.length = n)
    (hpredicted : predicted.length = n) (order : Nat) :
    localError allowed settings algebraic order weights residual state predicted =
      some (Bdf.localError settings algebraic order weights residual state predicted) := by
  have hroot : allowed (Scalar.sqrt (Scalar.ofNat n)) :=
    hdivisors.sqrt (hdivisors.ofNat_of_ne_zero hn)
  unfold localError Bdf.localError
  rw [mapM_of_forall (g := fun i =>
    if algebraic.getD i false then residual.getD i 0 / settings.absoluteTolerance
    else
      (state.getD i 0 - predicted.getD i 0) / (Scalar.ofNat (order + 1) * weights.getD i 0))]
  · simp only [Option.bind_eq_bind, Option.bind_some, List.length_map, List.length_range, hstate,
      divide_eq hroot]
  · intro i hi
    have hlt : i < n := hstate ▸ List.mem_range.mp hi
    have hweight : allowed (Scalar.ofNat (order + 1) * weights.getD i 0) := by
      apply hdivisors.mul (hdivisors.ofNat order)
      rw [List.getD_eq_getElem _ _ (hweights ▸ hlt)]
      exact hallowed _ (List.getElem_mem _)
    simp only [getElem?_of_length hflags hlt false, getElem?_of_length hresidual hlt 0,
      getElem?_of_length hstate hlt 0, getElem?_of_length hpredicted hlt 0,
      getElem?_of_length hweights hlt 0, divide_eq htolerance, divide_eq hweight,
      Option.bind_eq_bind, Option.bind_some]
    split <;> rfl

omit [Scalar α] in
theorem has_of_sized {columns : List (List α)} {j i : Nat} (hsized : Bdf.Sized n columns)
    (hj : j < columns.length) (hi : i < n) : has columns j i = true := by
  rw [has, List.getElem?_eq_getElem hj]
  simp [hsized _ (List.getElem_mem hj), hi]

variable {history : Bdf.History α}

theorem accept_eq {algebraic : List Bool} (hhistory : history.Fits n)
    (hflags : algebraic.length = n) (hstate : state.length = n) :
    accept history algebraic (Bdf.coefficients history.order) history.predict state =
      some (history.accept algebraic (Bdf.coefficients history.order) history.predict state) := by
  have horder := hhistory.order_le
  have hcount := hhistory.count
  have hpredicted := hhistory.length_predict
  have hfactors : (Bdf.coefficients history.order : List α).length =
      BdfSettings.highestOrder + 1 := Bdf.length_coefficients horder
  apply if_pos
  rw [List.all_eq_true]
  intro i hi
  have hlt : i < n := hstate ▸ List.mem_range.mp hi
  rw [getElem?_of_length hflags hlt false]
  cases algebraic.getD i false with
  | true => exact has_of_sized hhistory.sized (by omega) hlt
  | false =>
      have hfirst : has history.predict 0 i = true :=
        has_of_sized hhistory.sized_predict (by omega) hlt
      simp only [hfirst, Bool.true_and, List.all_eq_true, List.mem_range, Bool.and_eq_true,
        decide_eq_true_eq]
      intro j hj
      have hcolumn : has history.columns j i = true :=
        has_of_sized hhistory.sized (by omega) hlt
      have hguess : has history.predict j i = true :=
        has_of_sized hhistory.sized_predict (by omega) hlt
      exact ⟨⟨hcolumn, hguess⟩, by omega⟩

theorem predict_eq (hhistory : history.Fits n) : predict history = some history.predict := by
  have hcount := hhistory.count
  have horder := hhistory.order_le
  exact if_pos (by omega)

theorem attempt_eq (hdivisors : Divisors allowed) {core : Core α} (hcore : core.Flagged)
    (hn : core.system.dimension ≠ 0) {settings : BdfSettings α}
    (hsettings : settings.Allowed allowed) (hhistory : history.Fits core.system.dimension)
    (hallowed : history.Allowed allowed) (time : α) (control : Control) :
    attempt allowed core settings history time control =
      some (Bdf.attempt core settings history time control) := by
  have hfactors : (Bdf.coefficients history.order : List α).length =
      BdfSettings.highestOrder + 1 := Bdf.length_coefficients hhistory.order_le
  have hfirst : 1 < BdfSettings.highestOrder + 1 := by decide
  have hweights := hdivisors.weights hsettings history
  rcases hhistory.exists_predict_eq hhistory.order_pos with
    ⟨states, slopes, rest, hpredict, hstates, hslopes⟩
  let corrector : Bdf.Corrector α :=
    { core, settings, time
      alpha := (Bdf.coefficients history.order).getD 1 0 / history.step
      weights := history.weights settings
      nominal := history.nominal }
  let guess := Bdf.predictedDerivatives core.algebraic history.step slopes
  have hcorrector : corrector.Fits := ⟨hcore, hhistory.nominal_length⟩
  have hguess : guess.length = core.system.dimension := by
    simp [guess, Bdf.predictedDerivatives, hslopes, hcore.flags]
  have hcorrect := correct_eq hdivisors hcorrector ⟨hweights, hallowed.nominal⟩
    core.newton.maxIterations hstates hguess control
  unfold attempt Bdf.attempt
  simp only [coefficients_eq hdivisors, getElem?_of_length hfactors hfirst 0,
    getElem?_of_length hhistory.count (Nat.succ_pos _) [], predict_eq hhistory, hpredict,
    List.getElem?_cons_zero, List.getElem?_cons_succ, List.headD_cons, List.getD_cons_zero,
    List.getD_cons_succ, divide_eq hallowed.step, predictedDerivatives_eq hallowed.step,
    Option.bind_eq_bind, Option.bind_some, Option.pure_def]
  simp only [corrector, guess] at hcorrect
  rw [hcorrect]
  rcases hrun : corrector.iterate core.newton.maxIterations states guess control with
    ⟨cause | _ | ⟨state, derivatives⟩, after⟩
  · rfl
  · rfl
  have hlength := Bdf.Corrector.length_of_iterate hcore.system hstates hguess hrun
  simp only [Option.bind_some]
  cases hresidual : core.system.evaluate time state derivatives with
  | error cause => rfl
  | ok residual =>
      have hheight := hcore.system.length_evaluate hresidual
      have haccept := accept_eq hhistory hcore.flags hlength.1
      rw [hpredict] at haccept
      simp only [localError_eq hdivisors hsettings.absoluteTolerance hweights hn hcore.flags
        (hhistory.length_weights settings) hheight hlength.1 hstates, haccept, Option.bind_some]
      split <;> rfl

end Checked

/-- An attempt keeps the shape of its history. -/
theorem Bdf.attempt_fits {core : Core α} {history : Bdf.History α} (hcore : core.Flagged)
    (hhistory : history.Fits core.system.dimension) (settings : BdfSettings α) (time : α)
    (control : Control) :
    (Bdf.attempt core settings history time control).history.Fits core.system.dimension := by
  rcases hhistory.exists_predict_eq hhistory.order_pos with
    ⟨states, slopes, rest, hpredict, hstates, hslopes⟩
  have hguess : (predictedDerivatives core.algebraic history.step slopes).length =
      core.system.dimension := by
    simp [predictedDerivatives, hslopes, hcore.flags]
  unfold Bdf.attempt
  simp only [hpredict, List.headD_cons, List.getD_cons_zero, List.getD_cons_succ]
  split
  · exact hhistory
  · exact hhistory
  · next state derivatives after hrun =>
    have hlength := Bdf.Corrector.length_of_iterate hcore.system hstates hguess hrun
    split
    · exact hhistory
    · split
      · exact hhistory.accept hlength.1 _ _ _
      · exact hhistory

end ImplicitDynamics
