import ImplicitDynamics.Proofs.AffineRows
import Mathlib

/-!
# Newton iterations on rates

Where each of the rows that are to vanish is the derivative of its own variable
less a constant, the rows are affine and the identity is their slope.
Elimination takes the identity apart from the top, every pivot in its place, so
it is never refused.  Such an iteration converges with its first update at the
latest, unless it is cancelled.
-/

namespace ImplicitDynamics

noncomputable section

namespace Linear

/-- The rows of the identity on the given coordinates. -/
def identityOn (indices : List Nat) : List (List ℝ) :=
  indices.map fun i => indices.map fun j => if i = j then 1 else 0

/-- The largest magnitude of a matrix is that of an entry, and no entry has a
larger one. -/
theorem largestEntry_eq {matrix : List (List ℝ)} {largest : ℝ}
    (hmem : largest ∈ (entriesByColumn matrix).map fun entry => |entry|)
    (hle : ∀ entry ∈ entriesByColumn matrix, |entry| ≤ largest) :
    largestEntry matrix = largest := by
  have hmax : ((entriesByColumn matrix).map fun entry => |entry|).max? = some largest := by
    apply List.max?_eq_some_iff.mpr
    refine ⟨hmem, fun value hvalue => ?_⟩
    rcases List.mem_map.mp hvalue with ⟨entry, hentry, heq⟩
    exact heq ▸ hle entry hentry
  have habs : (Scalar.abs : ℝ → ℝ) = fun entry => |entry| := rfl
  unfold largestEntry
  rw [habs]
  cases hentries : (entriesByColumn matrix).map fun entry => |entry| with
  | nil =>
      rw [hentries] at hmax
      cases hmax
  | cons first rest =>
      rw [hentries, List.max?_cons'] at hmax
      rw [largerOrLater_eq_max]
      exact Option.some.inj hmax

theorem mem_entriesByColumn_identityOn {indices : List Nat} {entry : ℝ}
    (hentry : entry ∈ entriesByColumn (identityOn indices)) : entry = 0 ∨ entry = 1 := by
  simp only [entriesByColumn, identityOn, List.mem_flatMap, List.mem_map] at hentry
  rcases hentry with ⟨column, -, row, ⟨i, -, hrow⟩, heq⟩
  rw [← heq, ← hrow, Exact.zero_eq, List.getD_eq_getElem?_getD, List.getElem?_map]
  cases indices[column]? with
  | none => exact .inl rfl
  | some j =>
      by_cases hij : i = j
      · right
        simp [hij]
      · left
        simp [hij]

theorem largestEntry_identityOn {indices : List Nat} (hindices : indices ≠ []) :
    largestEntry (identityOn indices) = 1 := by
  apply largestEntry_eq
  · cases indices with
    | nil => exact absurd rfl hindices
    | cons i rest =>
        have hcorner : (1 : ℝ) ∈ entriesByColumn (identityOn (i :: rest)) :=
          List.mem_flatMap.mpr ⟨0, by simp [identityOn], by simp [identityOn]⟩
        exact List.mem_map.mpr ⟨1, hcorner, abs_one⟩
  · intro entry hentry
    rcases mem_entriesByColumn_identityOn hentry with hzero | hone
    · rw [hzero, abs_zero]
      exact zero_le_one
    · rw [hone, abs_one]

theorem largestLeading_of_zero {best : ℝ} {rows : List (Row ℝ)} (hbest : 0 ≤ best)
    (hrows : ∀ row ∈ rows, row.leading = 0) (place next : Nat) :
    largestLeading best place next rows = place := by
  induction rows generalizing next with
  | nil => rfl
  | cons row rest ih =>
      have hsmall : ¬ best < Scalar.abs row.leading := by
        rw [hrows row List.mem_cons_self, Exact.abs_eq, abs_zero]
        exact not_lt.mpr hbest
      rw [largestLeading, if_neg hsmall]
      exact ih (fun other hother => hrows other (List.mem_cons_of_mem row hother)) _

/-- A row below an identity loses nothing but its leading zero. -/
theorem Row.reduce_of_zero {coefficients others : List ℝ} {value other : ℝ}
    (hlength : coefficients.length = others.length) :
    (Row.mk (1 :: coefficients) [value]).reduce ⟨0 :: others, [other]⟩ = ⟨others, [other]⟩ := by
  have hkept : List.zipWith (fun _ x : ℝ => x) coefficients others = others := by
    apply List.ext_getElem
    · simp [hlength]
    · intro k hk hk'
      simp
  simp [Row.reduce, Row.leading, hkept]

/-- Unknowns with coefficients zero do not count. -/
theorem foldr_sub_of_zeros {coefficients : List ℝ} (hzeros : ∀ entry ∈ coefficients, entry = 0)
    (later : List ℝ) (value : ℝ) :
    (coefficients.zip later).foldr (fun (coefficient, x) total => total - x * coefficient) value =
      value := by
  induction coefficients generalizing later with
  | nil => rfl
  | cons coefficient coefficients ih =>
      rw [List.forall_mem_cons] at hzeros
      cases later with
      | nil => rfl
      | cons x later =>
          rw [List.zip_cons_cons, List.foldr_cons, ih hzeros.2, hzeros.1]
          simp only [mul_zero, sub_zero]

theorem Row.solve_of_zeros {coefficients : List ℝ} (hzeros : ∀ entry ∈ coefficients, entry = 0)
    (value : ℝ) (solution : List (List ℝ)) :
    (Row.mk (1 :: coefficients) [value]).solve solution = [value] := by
  have hrest := foldr_sub_of_zeros hzeros (solution.map fun unknown => unknown.getD 0 0) value
  simp only [Row.solve, Row.leading, List.zipIdx_cons, List.zipIdx_nil, List.map_cons,
    List.map_nil, List.tail_cons, List.headD_cons, Exact.zero_eq, Exact.sub_eq, Exact.mul_eq,
    Nat.zero_add, hrest, div_one]

/-- The rows of the identity with a right side each. -/
def identityRows (indices : List Nat) (values : List ℝ) : List (Row ℝ) :=
  (indices.zip values).map fun (i, value) =>
    ⟨indices.map fun j => if i = j then 1 else 0, [value]⟩

/-- A row with a column more, on the left, in which it has a zero. -/
def Row.widen (row : Row ℝ) : Row ℝ :=
  ⟨0 :: row.coefficients, row.rightSides⟩

theorem identityRows_cons {i : Nat} {rest : List Nat} (hi : i ∉ rest) (value : ℝ)
    (values : List ℝ) :
    identityRows (i :: rest) (value :: values) =
      ⟨1 :: rest.map (fun j => if i = j then 1 else 0), [value]⟩ ::
        (identityRows rest values).map Row.widen := by
  rw [identityRows, List.zip_cons_cons, List.map_cons, identityRows, List.map_map]
  simp only [List.map_cons, if_true]
  congr 1
  apply List.map_congr_left
  intro pair hpair
  have hne : pair.1 ≠ i := by
    intro heq
    exact hi (heq ▸ (List.of_mem_zip hpair).1)
  simp only [Function.comp_apply, Row.widen, if_neg hne]

theorem choosePivot_of_zeros {top : Row ℝ} {rows : List (Row ℝ)}
    (hrows : ∀ row ∈ rows, row.leading = 0) : choosePivot top rows = (top, rows) := by
  have hbest : 0 ≤ Scalar.abs top.leading := abs_nonneg _
  rw [choosePivot, largestLeading_of_zero hbest hrows]

/-- Below a row of the identity the others only lose a zero. -/
theorem reduce_identityRows (coefficients : List ℝ) (value : ℝ) {indices : List Nat}
    (hlength : coefficients.length = indices.length) (values : List ℝ) :
    ((identityRows indices values).map Row.widen).map
      (Row.mk (1 :: coefficients) [value]).reduce = identityRows indices values := by
  rw [identityRows, List.map_map, List.map_map]
  apply List.map_congr_left
  intro pair _
  simp only [Function.comp_apply, Row.widen]
  apply Row.reduce_of_zero
  rw [List.length_map, hlength]

theorem eliminate_identityRows {indices : List Nat} (hnodup : indices.Nodup) {threshold : ℝ}
    (hthreshold : threshold < 1) {values : List ℝ} (hlength : values.length = indices.length) :
    eliminate threshold indices.length (identityRows indices values) =
      some (values.map fun value => [value]) := by
  induction indices generalizing values with
  | nil =>
      rw [List.length_eq_zero_iff.mp hlength]
      rfl
  | cons i rest ih =>
      cases values with
      | nil => cases hlength
      | cons value values =>
          rw [List.nodup_cons] at hnodup
          have hzeros : ∀ entry ∈ rest.map fun j => if i = j then (1 : ℝ) else 0, entry = 0 := by
            intro entry hentry
            rcases List.mem_map.mp hentry with ⟨j, hj, heq⟩
            rw [← heq, if_neg]
            intro hij
            exact hnodup.1 (hij ▸ hj)
          have hleading : ∀ row ∈ (identityRows rest values).map Row.widen, row.leading = 0 := by
            intro row hrow
            rcases List.mem_map.mp hrow with ⟨_, -, heq⟩
            rw [← heq]
            rfl
          have hpivot : ¬ |(1 : ℝ)| ≤ threshold := by
            rw [abs_one]
            exact not_le.mpr hthreshold
          rw [identityRows_cons hnodup.1, List.length_cons, eliminate,
            choosePivot_of_zeros hleading]
          simp only [reduce_identityRows _ _ (List.length_map _), Option.map_some,
            ih hnodup.2 (Nat.succ.inj hlength), Row.solve_of_zeros hzeros]
          exact if_neg hpivot

theorem singularPivot_lt_one : (singularPivot : ℝ) < 1 := by
  rw [singularPivot, Exact.scientific_eq]
  norm_num

theorem solve_identityOn {indices : List Nat} (hindices : indices ≠ []) (hnodup : indices.Nodup)
    {values : List ℝ} (hlength : values.length = indices.length) :
    solve (identityOn indices) values = some values := by
  have hrows : (identityOn indices).zipWith Row.mk (values.map fun value => [value]) =
      identityRows indices values := by
    rw [identityOn, List.zipWith_map, identityRows, List.map_zip_eq_zipWith]
    rfl
  have hcount : (identityOn indices).length = indices.length := List.length_map _
  have hthreshold : (singularPivot : ℝ) * 1 < 1 := by
    rw [mul_one]
    exact singularPivot_lt_one
  have hmatrix : solveMatrix (identityOn indices) (values.map fun value => [value]) =
      some (values.map fun value => [value]) := by
    rw [solveMatrix, largestEntry_identityOn hindices, hrows, hcount]
    simp only [Exact.mul_eq, eliminate_identityRows hnodup hthreshold hlength]
    rw [if_neg]
    simp [Exact.zero_eq]
  rw [solve, hmatrix, Option.map_some, List.map_map]
  exact congrArg some (List.map_id values)

/-- Each of the coordinates stands in its own row and column only. -/
theorem identityOn_eq {indices : List Nat} (hnodup : indices.Nodup) :
    identityOn indices = tableOf (1 : Matrix (Fin indices.length) (Fin indices.length) ℝ) := by
  apply List.ext_getElem
  · simp [identityOn, tableOf]
  · intro a ha ha'
    apply List.ext_getElem
    · simp [identityOn, tableOf]
    · intro b hb hb'
      simp [identityOn, tableOf, Matrix.one_apply, hnodup.getElem_inj_iff]

end Linear

/-! ## Rates are affine -/

namespace ResidualSystem

/-- At a time and a state each of the rows `indices` is the derivative of its own
variable less a constant. -/
structure Rates (system : ResidualSystem ℝ) (t : ℝ) (y : List ℝ) (indices : List Nat)
    (target : Nat → ℝ) : Prop where
  fillsBuffer : system.FillsBuffer
  nodup : indices.Nodup
  lt_dimension : ∀ i ∈ indices, i < system.dimension
  succeeds : ∀ {yp out}, yp.length = system.dimension → out.length = system.dimension →
    (system.residual t y yp out).failure = none
  row : ∀ {yp out}, yp.length = system.dimension → out.length = system.dimension →
    ∀ i ∈ indices, (system.residual t y yp out).out.getD i 0 = yp.getD i 0 - target i

variable {system : ResidualSystem ℝ} {t : ℝ} {y yp : List ℝ} {indices : List Nat}
  {target : Nat → ℝ}

theorem Rates.moves (hrates : system.Rates t y indices target)
    (hyp : yp.length = system.dimension) : Newton.Moves system .derivatives indices ⟨t, y, yp⟩ :=
  ⟨hrates.fillsBuffer, hrates.nodup, hrates.lt_dimension, hyp⟩

theorem Rates.affineOn (hrates : system.Rates t y indices target)
    (hyp : yp.length = system.dimension) :
    system.AffineOn .derivatives indices ⟨t, y, yp⟩ 1 fun k => -target indices[(k : Nat)] where
  succeeds {point out} hspares hout := by
    obtain ⟨htime, hstate⟩ : point.time = t ∧ point.state = y := Prod.mk.inj hspares.fixed
    rw [htime, hstate]
    exact hrates.succeeds (hspares.length.trans hyp) hout
  rows {point out} hspares hout := by
    obtain ⟨htime, hstate⟩ : point.time = t ∧ point.state = y := Prod.mk.inj hspares.fixed
    rw [htime, hstate, Matrix.one_mulVec]
    funext k
    rw [Pi.add_apply, Newton.selected_apply, Newton.selected_apply]
    exact (hrates.row (hspares.length.trans hyp) hout _ (List.getElem_mem k.isLt)).trans
      (sub_eq_neg_add _ _)

/-- An iteration on rates that may make one update converges, unless it is
cancelled. -/
theorem Rates.solve_converges (hrates : system.Rates t y indices target)
    {settings : NewtonSettings ℝ} (htolerance : 0 < settings.tolerance)
    (hiterations : 1 ≤ settings.maxIterations) (hyp : yp.length = system.dimension)
    (control : Control) :
    (Newton.solve system settings .derivatives indices ⟨t, y, yp⟩ control).result =
        .error .cancelled ∨
      ∃ outcome, (Newton.solve system settings .derivatives indices ⟨t, y, yp⟩ control).result =
          .ok outcome ∧ outcome.converged = true := by
  by_cases hindices : indices = []
  · subst hindices
    exact .inr ⟨_, rfl, rfl⟩
  · have hends := Newton.solve_ends hindices system settings .derivatives ⟨t, y, yp⟩ control
    rcases (hrates.affineOn hyp).atOnce_of_ends (hrates.moves hyp) hindices htolerance hiterations
      hends with hcancelled | ⟨outcome, hresult, hatOnce⟩
    · exact .inl hcancelled
    · refine .inr ⟨outcome, hresult, hatOnce.converged fun hrefused => ?_⟩
      -- elimination does take the identity apart
      have hlength : (List.ofFn (0 : Fin indices.length → ℝ)).length = indices.length :=
        List.length_ofFn
      have hsolved := Linear.solve_identityOn hindices hrates.nodup hlength
      rw [Linear.identityOn_eq hrates.nodup, hrefused.vector] at hsolved
      cases hsolved

end ResidualSystem

end

end ImplicitDynamics
