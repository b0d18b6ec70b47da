import ImplicitDynamics.Proofs.AffineSystems
import ImplicitDynamics.Proofs.Cycles
import ImplicitDynamics.Proofs.LinearVerdicts
import ImplicitDynamics.Proofs.RateEquations
import Mathlib

/-!
# The state matrix

Near a point, a system relates the rates `p` and the values `v` of its differential
variables and the values `q` of its algebraic ones by `A_D p + B_A q + B_D v = 0`, where
`A` and `B` are the Jacobians with respect to the derivatives and to the state.  If the
square matrix with the columns of `A_D` and then those of `B_A` has an inverse, then `v`
determines both `p` and `q`.  In exact arithmetic the rows of the solution that belong to
`p` are the matrix of the differential equation `p = R v`.
-/

open Matrix

namespace ImplicitDynamics

open Linear (vectorOf)

noncomputable section

variable {n d a k : Nat}

namespace Linear

/-- The columns of a matrix as lists. -/
def columnsOf (matrix : Matrix (Fin n) (Fin k) ℝ) : List (List ℝ) :=
  List.ofFn fun j => List.ofFn fun i => matrix i j

theorem length_columnsOf (matrix : Matrix (Fin n) (Fin k) ℝ) : (columnsOf matrix).length = k :=
  List.length_ofFn

theorem columnsOf_neg (matrix : Matrix (Fin n) (Fin k) ℝ) :
    (columnsOf matrix).map (fun column => column.map (-·)) = columnsOf (-matrix) := by
  simp only [columnsOf, List.map_ofFn, Function.comp_def]
  rfl

/-- The square matrix with the columns of one matrix and then those of another. -/
def beside (hcount : d + a = n) (P : Matrix (Fin n) (Fin d) ℝ) (Q : Matrix (Fin n) (Fin a) ℝ) :
    Matrix (Fin n) (Fin n) ℝ :=
  fun i k => Fin.append (P i) (Q i) (k.cast hcount.symm)

variable {P : Matrix (Fin n) (Fin d) ℝ} {Q : Matrix (Fin n) (Fin a) ℝ}

theorem columnsOf_beside (hcount : d + a = n) :
    columnsOf (beside hcount P Q) = columnsOf P ++ columnsOf Q := by
  subst hcount
  have happend : (fun k => List.ofFn fun i => beside rfl P Q i k) =
      Fin.append (fun k => List.ofFn fun i => P i k) (fun k => List.ofFn fun i => Q i k) := by
    funext k
    refine Fin.addCases (fun j => ?_) (fun j => ?_) k <;> simp [beside]
  rw [columnsOf, happend, List.ofFn_fin_append]
  rfl

theorem beside_mulVec (hcount : d + a = n) (p : Fin d → ℝ) (q : Fin a → ℝ) :
    beside hcount P Q *ᵥ (Fin.append p q ∘ Fin.cast hcount.symm) = P *ᵥ p + Q *ᵥ q := by
  subst hcount
  funext i
  simp [beside, Matrix.mulVec, dotProduct, Fin.sum_univ_add]

/-- Where the square matrix has an inverse, its solution for the right sides `-B` takes
what is given to the only `p` and `q` that go with it. -/
theorem solves_iff_of_isUnit (hcount : d + a = n) (hunit : IsUnit (beside hcount P Q))
    {B X : Matrix (Fin n) (Fin d) ℝ} (hsolution : beside hcount P Q * X = -B)
    (v p : Fin d → ℝ) (q : Fin a → ℝ) :
    P *ᵥ p + Q *ᵥ q + B *ᵥ v = 0 ↔
      p = X.submatrix (fun k => (Fin.castAdd a k).cast hcount) id *ᵥ v ∧
        q = X.submatrix (fun k => (Fin.natAdd d k).cast hcount) id *ᵥ v := by
  have hright : B *ᵥ v = -(beside hcount P Q *ᵥ (X *ᵥ v)) := by
    rw [Matrix.mulVec_mulVec, hsolution, Matrix.neg_mulVec, neg_neg]
  rw [← beside_mulVec hcount, hright, ← sub_eq_add_neg, sub_eq_zero,
    (Matrix.mulVec_injective_of_isUnit hunit).eq_iff]
  subst hcount
  constructor
  · intro happend
    have hentries : Fin.append p q = X *ᵥ v := happend
    constructor
    · funext k
      exact (Fin.append_left p q k).symm.trans (congrFun hentries (Fin.castAdd a k))
    · funext k
      exact (Fin.append_right p q k).symm.trans (congrFun hentries (Fin.natAdd d k))
  · rintro ⟨rfl, rfl⟩
    exact Fin.append_castAdd_natAdd (f := X *ᵥ v)

end Linear

namespace Spectrum

open Linear

/-- The variables with a flag, in order. -/
def variablesWhere (flags : Fin n → Bool) (flag : Bool) : List (Fin n) :=
  (List.finRange n).filter fun j => flags j = flag

def countWhere (flags : Fin n → Bool) (flag : Bool) : Nat :=
  (variablesWhere flags flag).length

/-- The columns of the variables with a flag. -/
def part (matrix : Matrix (Fin n) (Fin n) ℝ) (flags : Fin n → Bool) (flag : Bool) :
    Matrix (Fin n) (Fin (countWhere flags flag)) ℝ :=
  matrix.submatrix id (variablesWhere flags flag).get

variable {flags : Fin n → Bool}

theorem countWhere_add (flags : Fin n → Bool) :
    countWhere flags false + countWhere flags true = n := by
  have hsplit := List.length_eq_countP_add_countP (fun j => decide (flags j = false))
    (l := List.finRange n)
  rw [List.length_finRange, List.countP_eq_length_filter, List.countP_eq_length_filter] at hsplit
  simpa [countWhere, variablesWhere] using hsplit.symm

theorem countWhere_false_eq_zero_iff : countWhere flags false = 0 ↔ ∀ j, flags j = true := by
  simp [countWhere, variablesWhere, List.length_eq_zero_iff, List.filter_eq_nil_iff]

theorem columnsWhere_columnsOf (flags : Fin n → Bool) (flag : Bool)
    (matrix : Matrix (Fin n) (Fin n) ℝ) :
    columnsWhere (List.ofFn flags) flag (columnsOf matrix) =
      columnsOf (part matrix flags flag) := by
  have hpart : columnsOf (part matrix flags flag) =
      (variablesWhere flags flag).map fun j => List.ofFn fun i => matrix i j := by
    conv_rhs => rw [← List.ofFn_get (variablesWhere flags flag), List.map_ofFn]
    rfl
  rw [hpart, columnsWhere, columnsOf, List.ofFn_eq_map, List.ofFn_eq_map, List.zip_map',
    List.filter_map, List.map_map]
  rfl

/-- The matrix of the equations for the rates and the algebraic variables. -/
def eliminationMatrix (fy fyp : Matrix (Fin n) (Fin n) ℝ) (flags : Fin n → Bool) :
    Matrix (Fin n) (Fin n) ℝ :=
  beside (countWhere_add flags) (part fyp flags false) (part fy flags true)

theorem rowsOf_eliminationMatrix (fy fyp : Matrix (Fin n) (Fin n) ℝ) (flags : Fin n → Bool) :
    rowsOfColumns n (columnsOf (part fyp flags false) ++ columnsOf (part fy flags true)) =
      tableOf (eliminationMatrix fy fyp flags) := by
  rw [← columnsOf_beside (countWhere_add flags)]
  exact rowsOfColumns_ofFn _

theorem reducedJacobian_eq (fy fyp : Matrix (Fin n) (Fin n) ℝ) (flags : Fin n → Bool) :
    reducedJacobian (columnsOf fy) (columnsOf fyp) (List.ofFn flags) =
      if countWhere flags false = 0 then none
      else (solveMatrix (tableOf (eliminationMatrix fy fyp flags))
        (tableOf (-part fy flags false))).map fun solution =>
          solution.take (countWhere flags false) := by
  have hsides : rowsOfColumns n (columnsOf (-part fy flags false)) =
      tableOf (-part fy flags false) := rowsOfColumns_ofFn _
  have hnone : (columnsOf (part fyp flags false)).isEmpty = true ↔ countWhere flags false = 0 := by
    rw [List.isEmpty_iff_length_eq_zero, length_columnsOf]
  unfold reducedJacobian
  simp only [columnsWhere_columnsOf, List.length_ofFn, columnsOf_neg, rowsOf_eliminationMatrix,
    hsides, hnone, length_columnsOf]

/-- The first rows of a table. -/
theorem take_tableOf (hcount : d + a = n) (X : Matrix (Fin n) (Fin k) ℝ) :
    (tableOf X).take d = tableOf (X.submatrix (fun k => (Fin.castAdd a k).cast hcount) id) := by
  apply List.ext_getElem
  · rw [tableOf, tableOf, List.length_take, List.length_ofFn, List.length_ofFn, min_eq_left]
    exact (Nat.le_add_right d a).trans hcount.le
  · intro i hi hi'
    simp [tableOf]
    rfl

end Spectrum

namespace Analyzer

section

variable {α β : Type}

/-- A sweep that is cancelled or finds a value. -/
theorem swept_ensures_value
    {sweep : Observation α → Except (JacobianError α) β × Observation α} {value : β}
    (hsweep : ∀ observation, (sweep observation).1 = .error .cancelled ∨
      (sweep observation).1 = .ok value) :
    Ensures (swept sweep) fun found => found = .ok value := by
  unfold swept
  refine Ensures.bind fun observation => ?_
  rcases houtcome : sweep observation with ⟨result, after⟩
  refine Ensures.bind fun _ => ?_
  rcases houtcome ▸ hsweep observation with rfl | rfl
  · rintro _ _ ⟨⟩
  · exact Ensures.pure rfl

variable [Scalar α]

/-- How far an analysis moves each coordinate for the Jacobians. -/
def jacobianStep (settings : AnalyzerSettings α) (probe : Probe α) : α :=
  Scalar.sqrt settings.jacobianTolerance * Scalar.max (Linear.l2Norm probe.state) 1

/-- With these Jacobians, the eigenvalues are those of the state matrix. -/
theorem spectrum_ensures {settings : AnalyzerSettings α} {react : AnalysisEvent α → Bool}
    {probe : Probe α} {fy fyp : List (List α)}
    (hjacobians : Ensures (jacobians react probe (jacobianStep settings probe))
      fun found => found = .ok (fy, fyp))
    {algebraic : List Bool} {table : List (List α)}
    (htable : Spectrum.reducedJacobian fy fyp algebraic = some table) :
    Ensures (spectrum settings react probe algebraic) fun result =>
      result.2 = Linear.eigenvalues table := by
  unfold spectrum
  refine Ensures.bind_of hjacobians ?_
  rintro found rfl
  simp only [htable, Option.getD_some]
  exact Ensures.bind fun _ => Ensures.pure rfl

end

variable {system : ResidualSystem ℝ} {t : ℝ} {y yp : List ℝ}
  {A B : Matrix (Fin n) (Fin n) ℝ} {c : Fin n → ℝ}

theorem jacobianStep_pos {settings : AnalyzerSettings ℝ}
    (htolerance : 0 < settings.jacobianTolerance) (probe : Probe ℝ) :
    0 < jacobianStep settings probe := by
  refine mul_pos (Real.sqrt_pos.mpr htolerance) (lt_max_of_lt_right ?_)
  rw [Exact.literal_eq]
  exact Nat.cast_pos.mpr one_pos

/-- The square sweep of an affine system finds the columns of its matrix. -/
theorem square_ensures (haffine : system.IsAffine A B c) (hy : y.length = n)
    (hyp : yp.length = n) (hn : n ≠ 0) {h : ℝ} (hpos : 0 < h)
    (supervisor : Supervisor (Observation ℝ)) (perturbation : Perturbation ℝ) :
    let base := List.ofFn (c + A *ᵥ vectorOf n yp + B *ᵥ vectorOf n y)
    Ensures (swept ((Probe.mk system t y yp).square supervisor base perturbation h)) fun found =>
      found = .ok (Linear.columnsOf (ResidualSystem.slope A B perturbation)) := by
  intro base
  refine swept_ensures_value fun observation => ?_
  rw [Probe.square, List.length_ofFn]
  refine haffine.columns hy hyp perturbation hn (fun j hj => ?_) supervisor observation
  rw [List.getD_eq_getElem _ _ (by rwa [List.length_replicate]), List.getElem_replicate]
  exact hpos

/-- The Jacobians that an analysis finds for an affine system are its matrices. -/
theorem jacobians_ensures (haffine : system.IsAffine A B c) (hy : y.length = n)
    (hyp : yp.length = n) (hn : n ≠ 0) {h : ℝ} (hpos : 0 < h)
    (react : AnalysisEvent ℝ → Bool) :
    Ensures (jacobians react ⟨system, t, y, yp⟩ h) fun found =>
      found = .ok (Linear.columnsOf B, Linear.columnsOf A) := by
  unfold jacobians Probe.residual
  rw [haffine.evaluate t hy hyp]
  refine Ensures.bind_of (square_ensures haffine hy hyp hn hpos _ .state) ?_
  rintro found rfl
  refine Ensures.bind_of (square_ensures haffine hy hyp hn hpos _ .derivative) ?_
  rintro found rfl
  exact Ensures.pure rfl

end Analyzer

/-! ## Eliminated variables -/

namespace Spectrum

open Linear

/-- Where a state matrix is found, it gives the only rates that go with the values of the
differential variables in the linearised system, and there is a matrix that does so for the
algebraic variables; the eigenvalues of an analysis are then those of the state matrix.
None is found exactly if all variables are algebraic or the equations for the rates and
the algebraic variables are refused as singular. -/
theorem reducedJacobian_eliminates (fy fyp : Matrix (Fin n) (Fin n) ℝ) (flags : Fin n → Bool) :
    (∀ table, reducedJacobian (columnsOf fy) (columnsOf fyp) (List.ofFn flags) = some table →
      (∃ (R : Matrix (Fin (countWhere flags false)) (Fin (countWhere flags false)) ℝ)
        (S : Matrix (Fin (countWhere flags true)) (Fin (countWhere flags false)) ℝ),
        table = tableOf R ∧ ∀ v p q,
          part fyp flags false *ᵥ p + part fy flags true *ᵥ q + part fy flags false *ᵥ v = 0 ↔
            p = R *ᵥ v ∧ q = S *ᵥ v) ∧
      ∀ settings react probe,
        Analyzer.Ensures (Analyzer.jacobians react probe (Analyzer.jacobianStep settings probe))
          (fun found => found = .ok (columnsOf fy, columnsOf fyp)) →
        Analyzer.Ensures (Analyzer.spectrum settings react probe (List.ofFn flags)) fun result =>
          result.2 = eigenvalues table) ∧
    (reducedJacobian (columnsOf fy) (columnsOf fyp) (List.ofFn flags) = none ↔
      (∀ j, flags j = true) ∨ Refused (eliminationMatrix fy fyp flags)) := by
  constructor
  · intro table htable
    refine ⟨?_, fun _ _ _ hjacobians => Analyzer.spectrum_ensures hjacobians htable⟩
    rw [reducedJacobian_eq] at htable
    split at htable
    · cases htable
    · obtain ⟨solution, hsolution, rfl⟩ := Option.map_eq_some_iff.mp htable
      have hunit := isUnit_of_solveMatrix hsolution
      obtain ⟨X, rfl, hproduct⟩ := solveMatrix_mul hsolution
      exact ⟨_, _, take_tableOf (countWhere_add flags) X,
        solves_iff_of_isUnit (countWhere_add flags) hunit hproduct⟩
  · rw [reducedJacobian_eq, ← countWhere_false_eq_zero_iff]
    split
    · next hnone => exact iff_of_true rfl (.inl hnone)
    · next hnone =>
      rw [Option.map_eq_none_iff, or_iff_right hnone]
      exact ⟨refused_of_failed, fun hrefused => hrefused.table _ _⟩

/-- A constraint `u = 2 v` and an equation `v' + u + 3 v = 0`, so that `v' = -5 v`. -/
theorem reducedJacobian_eliminates_constraint :
    let fy : Matrix (Fin 2) (Fin 2) ℝ := !![1, -2; 1, 3]
    let fyp : Matrix (Fin 2) (Fin 2) ℝ := !![0, 0; 0, 1]
    let flags := ![true, false]
    let system := ResidualSystem.affine (tableOf fyp) (tableOf fy) (List.ofFn (0 : Fin 2 → ℝ))
    let settings : AnalyzerSettings ℝ := .standard
    let probe : Probe ℝ := ⟨system, 0, [2, 1], [0, 0]⟩
    let found := (Except.ok (columnsOf fy, columnsOf fyp) : Except (EvalError ℝ) _)
    reducedJacobian (columnsOf fy) (columnsOf fyp) (List.ofFn flags) = some [[-5]] ∧
      (∃ (R : Matrix (Fin 1) (Fin 1) ℝ) (S : Matrix (Fin 1) (Fin 1) ℝ),
        [[-5]] = tableOf R ∧ ∀ v p q,
          part fyp flags false *ᵥ p + part fy flags true *ᵥ q + part fy flags false *ᵥ v = 0 ↔
            p = R *ᵥ v ∧ q = S *ᵥ v) ∧
      Analyzer.Ensures (Analyzer.jacobians (fun _ => false) probe
        (Analyzer.jacobianStep settings probe)) (fun outcome => outcome = found) ∧
      Analyzer.Ensures (Analyzer.spectrum settings (fun _ => false) probe (List.ofFn flags))
        fun result => result.2 = eigenvalues [[-5]] := by
  intro fy fyp flags system settings probe found
  have hlargest : largestEntry [[0, 1], [1, 1]] = (1 : ℝ) := by
    simp [largestEntry, entriesByColumn, Exact.zero_eq, largerOrLater_eq_max, List.range_succ]
  have hmatrix : solveMatrix [[0, 1], [1, 1]] [[2], [-3]] = some [[-5], [(2 : ℝ)]] := by
    have hthreshold : (singularPivot : ℝ) < 1 := singularPivot_lt_one
    simp only [solveMatrix, hlargest]
    simp [eliminate, choosePivot, largestLeading, Row.leading, Row.reduce, Row.solve,
      Exact.literal_eq, hthreshold]
    norm_num
  have htable : reducedJacobian (columnsOf fy) (columnsOf fyp) (List.ofFn flags) =
      some [[-5]] := by
    simp [fy, fyp, flags, columnsOf, reducedJacobian, columnsWhere, rowsOfColumns,
      List.range_succ, Exact.zero_eq, hmatrix]
  have htolerance : 0 < settings.jacobianTolerance := by
    simp only [settings, AnalyzerSettings.standard, Exact.scientific_eq]
    norm_num
  have hjacobians : Analyzer.Ensures (Analyzer.jacobians (fun _ => false) probe
      (Analyzer.jacobianStep settings probe)) fun outcome => outcome = found :=
    Analyzer.jacobians_ensures (ResidualSystem.affine_isAffine fyp fy 0) rfl rfl two_ne_zero
      (Analyzer.jacobianStep_pos htolerance probe) _
  obtain ⟨hsolutions, heigenvalues⟩ := (reducedJacobian_eliminates fy fyp flags).1 _ htable
  exact ⟨htable, hsolutions, hjacobians, heigenvalues _ _ _ hjacobians⟩

end Spectrum

end

end ImplicitDynamics
