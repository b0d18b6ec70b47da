import ImplicitDynamics.Proofs.FixedStepRun
import ImplicitDynamics.Proofs.LinearSolutions
import Mathlib

/-!
# Affine systems

The residual of an affine system is `c + A y' + B y`.  In exact arithmetic its
differences are not an approximation: when a state moves, and its derivative
`w` times as far, the residual moves along a column of `w A + B`.  A Newton
iteration whose derivatives follow the states at this rate therefore solves the
system with its first update.
-/

open Matrix

namespace ImplicitDynamics

noncomputable section

variable {n : Nat} {A B : Matrix (Fin n) (Fin n) ℝ} {c : Fin n → ℝ}

namespace Linear

theorem vectorOf_modify {values : List ℝ} (hlength : values.length = n) (j : Fin n) (d : ℝ) :
    vectorOf n (values.modify j (· + d)) = vectorOf n values + Pi.single j d := by
  funext i
  by_cases hij : i = j
  · subst hij
    rw [Pi.add_apply, Pi.single_eq_same, vectorOf, vectorOf,
      Unknowns.getD_modify_self _ (hlength ▸ i.isLt)]
  · have hne : (j : Nat) ≠ i := fun heq => hij (Fin.ext heq.symm)
    rw [Pi.add_apply, Pi.single_eq_of_ne hij, add_zero, vectorOf, vectorOf,
      Unknowns.getD_modify_of_ne _ hne]

theorem vectorOf_zipWith_add {values others : List ℝ} (hvalues : values.length = n)
    (hothers : others.length = n) :
    vectorOf n (values.zipWith (· + ·) others) = vectorOf n values + vectorOf n others := by
  funext i
  exact Bdf.getD_zipWith (hvalues ▸ i.isLt) (hothers ▸ i.isLt)

/-- A matrix that is given by its columns. -/
theorem rowsOfColumns_ofFn {k : Nat} (matrix : Matrix (Fin n) (Fin k) ℝ) :
    rowsOfColumns n (List.ofFn fun j => List.ofFn fun i => matrix i j) = tableOf matrix := by
  apply List.ext_getElem
  · simp [rowsOfColumns, tableOf]
  · intro i hi hi'
    have hlt : i < n := by simpa [tableOf] using hi'
    apply List.ext_getElem
    · simp [rowsOfColumns, tableOf]
    · intro j hj hj'
      simp [rowsOfColumns, tableOf, hlt]

end Linear

open Linear (tableOf vectorOf)

namespace ResidualSystem

/-- The residual is `c + A y' + B y` at all times. -/
structure IsAffine (system : ResidualSystem ℝ) (A B : Matrix (Fin n) (Fin n) ℝ)
    (c : Fin n → ℝ) : Prop where
  dimension : system.dimension = n
  fillsBuffer : system.FillsBuffer
  residual : ∀ t {y yp out}, y.length = n → yp.length = n → out.length = n →
    system.residual t y yp out =
      ⟨List.ofFn (c + A *ᵥ vectorOf n yp + B *ᵥ vectorOf n y), none⟩

variable {system : ResidualSystem ℝ} {t : ℝ} {y yp : List ℝ}

theorem IsAffine.evaluate (haffine : system.IsAffine A B c) (t : ℝ) (hy : y.length = n)
    (hyp : yp.length = n) :
    system.evaluate t y yp = .ok (List.ofFn (c + A *ᵥ vectorOf n yp + B *ᵥ vectorOf n y)) := by
  unfold ResidualSystem.evaluate
  simp only
  rw [haffine.dimension, haffine.residual t hy hyp List.length_replicate]

/-! ## Exact differences -/

/-- The matrix along whose columns the residual moves. -/
def slope (A B : Matrix (Fin n) (Fin n) ℝ) : Perturbation ℝ → Matrix (Fin n) (Fin n) ℝ
  | .state => B
  | .derivative => A
  | .combined w => w • A + B

theorem IsAffine.written (haffine : system.IsAffine A B c) (hy : y.length = n)
    (hyp : yp.length = n) (perturbation : Perturbation ℝ) (j : Fin n) (d : ℝ) {out : List ℝ}
    (hout : out.length = n) :
    (Probe.mk system t y yp).written perturbation ⟨j, d⟩ out =
      ⟨List.ofFn (c + A *ᵥ vectorOf n yp + B *ᵥ vectorOf n y + d • (slope A B perturbation).col j),
        none⟩ := by
  have hstate : ∀ f, (y.modify j f).length = n := fun f => (List.length_modify _ _ _).trans hy
  have hslope : ∀ f, (yp.modify j f).length = n := fun f => (List.length_modify _ _ _).trans hyp
  cases perturbation with
  | state =>
      refine (haffine.residual t (hstate _) hyp hout).trans ?_
      rw [Linear.vectorOf_modify hy, Matrix.mulVec_add, Matrix.mulVec_single, op_smul_eq_smul,
        ← add_assoc]
      rfl
  | derivative =>
      refine (haffine.residual t hy (hslope _) hout).trans ?_
      rw [Linear.vectorOf_modify hyp, Matrix.mulVec_add, Matrix.mulVec_single, op_smul_eq_smul,
        ← add_assoc, add_right_comm]
      rfl
  | combined w =>
      refine (haffine.residual t (hstate _) (hslope _) hout).trans ?_
      rw [Linear.vectorOf_modify hy, Linear.vectorOf_modify hyp]
      congr 2
      funext i
      simp only [Matrix.mulVec_add, Matrix.mulVec_single, Pi.add_apply, Pi.smul_apply, slope,
        Matrix.add_apply, Matrix.smul_apply, Matrix.col_apply, MulOpposite.smul_eq_mul_unop,
        MulOpposite.unop_op, smul_eq_mul]
      ring

/-- The difference quotients for one coordinate are a column of the matrix. -/
theorem IsAffine.quotient (haffine : system.IsAffine A B c) (hy : y.length = n)
    (hyp : yp.length = n) {perturbation : Perturbation ℝ} (j : Fin n) {d : ℝ} (hd : 0 < d)
    {column : List ℝ} (hcolumn : (Probe.mk system t y yp).Sees perturbation
      (Probe.quotients (List.ofFn (c + A *ᵥ vectorOf n yp + B *ᵥ vectorOf n y))) n ⟨j, d⟩ column) :
    column = List.ofFn fun i => slope A B perturbation i j := by
  rcases hcolumn with ⟨out, hout, -, rfl⟩
  rw [haffine.written hy hyp perturbation j d hout, Probe.quotients]
  apply List.ext_getElem
  · simp
  · intro i hi hi'
    have hne : d ≠ 0 := ne_of_gt hd
    simp [hne]

/-- The columns of a sweep over all coordinates are those of the matrix, unless
the sweep is cancelled. -/
theorem IsAffine.columns {σ : Type} (haffine : system.IsAffine A B c) (hy : y.length = n)
    (hyp : yp.length = n) (perturbation : Perturbation ℝ) {increments : List ℝ} (hn : n ≠ 0)
    (hincrements : ∀ j < n, 0 < increments.getD j 0) (supervisor : Supervisor σ) (s : σ) :
    let probe : Probe ℝ := ⟨system, t, y, yp⟩
    let base := List.ofFn (c + A *ᵥ vectorOf n yp + B *ᵥ vectorOf n y)
    let swept := probe.columns supervisor base (List.range n) perturbation increments s
    swept.1 = .error .cancelled ∨
      swept.1 = .ok (List.ofFn fun j => List.ofFn fun i => slope A B perturbation i j) := by
  intro probe base swept
  have hbase : base.length = n := List.length_ofFn
  have hnonempty : base ≠ [] := fun hnil => hn (hbase.symm.trans (congrArg List.length hnil))
  cases hresult : swept.1 with
  | error cause =>
      left
      congr 1
      apply probe.cancelled_of_columns haffine.fillsBuffer hnonempty _ hresult
      intro j hj buffer hbuffer
      have hlt := List.mem_range.mp hj
      exact congrArg Written.failure
        (haffine.written hy hyp perturbation ⟨j, hlt⟩ _ (hbuffer.trans hbase))
  | ok columns =>
      right
      have hsees := probe.columns_sees haffine.fillsBuffer hnonempty hresult
      rw [hbase, List.forall₂_iff_get] at hsees
      rcases hsees with ⟨hlength, hcolumns⟩
      rw [List.length_range] at hlength
      congr 1
      apply List.ext_getElem
      · rw [← hlength, List.length_ofFn]
      · intro j hj hj'
        have hlt : j < n := hlength ▸ hj
        have hcolumn := hcolumns j (by rwa [List.length_range]) hj
        simp only [List.get_eq_getElem, List.getElem_range, Exact.zero_eq] at hcolumn
        rw [haffine.quotient hy hyp ⟨j, hlt⟩ (hincrements j hlt) hcolumn, List.getElem_ofFn]

theorem accumulate_eq (start : ℝ) (row values : List ℝ) :
    accumulate start row values = start + (row.zipWith (· * ·) values).sum := by
  unfold accumulate
  induction row generalizing start values with
  | nil => simp
  | cons a row ih =>
      cases values with
      | nil => simp
      | cons value values =>
          rw [List.zip_cons_cons, List.foldl_cons, List.zipWith_cons_cons, List.sum_cons,
            ← add_assoc]
          exact ih _ values

/-- Systems that are given by matrices are affine. -/
theorem affine_isAffine (A B : Matrix (Fin n) (Fin n) ℝ) (c : Fin n → ℝ) :
    (ResidualSystem.affine (tableOf A) (tableOf B) (List.ofFn c)).IsAffine A B c := by
  have hlength : (List.ofFn c).length = n := List.length_ofFn
  refine ⟨hlength, affine_fillsBuffer (by simp [tableOf]) (by simp [tableOf]), ?_⟩
  intro t y yp out hy hyp hout
  unfold ResidualSystem.affine
  rw [hlength, residual_ofFunction hy hyp hout]
  congr 1
  apply List.ext_getElem
  · simp [tableOf]
  · intro i hi hi'
    simp only [tableOf, List.getElem_map, List.getElem_zip, List.getElem_ofFn, accumulate_eq,
      Linear.sum_zipWith_ofFn _ hyp, Linear.sum_zipWith_ofFn _ hy]
    rfl

end ResidualSystem

end

end ImplicitDynamics
