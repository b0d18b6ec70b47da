import ImplicitDynamics.Proofs.LinearSolutions
import Mathlib

/-!
# Verdicts of the linear solver

A matrix is refused when a pivot is small against its largest entry.  A matrix
that is accepted sends no vector but zero to zero, so it has an inverse; one that
is refused has a singular matrix nearby, whose entries differ by no more than what
counts as a small pivot.  Both the pivots and the largest entry grow with the
matrix, and the verdict does not depend on its scale.
-/

open Matrix

namespace ImplicitDynamics.Linear

noncomputable section

variable {threshold c : ℝ} {rows : List (Row ℝ)} {n k : Nat}

theorem sum_zipWith_zeros {values zeros : List ℝ} (hzeros : ∀ x ∈ zeros, x = 0) :
    (values.zipWith (· * ·) zeros).sum = 0 := by
  apply List.sum_eq_zero
  intro x hx
  rcases List.mem_iff_getElem.mp hx with ⟨i, hi, rfl⟩
  rw [List.getElem_zipWith, hzeros _ (List.getElem_mem _), mul_zero]

/-- A vector that all rows send to zero is zero if the elimination succeeds. -/
theorem eq_zero_of_eliminate {solution : List (List ℝ)} {unknowns : List ℝ}
    (hthreshold : 0 ≤ threshold) (hcount : rows.length = n) (hrows : ∀ row ∈ rows, row.Sized n k)
    (hsolution : eliminate threshold n rows = some solution) (hlength : unknowns.length = n)
    (htotal : ∀ row ∈ rows, row.total unknowns = 0) : ∀ x ∈ unknowns, x = 0 := by
  induction n generalizing rows solution unknowns with
  | zero =>
      rw [List.length_eq_zero_iff.mp hlength]
      nofun
  | succ n ih =>
      rcases List.exists_cons_of_length_eq_add_one hlength with ⟨first, rest, rfl⟩
      rcases exists_pivots hcount hrows with ⟨pivot, others, hpivots, heliminate⟩
      rw [heliminate] at hsolution
      split at hsolution
      · cases hsolution
      · next hpivot =>
        rcases Option.map_eq_some_iff.mp hsolution with ⟨later, hlater, -⟩
        have hleading := ne_zero_of_not_le hthreshold hpivot
        have htotals : ∀ row ∈ pivot :: others, row.total (first :: rest) = 0 :=
          fun row hrow => htotal row (hpivots.perm.mem_iff.mp hrow)
        rw [List.forall_mem_cons] at htotals
        have hrest : ∀ x ∈ rest, x = 0 := by
          refine ih hpivots.reduced_length hpivots.reduced_sized hlater (Nat.succ.inj hlength) ?_
          refine List.forall_mem_map.mpr fun row hrow => ?_
          rw [Row.total_reduce hpivots.pivot_sized (hpivots.others_sized row hrow) hleading first,
            htotals.1, htotals.2 row hrow, zero_mul, sub_zero]
        have hfirst := htotals.1
        rw [Row.total_cons hpivots.pivot_sized, sum_zipWith_zeros hrest, add_zero] at hfirst
        rw [List.forall_mem_cons]
        exact ⟨(mul_eq_zero.mp hfirst).resolve_left hleading, hrest⟩

/-- Changing the coefficients of a row by no more than the threshold makes its
left side vanish. -/
def Row.NearlyVanishes (threshold : ℝ) (row : Row ℝ) (unknowns : List ℝ) : Prop :=
  ∃ errors : List ℝ, errors.length = unknowns.length ∧ (∀ e ∈ errors, |e| ≤ threshold) ∧
    row.total unknowns + (errors.zipWith (· * ·) unknowns).sum = 0

/-- The left side of a row that takes the first unknown only. -/
theorem Row.total_first {row : Row ℝ} (hrow : row.Sized (n + 1) k) :
    row.total (1 :: List.replicate n 0) = row.leading := by
  rw [Row.total_cons hrow, sum_zipWith_zeros (fun x => List.eq_of_mem_replicate), mul_one, add_zero]

/-- Where the elimination fails, a vector other than zero is nearly sent to
zero. -/
theorem exists_nearlyVanishes (hthreshold : 0 ≤ threshold) (hcount : rows.length = n)
    (hrows : ∀ row ∈ rows, row.Sized n k) (hfailed : eliminate threshold n rows = none) :
    ∃ unknowns : List ℝ, unknowns.length = n ∧ (∃ x ∈ unknowns, x ≠ 0) ∧
      ∀ row ∈ rows, row.NearlyVanishes threshold unknowns := by
  induction n generalizing rows with
  | zero => cases hfailed
  | succ n ih =>
      rcases exists_pivots hcount hrows with ⟨pivot, others, hpivots, heliminate⟩
      rw [heliminate] at hfailed
      split at hfailed
      · next hpivot =>
        -- the whole column is small, and its unknown is free once it is cleared
        refine ⟨1 :: List.replicate n 0, by simp, ⟨1, List.mem_cons_self, one_ne_zero⟩, ?_⟩
        intro row hrow
        refine ⟨-row.leading :: List.replicate n 0, by simp, ?_, ?_⟩
        · rw [List.forall_mem_cons, abs_neg]
          refine ⟨(hpivots.largest row hrow).trans hpivot, fun e he => ?_⟩
          rw [List.eq_of_mem_replicate he, abs_zero]
          exact hthreshold
        · rw [Row.total_first (hrows row hrow), List.zipWith_cons_cons, List.sum_cons,
            sum_zipWith_zeros (fun x => List.eq_of_mem_replicate)]
          ring
      · next hpivot =>
        have hleading := ne_zero_of_not_le hthreshold hpivot
        rcases ih hpivots.reduced_length hpivots.reduced_sized (Option.map_eq_none_iff.mp hfailed)
          with ⟨rest, hlength, ⟨x, hx, hne⟩, hnearly⟩
        -- the pivot row gives its own unknown and needs no error
        let first := -(pivot.coefficients.tail.zipWith (· * ·) rest).sum / pivot.leading
        have htotal : pivot.total (first :: rest) = 0 := by
          rw [Row.total_cons hpivots.pivot_sized]
          simp only [first]
          field_simp
          ring
        refine ⟨first :: rest, by rw [List.length_cons, hlength],
          ⟨x, List.mem_cons_of_mem _ hx, hne⟩, ?_⟩
        intro row hrow
        rcases List.mem_cons.mp (hpivots.perm.mem_iff.mpr hrow) with rfl | hmem
        · refine ⟨List.replicate (n + 1) 0, by simp [hlength], fun e he => ?_, ?_⟩
          · rw [List.eq_of_mem_replicate he, abs_zero]
            exact hthreshold
          · rw [htotal, List.zipWith_comm_of_comm (fun x y => mul_comm x y),
              sum_zipWith_zeros (fun x => List.eq_of_mem_replicate), add_zero]
        · rcases hnearly (pivot.reduce row) (List.mem_map_of_mem hmem) with
            ⟨errors, hcount', hsmall, hvanishes⟩
          refine ⟨0 :: errors, by simp [hcount'], ?_, ?_⟩
          · rw [List.forall_mem_cons, abs_zero]
            exact ⟨hthreshold, hsmall⟩
          · rw [Row.total_reduce hpivots.pivot_sized (hpivots.others_sized row hmem) hleading first,
              htotal, zero_mul, sub_zero] at hvanishes
            rw [List.zipWith_cons_cons, List.sum_cons, zero_mul, zero_add]
            exact hvanishes

/-- Both sides of an equation times a number. -/
def Row.scale (c : ℝ) (row : Row ℝ) : Row ℝ where
  coefficients := row.coefficients.map (c * ·)
  rightSides := row.rightSides.map (c * ·)

theorem sum_zipWith_scale (c : ℝ) (coefficients unknowns : List ℝ) :
    ((coefficients.map (c * ·)).zipWith (· * ·) unknowns).sum =
      c * (coefficients.zipWith (· * ·) unknowns).sum := by
  induction coefficients generalizing unknowns with
  | nil => simp
  | cons coefficient rest ih =>
      cases unknowns with
      | nil => simp
      | cons unknown unknowns =>
          rw [List.map_cons, List.zipWith_cons_cons, List.zipWith_cons_cons, List.sum_cons,
            List.sum_cons, ih]
          ring

namespace Row

variable {pivot : Row ℝ}

theorem leading_scale (c : ℝ) (row : Row ℝ) : (row.scale c).leading = c * row.leading := by
  unfold leading scale
  cases row.coefficients with
  | nil => simp [Exact.zero_eq]
  | cons first rest => rfl

theorem reduce_scale (hc : c ≠ 0) (pivot row : Row ℝ) :
    (pivot.scale c).reduce (row.scale c) = (pivot.reduce row).scale c := by
  have hfactor : c * row.leading * (1 / (c * pivot.leading)) =
      row.leading * (1 / pivot.leading) := by
    rw [mul_one_div, mul_one_div, mul_div_mul_left _ _ hc]
  have hsubtract : ∀ p x : ℝ, c * x - c * p * (row.leading * (1 / pivot.leading)) =
      c * (x - p * (row.leading * (1 / pivot.leading))) := fun p x => by ring
  unfold reduce
  simp only [leading_scale, Exact.sub_eq, Exact.mul_eq, Exact.div_eq, Exact.literal_eq,
    Nat.cast_one, hfactor]
  simp only [scale, List.map_zipWith, ← List.map_tail, List.zipWith_map, hsubtract]

theorem solve_scale (hc : c ≠ 0) (pivot : Row ℝ) (solution : List (List ℝ)) :
    (pivot.scale c).solve solution = pivot.solve solution := by
  apply List.ext_getElem
  · simp [solve, scale]
  · intro i hi hi'
    simp only [solve, List.getElem_map, List.getElem_zipIdx, Nat.zero_add, Exact.sub_eq,
      Exact.mul_eq, Exact.div_eq, Exact.zero_eq, foldr_sub_eq, leading_scale]
    simp only [scale, ← List.map_tail, sum_zipWith_scale, List.getElem_map, ← mul_sub]
    exact mul_div_mul_left _ _ hc

end Row

/-- The choice of a pivot only compares leading entries. -/
theorem largestLeading_map {f : Row ℝ → Row ℝ}
    (hf : ∀ row other, |(f row).leading| < |(f other).leading| ↔ |row.leading| < |other.leading|)
    (best : Row ℝ) (place next : Nat) (rows : List (Row ℝ)) :
    largestLeading |(f best).leading| place next (rows.map f) =
      largestLeading |best.leading| place next rows := by
  induction rows generalizing best place next with
  | nil => rfl
  | cons row rest ih =>
      rw [List.map_cons, largestLeading, largestLeading]
      simp only [Exact.abs_eq, Exact.lt_iff, hf, ih]

theorem choosePivot_map {f : Row ℝ → Row ℝ}
    (hf : ∀ row other, |(f row).leading| < |(f other).leading| ↔ |row.leading| < |other.leading|)
    (top : Row ℝ) (rest : List (Row ℝ)) :
    choosePivot (f top) (rest.map f) =
      (f (choosePivot top rest).1, (choosePivot top rest).2.map f) := by
  unfold choosePivot
  rw [Exact.abs_eq, Exact.abs_eq, largestLeading_map hf]
  cases largestLeading |top.leading| 0 1 rest with
  | zero => rfl
  | succ place => simp only [List.getD_map, List.map_set]

theorem choosePivot_scale (hc : c ≠ 0) (top : Row ℝ) (rest : List (Row ℝ)) :
    choosePivot (top.scale c) (rest.map (Row.scale c)) =
      ((choosePivot top rest).1.scale c, (choosePivot top rest).2.map (Row.scale c)) := by
  apply choosePivot_map
  intro row other
  rw [Row.leading_scale, Row.leading_scale, abs_mul, abs_mul]
  exact mul_lt_mul_iff_right₀ (abs_pos.mpr hc)

theorem abs_mul_le_iff (hc : c ≠ 0) (x y : ℝ) : |c * x| ≤ |c| * y ↔ |x| ≤ y := by
  rw [abs_mul]
  exact mul_le_mul_iff_right₀ (abs_pos.mpr hc)

theorem eliminate_scale (hc : c ≠ 0) (threshold : ℝ) (n : Nat) (rows : List (Row ℝ)) :
    eliminate (|c| * threshold) n (rows.map (Row.scale c)) = eliminate threshold n rows := by
  induction n generalizing rows with
  | zero => rfl
  | succ n ih =>
      cases rows with
      | nil => rfl
      | cons top rest =>
          have hreduce : ((choosePivot top rest).2.map (Row.scale c)).map
              ((choosePivot top rest).1.scale c).reduce =
                ((choosePivot top rest).2.map (choosePivot top rest).1.reduce).map
                  (Row.scale c) := by
            rw [List.map_map, List.map_map]
            exact List.map_congr_left fun row _ => Row.reduce_scale hc _ row
          rw [List.map_cons, eliminate, eliminate]
          simp only [choosePivot_scale hc, Row.leading_scale, Exact.abs_eq, Exact.le_iff,
            abs_mul_le_iff hc, hreduce, ih, Row.solve_scale hc]

/-- The coefficients of a row alone. -/
def Row.bare (row : Row ℝ) : Row ℝ :=
  { row with rightSides := [] }

theorem Row.leading_bare (row : Row ℝ) : row.bare.leading = row.leading := rfl

/-- Whether an elimination succeeds is a matter of the coefficients. -/
theorem isSome_eliminate_bare (threshold : ℝ) (n : Nat) (rows : List (Row ℝ)) :
    (eliminate threshold n (rows.map Row.bare)).isSome = (eliminate threshold n rows).isSome := by
  induction n generalizing rows with
  | zero => rfl
  | succ n ih =>
      cases rows with
      | nil => rfl
      | cons top rest =>
          have hchoice : choosePivot top.bare (rest.map Row.bare) =
              ((choosePivot top rest).1.bare, (choosePivot top rest).2.map Row.bare) :=
            choosePivot_map (f := Row.bare) (fun _ _ => Iff.rfl) top rest
          have hreduce : ((choosePivot top rest).2.map Row.bare).map
              (choosePivot top rest).1.bare.reduce =
                ((choosePivot top rest).2.map (choosePivot top rest).1.reduce).map Row.bare := by
            rw [List.map_map, List.map_map]
            exact List.map_congr_left fun row _ => rfl
          rw [List.map_cons, eliminate, eliminate]
          simp only [hchoice, hreduce, Row.leading_bare]
          split
          · rfl
          · rw [Option.isSome_map, Option.isSome_map, ih]

theorem entriesByColumn_scale (c : ℝ) (matrix : List (List ℝ)) :
    entriesByColumn (matrix.map fun row => row.map (c * ·)) =
      (entriesByColumn matrix).map (c * ·) := by
  have hwidth : ((matrix.map fun row => row.map (c * ·)).headD []).length =
      (matrix.headD []).length := by
    cases matrix with
    | nil => rfl
    | cons first rest => exact List.length_map _
  have hentry : ∀ (row : List ℝ) j, (row.map (c * ·)).getD j 0 = c * row.getD j 0 := by
    intro row j
    have hmap := List.getD_map row 0 (n := j) (c * ·)
    rwa [mul_zero] at hmap
  unfold entriesByColumn
  rw [hwidth, List.map_flatMap]
  simp only [List.map_map, Function.comp_def, Exact.zero_eq, hentry]

theorem foldl_largerOrLater_scale {s : ℝ} (hs : 0 ≤ s) (values : List ℝ) (first : ℝ) :
    (values.map (s * ·)).foldl largerOrLater (s * first) =
      s * values.foldl largerOrLater first := by
  induction values generalizing first with
  | nil => rfl
  | cons value values ih =>
      rw [List.map_cons, List.foldl_cons, List.foldl_cons, largerOrLater_eq_max,
        ← mul_max_of_nonneg _ _ hs, ← largerOrLater_eq_max, ih]

theorem largestEntry_scale (c : ℝ) (matrix : List (List ℝ)) :
    largestEntry (matrix.map fun row => row.map (c * ·)) = |c| * largestEntry matrix := by
  have habs : (Scalar.abs ∘ fun x => c * x) = fun x : ℝ => |c| * Scalar.abs x :=
    funext fun x => abs_mul c x
  unfold largestEntry
  rw [entriesByColumn_scale, List.map_map, habs]
  cases entriesByColumn matrix with
  | nil => simp [Exact.zero_eq]
  | cons first rest =>
      have hrest := foldl_largerOrLater_scale (abs_nonneg c) (rest.map Scalar.abs)
        (Scalar.abs first)
      rw [List.map_map] at hrest
      exact hrest

theorem solveMatrix_scale (hc : c ≠ 0) (matrix sides : List (List ℝ)) :
    solveMatrix (matrix.map fun row => row.map (c * ·)) (sides.map fun side => side.map (c * ·)) =
      solveMatrix matrix sides := by
  have hrows : (matrix.map fun row => row.map (c * ·)).zipWith Row.mk
      (sides.map fun side => side.map (c * ·)) =
        (matrix.zipWith Row.mk sides).map (Row.scale c) := by
    rw [List.zipWith_map, List.map_zipWith]
    rfl
  have hzero : Scalar.same (|c| * largestEntry matrix) 0 =
      Scalar.same (largestEntry matrix) 0 := by
    rw [Bool.eq_iff_iff, Exact.same_eq_true_iff, Exact.same_eq_true_iff, mul_eq_zero,
      or_iff_right (abs_ne_zero.mpr hc)]
  have hthreshold : (singularPivot : ℝ) * (|c| * largestEntry matrix) =
      |c| * (singularPivot * largestEntry matrix) := mul_left_comm _ _ _
  unfold solveMatrix
  simp only [largestEntry_scale, Exact.isFinite_eq, Exact.mul_eq, Exact.zero_eq, hzero, hthreshold,
    hrows, eliminate_scale hc, List.length_map]

theorem solve_scale (hc : c ≠ 0) (matrix : List (List ℝ)) (rightSide : List ℝ) :
    solve (matrix.map fun row => row.map (c * ·)) (rightSide.map (c * ·)) =
      solve matrix rightSide := by
  unfold solve
  rw [← solveMatrix_scale hc matrix, List.map_map, List.map_map]
  rfl

/-! ## Verdicts -/

/-- A matrix that becomes singular when its entries change by no more than what
counts as a small pivot; also the matrix without entries. -/
def NearlySingular (A : Matrix (Fin n) (Fin n) ℝ) : Prop :=
  n = 0 ∨ ∃ E : Matrix (Fin n) (Fin n) ℝ,
    (∀ i j, |E i j| ≤ singularPivot * largestEntry (tableOf A)) ∧ ¬ IsUnit (A + E)

theorem not_isUnit_iff (A : Matrix (Fin n) (Fin n) ℝ) :
    ¬ IsUnit A ↔ ∃ v, v ≠ 0 ∧ A *ᵥ v = 0 := by
  rw [Matrix.exists_mulVec_eq_zero_iff, Matrix.isUnit_iff_isUnit_det, isUnit_iff_ne_zero, not_not]

variable {A : Matrix (Fin n) (Fin n) ℝ} {B : Matrix (Fin n) (Fin k) ℝ}

theorem total_equation {unknowns : List ℝ} (hlength : unknowns.length = n) (i : Fin n) :
    (Row.mk (List.ofFn (A i)) (List.ofFn (B i))).total unknowns = A i ⬝ᵥ vectorOf n unknowns :=
  sum_zipWith_ofFn _ hlength

theorem isUnit_of_eliminate {solution : List (List ℝ)} (hthreshold : 0 ≤ threshold)
    (hsolution : eliminate threshold n (equations A B) = some solution) : IsUnit A := by
  by_contra hsingular
  rcases (not_isUnit_iff A).mp hsingular with ⟨v, hv, hproduct⟩
  have htotal : ∀ row ∈ equations A B, row.total (List.ofFn v) = 0 := by
    intro row hrow
    rcases List.mem_ofFn.mp hrow with ⟨i, rfl⟩
    rw [total_equation List.length_ofFn, vectorOf_ofFn]
    exact congrFun hproduct i
  have hzero := eq_zero_of_eliminate hthreshold length_equations equations_sized hsolution
    List.length_ofFn htotal
  exact hv (funext fun i => hzero _ (List.mem_ofFn.mpr ⟨i, rfl⟩))

theorem nearlySingular_of_eliminate
    (hfailed : eliminate (singularPivot * largestEntry (tableOf A)) n (equations A B) = none) :
    NearlySingular A := by
  rcases exists_nearlyVanishes (threshold_nonneg _) length_equations equations_sized hfailed with
    ⟨unknowns, hlength, ⟨x, hx, hne⟩, hnearly⟩
  right
  have hrows : ∀ i, ∃ errors : Fin n → ℝ,
      (∀ j, |errors j| ≤ singularPivot * largestEntry (tableOf A)) ∧
        (A i + errors) ⬝ᵥ vectorOf n unknowns = 0 := by
    intro i
    rcases hnearly _ (List.mem_ofFn.mpr ⟨i, rfl⟩) with ⟨errors, hcount, hsmall, hvanishes⟩
    have hfits : errors.length = n := hcount.trans hlength
    refine ⟨vectorOf n errors, fun j => ?_, ?_⟩
    · rw [vectorOf, List.getD_eq_getElem _ _ (hfits ▸ j.isLt)]
      exact hsmall _ (List.getElem_mem _)
    · rw [total_equation hlength, ← ofFn_vectorOf hfits, sum_zipWith_ofFn _ hlength] at hvanishes
      rw [add_dotProduct]
      exact hvanishes
  choose E hsmall hvanishes using hrows
  refine ⟨E, hsmall, (not_isUnit_iff _).mpr ⟨vectorOf n unknowns, ?_, funext hvanishes⟩⟩
  intro hzero
  rcases List.mem_iff_getElem.mp hx with ⟨i, hi, rfl⟩
  have hentry := congrFun hzero ⟨i, hlength ▸ hi⟩
  rw [vectorOf, List.getD_eq_getElem _ _ hi] at hentry
  exact hne hentry

theorem le_foldl_of_mem {values : List ℝ} {value : ℝ} (hvalue : value ∈ values) (first : ℝ) :
    value ≤ values.foldl largerOrLater first := by
  induction values generalizing first with
  | nil => cases hvalue
  | cons head rest ih =>
      rw [List.foldl_cons]
      rcases List.mem_cons.mp hvalue with rfl | hrest
      · rw [largerOrLater_eq_max]
        exact (le_max_right first value).trans (largerOrLater_eq_max ▸ le_foldl_largerOrLater _ _)
      · exact ih hrest _

theorem abs_le_largestEntry {matrix : List (List ℝ)} {entry : ℝ}
    (hentry : entry ∈ entriesByColumn matrix) : |entry| ≤ largestEntry matrix := by
  have habs : |entry| ∈ (entriesByColumn matrix).map Scalar.abs := List.mem_map_of_mem hentry
  unfold largestEntry
  cases hentries : (entriesByColumn matrix).map Scalar.abs with
  | nil =>
      rw [hentries] at habs
      cases habs
  | cons first rest =>
      rw [hentries] at habs
      rcases List.mem_cons.mp habs with hfirst | hrest
      · exact hfirst ▸ le_foldl_largerOrLater rest first
      · exact le_foldl_of_mem hrest first

theorem mem_entriesByColumn_tableOf (A : Matrix (Fin n) (Fin n) ℝ) (i j : Fin n) :
    A i j ∈ entriesByColumn (tableOf A) := by
  have hwidth : ((tableOf A).headD []).length = n := by
    cases n with
    | zero => exact i.elim0
    | succ n => simp [tableOf]
  refine List.mem_flatMap.mpr ⟨j, List.mem_range.mpr (hwidth.symm ▸ j.isLt), ?_⟩
  exact List.mem_map.mpr ⟨List.ofFn (A i), List.mem_ofFn.mpr ⟨i, rfl⟩, by simp⟩

/-- A matrix of zeros is singular, unless it has no entry at all. -/
theorem nearlySingular_of_largestEntry (hzero : largestEntry (tableOf A) = 0) :
    NearlySingular A := by
  have hentries : A = 0 := by
    ext i j
    have hle := abs_le_largestEntry (mem_entriesByColumn_tableOf A i j)
    rw [hzero] at hle
    exact abs_nonpos_iff.mp hle
  by_cases hn : n = 0
  · exact .inl hn
  · refine .inr ⟨0, fun i j => ?_, ?_⟩
    · rw [Matrix.zero_apply, abs_zero]
      exact threshold_nonneg _
    · have : NeZero n := ⟨hn⟩
      rw [add_zero, hentries]
      exact not_isUnit_zero

theorem isUnit_of_solveMatrix {solution : List (List ℝ)}
    (hsolution : solveMatrix (tableOf A) (tableOf B) = some solution) : IsUnit A := by
  rw [solveMatrix_tableOf] at hsolution
  split at hsolution
  · cases hsolution
  · exact isUnit_of_eliminate (threshold_nonneg _) hsolution

theorem nearlySingular_of_solveMatrix (hfailed : solveMatrix (tableOf A) (tableOf B) = none) :
    NearlySingular A := by
  rw [solveMatrix_tableOf] at hfailed
  split at hfailed
  · next hzero => exact nearlySingular_of_largestEntry hzero
  · exact nearlySingular_of_eliminate hfailed

/-- All right sides for a matrix have the same verdict. -/
theorem isSome_solveMatrix {l : Nat} (A : Matrix (Fin n) (Fin n) ℝ) (B : Matrix (Fin n) (Fin k) ℝ)
    (C : Matrix (Fin n) (Fin l) ℝ) :
    (solveMatrix (tableOf A) (tableOf B)).isSome = (solveMatrix (tableOf A) (tableOf C)).isSome := by
  have hbare : (equations A B).map Row.bare = (equations A C).map Row.bare := by
    simp [equations, List.map_ofFn, Function.comp_def, Row.bare]
  rw [solveMatrix_tableOf, solveMatrix_tableOf]
  split
  · rfl
  · rw [← isSome_eliminate_bare, hbare, isSome_eliminate_bare]

/-- All systems with this matrix are solved exactly. -/
structure Accepted (A : Matrix (Fin n) (Fin n) ℝ) : Prop where
  vector : ∀ b : Fin n → ℝ, ∃ solution, solve (tableOf A) (List.ofFn b) = some solution ∧
    solution.length = n ∧ A *ᵥ vectorOf n solution = b
  table : ∀ k (B : Matrix (Fin n) (Fin k) ℝ), ∃ X : Matrix (Fin n) (Fin k) ℝ,
    solveMatrix (tableOf A) (tableOf B) = some (tableOf X) ∧ A * X = B

/-- All systems with this matrix are refused. -/
structure Refused (A : Matrix (Fin n) (Fin n) ℝ) : Prop where
  vector : ∀ b : Fin n → ℝ, solve (tableOf A) (List.ofFn b) = none
  table : ∀ k (B : Matrix (Fin n) (Fin k) ℝ), solveMatrix (tableOf A) (tableOf B) = none

theorem accepted_of_solved {solution : List (List ℝ)}
    (hsolution : solveMatrix (tableOf A) (tableOf B) = some solution) : Accepted A := by
  have hsolved : ∀ l (C : Matrix (Fin n) (Fin l) ℝ), ∃ X : Matrix (Fin n) (Fin l) ℝ,
      solveMatrix (tableOf A) (tableOf C) = some (tableOf X) ∧ A * X = C := by
    intro l C
    have hsome := isSome_solveMatrix A B C
    rw [hsolution, Option.isSome_some] at hsome
    rcases Option.isSome_iff_exists.mp hsome.symm with ⟨table, htable⟩
    rcases solveMatrix_mul htable with ⟨X, rfl, hproduct⟩
    exact ⟨X, htable, hproduct⟩
  refine ⟨fun b => ?_, hsolved⟩
  rcases hsolved 1 (Matrix.replicateCol (Fin 1) b) with ⟨X, htable, -⟩
  have hvector := solve_tableOf A b
  rw [htable] at hvector
  exact ⟨_, hvector, solve_mulVec hvector⟩

theorem refused_of_failed (hfailed : solveMatrix (tableOf A) (tableOf B) = none) : Refused A := by
  have hnone : ∀ l (C : Matrix (Fin n) (Fin l) ℝ), solveMatrix (tableOf A) (tableOf C) = none := by
    intro l C
    have hsome := isSome_solveMatrix A B C
    rw [hfailed, Option.isSome_none] at hsome
    exact Option.isSome_eq_false_iff.mp hsome.symm |> Option.isNone_iff_eq_none.mp
  refine ⟨fun b => ?_, hnone⟩
  rw [solve_tableOf, hnone]
  rfl

theorem refused_of_solve {b : Fin n → ℝ} (hfailed : solve (tableOf A) (List.ofFn b) = none) :
    Refused A ∧ NearlySingular A := by
  rw [solve_tableOf, Option.map_eq_none_iff] at hfailed
  exact ⟨refused_of_failed hfailed, nearlySingular_of_solveMatrix hfailed⟩

theorem tableOf_smul (c : ℝ) (B : Matrix (Fin n) (Fin k) ℝ) :
    tableOf (c • B) = (tableOf B).map fun row => row.map (c * ·) := by
  simp only [tableOf, List.map_ofFn, Function.comp_def]
  rfl

/-- A matrix is either accepted, whatever the right sides, and then it has an
inverse and all solutions are exact; or it is refused, whatever the right sides,
and then it is singular up to the size of a small pivot.  A common factor of both
sides changes nothing. -/
theorem solve_exact (A : Matrix (Fin n) (Fin n) ℝ) :
    (Accepted A ∧ IsUnit A ∨ Refused A ∧ NearlySingular A) ∧
      ∀ c : ℝ, c ≠ 0 →
        (∀ b : Fin n → ℝ, solve (tableOf (c • A)) (List.ofFn (c • b)) =
          solve (tableOf A) (List.ofFn b)) ∧
        ∀ k (B : Matrix (Fin n) (Fin k) ℝ), solveMatrix (tableOf (c • A)) (tableOf (c • B)) =
          solveMatrix (tableOf A) (tableOf B) := by
  constructor
  · cases hidentity : solveMatrix (tableOf A) (tableOf (1 : Matrix (Fin n) (Fin n) ℝ)) with
    | some solution =>
        exact .inl ⟨accepted_of_solved hidentity, isUnit_of_solveMatrix hidentity⟩
    | none =>
        exact .inr ⟨refused_of_failed hidentity, nearlySingular_of_solveMatrix hidentity⟩
  · intro c hc
    constructor
    · intro b
      have hside : List.ofFn (c • b) = (List.ofFn b).map (c * ·) := by
        rw [List.map_ofFn]
        rfl
      rw [tableOf_smul, hside, solve_scale hc]
    · intro k B
      rw [tableOf_smul, tableOf_smul, solveMatrix_scale hc]

/-- Two equations that are nearly singular have a small determinant. -/
theorem abs_det_le_of_nearlySingular {A : Matrix (Fin 2) (Fin 2) ℝ} (hA : NearlySingular A) :
    |A.det| ≤ 1 / 100 * largestEntry (tableOf A) ^ 2 := by
  rcases hA with hn | ⟨E, hsmall, hsingular⟩
  · cases hn
  · rw [Matrix.isUnit_iff_isUnit_det, isUnit_iff_ne_zero, not_not, Matrix.det_fin_two] at hsingular
    have hlarge : ∀ i j, |A i j| ≤ largestEntry (tableOf A) := fun i j =>
      abs_le_largestEntry (mem_entriesByColumn_tableOf A i j)
    have hnonneg : 0 ≤ largestEntry (tableOf A) := largestEntry_nonneg _
    have hpivot : (singularPivot : ℝ) * largestEntry (tableOf A) ≤
        1 / 1000 * largestEntry (tableOf A) := by
      apply mul_le_mul_of_nonneg_right _ hnonneg
      rw [singularPivot, Exact.scientific_eq]
      norm_num
    generalize largestEntry (tableOf A) = largest at hlarge hsmall hnonneg hpivot ⊢
    have herror : ∀ i j, |E i j| ≤ 1 / 1000 * largest := fun i j => (hsmall i j).trans hpivot
    have hbounded : ∀ {x y bound : ℝ}, |x| ≤ bound → |y| ≤ 1 / 1000 * largest →
        |x * y| ≤ bound * (1 / 1000 * largest) := by
      intro x y bound hx hy
      rw [abs_mul]
      exact mul_le_mul hx hy (abs_nonneg y) ((abs_nonneg x).trans hx)
    have h1 := abs_le.mp (hbounded (hlarge 0 0) (herror 1 1))
    have h2 := abs_le.mp (hbounded (hlarge 1 1) (herror 0 0))
    have h3 := abs_le.mp (hbounded (herror 0 0) (herror 1 1))
    have h4 := abs_le.mp (hbounded (hlarge 0 1) (herror 1 0))
    have h5 := abs_le.mp (hbounded (hlarge 1 0) (herror 0 1))
    have h6 := abs_le.mp (hbounded (herror 0 1) (herror 1 0))
    simp only [Matrix.add_apply] at hsingular
    rw [Matrix.det_fin_two, abs_le]
    constructor <;> nlinarith

/-- Rows that have to change places, the same system times `-2`, and a matrix
whose rows are multiples of each other. -/
theorem solve_exact_pivoted :
    let A : Matrix (Fin 2) (Fin 2) ℝ := !![0, 2; 3, 1]
    let singular : Matrix (Fin 2) (Fin 2) ℝ := !![1, 2; 2, 4]
    ¬ NearlySingular A ∧ solve (tableOf A) (List.ofFn ![4, 5]) = some [1, 2] ∧
      solve (tableOf ((-2 : ℝ) • A)) (List.ofFn ((-2 : ℝ) • ![4, 5])) = some [1, 2] ∧
      ¬ IsUnit singular ∧ solve (tableOf singular) (List.ofFn ![1, 2]) = none := by
  intro A singular
  have hlargest : largestEntry (tableOf A) = 3 := by
    simp [largestEntry, entriesByColumn, tableOf, A, Exact.zero_eq, largerOrLater_eq_max,
      List.range_succ]
    norm_num
  have hregular : ¬ NearlySingular A := by
    intro hnearly
    have hdet := abs_det_le_of_nearlySingular hnearly
    rw [hlargest, Matrix.det_fin_two] at hdet
    norm_num [A] at hdet
  have hsingular : ¬ IsUnit singular := by
    rw [Matrix.isUnit_iff_isUnit_det, Matrix.det_fin_two]
    norm_num [singular]
  have haccepted := (solve_exact A).1.resolve_right fun hrefused => hregular hrefused.2
  have hrefused := (solve_exact singular).1.resolve_left fun haccepted => hsingular haccepted.2
  have hsolve : solve (tableOf A) (List.ofFn ![4, 5]) = some [1, 2] := by
    rcases haccepted.1.vector ![4, 5] with ⟨solution, hsolution, hlength, hproduct⟩
    rw [hsolution]
    rcases List.length_eq_two.mp hlength with ⟨x, y, rfl⟩
    have hfirst : 2 * y = 4 := by
      simpa [A, vectorOf, Matrix.mulVec, dotProduct, Fin.sum_univ_two] using congrFun hproduct 0
    have hsecond : 3 * x + y = 5 := by
      simpa [A, vectorOf, Matrix.mulVec, dotProduct, Fin.sum_univ_two] using congrFun hproduct 1
    have hy : y = 2 := by linarith
    have hx : x = 1 := by linarith
    rw [hx, hy]
  refine ⟨hregular, hsolve, ?_, hsingular, hrefused.1.vector _⟩
  rw [((solve_exact A).2 (-2) (by norm_num)).1, hsolve]

end

end ImplicitDynamics.Linear
