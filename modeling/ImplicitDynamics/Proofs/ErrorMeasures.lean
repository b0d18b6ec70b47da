import ImplicitDynamics.Comparison
import ImplicitDynamics.Proofs.Exact
import Mathlib

/-!
# Measures of a difference

Two trajectories can be compared if they have equally many points, at least one, and all
their states the same positive number of variables.  The measures then come from one table
of errors, with a row for each point and a column for each variable.  In exact arithmetic
its mean is that of its row means and that of its column means, it is at most the root mean
square, which is at most the largest error, and one of the three is zero only if they all
are.  The table does not tell the trajectories apart.
-/

namespace ImplicitDynamics

section

variable {α : Type} {solution reference : Trajectory α} {dimension : Nat}

def Trajectory.states (trajectory : Trajectory α) : List (List α) :=
  trajectory.points.toList.map Point.state

/-- There are equally many points, at least one, and every state has the same positive
number of variables. -/
structure Trajectory.Comparable (solution reference : Trajectory α) (dimension : Nat) :
    Prop where
  size : solution.size = reference.size
  points : 0 < solution.size
  nonzero : 0 < dimension
  solution : ∀ state ∈ solution.states, state.length = dimension
  reference : ∀ state ∈ reference.states, state.length = dimension

theorem Trajectory.length_states (trajectory : Trajectory α) :
    trajectory.states.length = trajectory.size := by
  rw [states, List.length_map, Array.length_toList, size]

namespace Trajectory

theorem length_pairs (hsize : solution.size = reference.size) :
    (solution.states.zip reference.states).length = solution.size := by
  rw [List.length_zip, length_states, length_states, hsize, min_self]

theorem forall_pairs_iff (hsize : solution.size = reference.size) :
    (∀ pair ∈ solution.states.zip reference.states,
      pair.1.length = dimension ∧ pair.2.length = dimension) ↔
      (∀ state ∈ solution.states, state.length = dimension) ∧
        ∀ state ∈ reference.states, state.length = dimension := by
  have hlength : solution.states.length = reference.states.length := by
    rw [length_states, length_states, hsize]
  have hfirst : (∀ state ∈ solution.states, state.length = dimension) ↔
      ∀ pair ∈ solution.states.zip reference.states, pair.1.length = dimension := by
    conv_lhs => rw [← List.map_fst_zip hlength.le, List.forall_mem_map]
  have hsecond : (∀ state ∈ reference.states, state.length = dimension) ↔
      ∀ pair ∈ solution.states.zip reference.states, pair.2.length = dimension := by
    conv_lhs => rw [← List.map_snd_zip hlength.ge, List.forall_mem_map]
  rw [hfirst, hsecond]
  exact forall₂_and

theorem Comparable.pairs (hcomparable : Comparable solution reference dimension) :
    ∀ pair ∈ solution.states.zip reference.states,
      pair.1.length = dimension ∧ pair.2.length = dimension :=
  (forall_pairs_iff hcomparable.size).mpr ⟨hcomparable.solution, hcomparable.reference⟩

theorem Comparable.symm (hcomparable : Comparable solution reference dimension) :
    Comparable reference solution dimension :=
  ⟨hcomparable.size.symm, hcomparable.size ▸ hcomparable.points, hcomparable.nonzero,
    hcomparable.reference, hcomparable.solution⟩

end Trajectory

namespace ErrorAnalysis

theorem mismatch?_eq_none_iff {pairs : List (List α × List α)} :
    mismatch? dimension pairs = none ↔
      ∀ pair ∈ pairs, pair.1.length = dimension ∧ pair.2.length = dimension := by
  induction pairs with
  | nil => simp [mismatch?]
  | cons pair rest ih =>
      rcases pair with ⟨state, reference⟩
      rw [List.forall_mem_cons, ← ih]
      by_cases hboth : state.length = dimension ∧ reference.length = dimension
      · simp [mismatch?, hboth]
      · rw [mismatch?, if_neg (by simpa using hboth)]
        exact iff_of_false nofun fun hall => hboth hall.1

variable [Scalar α] {analysis : ErrorAnalysis α}

theorem compare_of_comparable
    (hcomparable : Trajectory.Comparable solution reference dimension) :
    compare solution reference =
      .ok (ofPairs dimension (solution.states.zip reference.states)) := by
  have hpairs := hcomparable.pairs
  have hpoints : 0 < (solution.states.zip reference.states).length :=
    (Trajectory.length_pairs hcomparable.size).symm ▸ hcomparable.points
  obtain ⟨⟨first, firstReference⟩, rest, hzip⟩ := List.exists_cons_of_length_pos hpoints
  obtain ⟨rfl, hreference⟩ := hpairs (first, firstReference) (hzip ▸ List.mem_cons_self)
  have hnone := mismatch?_eq_none_iff.mpr hpairs
  have hgood : ¬(decide (first.length = 0) ||
      decide (firstReference.length ≠ first.length)) = true := by
    simp [hcomparable.nonzero.ne', hreference]
  unfold Trajectory.states at hzip hnone ⊢
  unfold compare
  rw [if_neg (not_not.mpr hcomparable.size)]
  simp only [hzip, if_neg hgood] at hnone ⊢
  rw [hnone]

theorem comparable_of_compare (hcompare : compare solution reference = .ok analysis) :
    ∃ dimension, Trajectory.Comparable solution reference dimension := by
  unfold compare at hcompare
  simp only at hcompare
  split at hcompare
  · cases hcompare
  · next hsize =>
    rw [not_not] at hsize
    split at hcompare
    · cases hcompare
    · next first firstReference rest hzip =>
      split at hcompare
      · cases hcompare
      · next hgood =>
        split at hcompare
        · cases hcompare
        · next hnone =>
          obtain ⟨hsolution, hreference⟩ :=
            (Trajectory.forall_pairs_iff hsize).mp (mismatch?_eq_none_iff.mp hnone)
          refine ⟨first.length, hsize, ?_, ?_, hsolution, hreference⟩
          · rw [← Trajectory.length_pairs hsize]
            exact hzip ▸ Nat.succ_pos _
          · exact Nat.pos_of_ne_zero fun hzero => hgood (by simp [hzero])

end ErrorAnalysis

end

noncomputable section

namespace ErrorAnalysis

variable {values : List ℝ} {bound start : ℝ}

def mean (values : List ℝ) : ℝ :=
  values.sum / values.length

/-- The mean of the squares, under a root. -/
def quadraticMean (values : List ℝ) : ℝ :=
  √((values.map (· ^ 2)).sum / values.length)

def largest (values : List ℝ) : ℝ :=
  values.foldl max 0

theorem sq_sum_le (values : List ℝ) :
    values.sum ^ 2 ≤ values.length * (values.map (· ^ 2)).sum := by
  have hchebyshev := sq_sum_le_card_mul_sum_sq (s := Finset.univ)
    (f := fun i : Fin values.length => values[i.1])
  rwa [Fin.sum_univ_getElem, Fin.sum_univ_fun_getElem values (· ^ 2), Finset.card_univ,
    Fintype.card_fin] at hchebyshev

theorem mean_le_quadraticMean (values : List ℝ) : mean values ≤ quadraticMean values := by
  apply Real.le_sqrt_of_sq_le
  rcases values.length.eq_zero_or_pos with hzero | hpos
  · rw [List.length_eq_zero_iff] at hzero
    simp [hzero, mean]
  · have hlength : (0 : ℝ) < values.length := Nat.cast_pos.mpr hpos
    rw [mean, div_pow, div_le_div_iff₀ (by positivity) hlength]
    nlinarith [sq_sum_le values]

theorem foldl_max_le_iff :
    values.foldl max start ≤ bound ↔ start ≤ bound ∧ ∀ v ∈ values, v ≤ bound := by
  induction values generalizing start with
  | nil => simp
  | cons v rest ih => rw [List.foldl_cons, ih, max_le_iff, List.forall_mem_cons, and_assoc]

theorem largest_nonneg (values : List ℝ) : 0 ≤ largest values :=
  (foldl_max_le_iff.mp le_rfl).1

theorem le_largest : ∀ v ∈ values, v ≤ largest values :=
  (foldl_max_le_iff.mp le_rfl).2

theorem quadraticMean_le_largest (hvalues : ∀ v ∈ values, 0 ≤ v) :
    quadraticMean values ≤ largest values := by
  have hlargest := largest_nonneg values
  rw [quadraticMean, Real.sqrt_le_left hlargest]
  have hsquares : (values.map (· ^ 2)).sum ≤ values.length * largest values ^ 2 := by
    have hterms : ∀ square ∈ values.map (· ^ 2), square ≤ largest values ^ 2 := by
      rw [List.forall_mem_map]
      intro v hv
      exact pow_le_pow_left₀ (hvalues v hv) (le_largest v hv) 2
    have hsum := List.sum_le_card_nsmul _ _ hterms
    rwa [List.length_map, nsmul_eq_mul] at hsum
  exact div_le_of_le_mul₀ (Nat.cast_nonneg _) (sq_nonneg _) (by rwa [mul_comm])

/-- Of values that are not negative one measure is zero only if all values are. -/
theorem measure_eq_zero_iff (hvalues : ∀ v ∈ values, 0 ≤ v) (hne : values ≠ []) {measure : ℝ}
    (hlow : mean values ≤ measure) (hhigh : measure ≤ largest values) :
    measure = 0 ↔ ∀ v ∈ values, v = 0 := by
  have hlength : (0 : ℝ) < values.length := Nat.cast_pos.mpr (List.length_pos_iff.mpr hne)
  have hsum : 0 ≤ values.sum := List.sum_nonneg hvalues
  constructor
  · rintro rfl
    have hzero : values.sum = 0 := by
      refine le_antisymm ?_ hsum
      simpa using (div_le_iff₀ hlength).mp hlow
    exact fun v => List.all_zero_of_le_zero_le_of_sum_eq_zero hvalues hzero
  · intro hall
    have hlargest : largest values ≤ 0 := foldl_max_le_iff.mpr ⟨le_rfl, fun v hv => (hall v hv).le⟩
    have hmean : 0 ≤ mean values := div_nonneg hsum hlength.le
    linarith

/-! ## The table of errors -/

variable {dimension : Nat} {pairs : List (List ℝ × List ℝ)}

/-- The errors at each point. -/
def errors (pairs : List (List ℝ × List ℝ)) : List (List ℝ) :=
  pairs.map fun pair => differences pair.1 pair.2

theorem differences_eq (state reference : List ℝ) :
    differences state reference =
      (state.zip reference).map fun entry => |entry.1 - entry.2| := by
  rw [List.map_zip_eq_zipWith]
  rfl

theorem flatten_errors (pairs : List (List ℝ × List ℝ)) :
    (errors pairs).flatten =
      (pairs.flatMap fun pair => pair.1.zip pair.2).map fun entry => |entry.1 - entry.2| := by
  rw [List.map_flatMap, List.flatMap_def, errors]
  simp only [differences_eq]

/-- The totals of entries, by what each of them adds. -/
theorem foldl_totals (entries : List (ℝ × ℝ)) (start : Totals ℝ) :
    let totals := entries.foldl (fun totals (value, expected) => totals.add value expected) start
    let errors := entries.map fun entry => |entry.1 - entry.2|
    totals.absolute = start.absolute + errors.sum ∧
      totals.squares = start.squares + (errors.map (· ^ 2)).sum ∧
      totals.largest = errors.foldl max start.largest := by
  induction entries generalizing start with
  | nil => simp
  | cons entry rest ih =>
      obtain ⟨habsolute, hsquares, hlargest⟩ := ih (start.add entry.1 entry.2)
      refine ⟨habsolute.trans ?_, hsquares.trans ?_, hlargest⟩
      · rw [List.map_cons, List.sum_cons, ← add_assoc]
        rfl
      · rw [List.map_cons, List.map_cons, List.sum_cons, ← add_assoc, pow_two]
        rfl

/-- The sums of the columns of a table. -/
def columnSums (dimension : Nat) (rows : List (List ℝ)) : List ℝ :=
  rows.foldl (fun sums row => sums.zipWith (· + ·) row) (List.replicate dimension 0)

theorem sum_zipWith_add {first second : List ℝ} (hlength : first.length = second.length) :
    (first.zipWith (· + ·) second).sum = first.sum + second.sum := by
  induction first generalizing second with
  | nil =>
      rw [List.eq_nil_of_length_eq_zero hlength.symm, List.zipWith_nil_left, List.sum_nil,
        add_zero]
  | cons v rest ih =>
      cases second with
      | nil => cases hlength
      | cons w others =>
          rw [List.zipWith_cons_cons, List.sum_cons, ih (Nat.succ.inj hlength), List.sum_cons,
            List.sum_cons]
          exact add_add_add_comm v w _ _

theorem foldl_columns {rows : List (List ℝ)} {sums : List ℝ}
    (hrows : ∀ row ∈ rows, row.length = sums.length) :
    let totals := rows.foldl (fun sums row => sums.zipWith (· + ·) row) sums
    totals.length = sums.length ∧ totals.sum = sums.sum + rows.flatten.sum := by
  induction rows generalizing sums with
  | nil => simp
  | cons row rest ih =>
      rw [List.forall_mem_cons] at hrows
      have hlength : (sums.zipWith (· + ·) row).length = sums.length := by
        rw [List.length_zipWith, hrows.1, min_self]
      have hrest : ∀ other ∈ rest, other.length = (sums.zipWith (· + ·) row).length :=
        fun other hother => (hrows.2 other hother).trans hlength.symm
      obtain ⟨hcount, hsum⟩ := ih hrest
      refine ⟨hcount.trans hlength, hsum.trans ?_⟩
      rw [sum_zipWith_add hrows.1.symm, List.flatten_cons, List.sum_append, add_assoc]

theorem length_flatten {rows : List (List ℝ)} (hrows : ∀ row ∈ rows, row.length = dimension) :
    rows.flatten.length = rows.length * dimension := by
  rw [List.length_flatten, List.sum_eq_card_nsmul _ dimension (List.forall_mem_map.mpr hrows),
    List.length_map, smul_eq_mul]

theorem length_of_mem_errors
    (hpairs : ∀ pair ∈ pairs, pair.1.length = dimension ∧ pair.2.length = dimension) :
    ∀ row ∈ errors pairs, row.length = dimension := by
  refine List.forall_mem_map.mpr fun pair hpair => ?_
  rw [differences, List.length_zipWith, (hpairs pair hpair).1, (hpairs pair hpair).2, min_self]

theorem totals_pairs (pairs : List (List ℝ × List ℝ)) :
    let totals := (pairs.flatMap fun (state, reference) => state.zip reference).foldl
      (fun totals (value, expected) => totals.add value expected) Totals.start
    totals.absolute = (errors pairs).flatten.sum ∧
      totals.squares = ((errors pairs).flatten.map (· ^ 2)).sum ∧
      totals.largest = largest (errors pairs).flatten := by
  obtain ⟨habsolute, hsquares, hlargest⟩ := foldl_totals
    (pairs.flatMap fun pair => pair.1.zip pair.2) Totals.start
  have hzero : @OfNat.ofNat ℝ 0 (Scalar.instOfNat 0) = 0 := Exact.zero_eq
  rw [← flatten_errors] at habsolute hsquares hlargest
  refine ⟨habsolute.trans ?_, hsquares.trans ?_, hlargest.trans ?_⟩
  · rw [Totals.start, hzero, zero_add]
  · rw [Totals.start, hzero, zero_add]
  · rw [Totals.start, hzero, largest]

/-- The measures of an analysis are those of a table of errors. -/
structure Measures (analysis : ErrorAnalysis ℝ) (dimension : Nat) (table : List (List ℝ)) :
    Prop where
  maxAbsolute : analysis.maxAbsolute = largest table.flatten
  meanAbsolute : analysis.meanAbsolute = mean table.flatten
  rootMeanSquare : analysis.rootMeanSquare = quadraticMean table.flatten
  localErrors : analysis.localErrors = table.map mean
  variableErrors : analysis.variableErrors =
    (columnSums dimension table).map (· / (table.length : ℝ))

theorem measures_ofPairs
    (hpairs : ∀ pair ∈ pairs, pair.1.length = dimension ∧ pair.2.length = dimension) :
    Measures (ofPairs dimension pairs) dimension (errors pairs) := by
  have hrows := length_of_mem_errors hpairs
  have hpoints : (errors pairs).length = pairs.length := List.length_map _
  have hcount : (Scalar.ofNat (pairs.length * dimension) : ℝ) = (errors pairs).flatten.length := by
    rw [length_flatten hrows, hpoints, Exact.ofNat_eq]
  obtain ⟨habsolute, hsquares, hlargest⟩ := totals_pairs pairs
  refine ⟨hlargest, ?_, ?_, ?_, ?_⟩
  · rw [mean, ← hcount, ← habsolute]
    rfl
  · rw [quadraticMean, ← hcount, ← hsquares]
    rfl
  · have hlocal : ∀ row ∈ errors pairs, row.foldl (fun sum error => Scalar.add sum error)
        (Scalar.ofNat 0) / Scalar.ofNat dimension = mean row := by
      intro row hrow
      rw [Exact.foldl_add_eq, Exact.ofNat_eq, Exact.ofNat_eq, Nat.cast_zero, zero_add, mean,
        hrows row hrow]
    rw [← List.map_congr_left hlocal, errors, List.map_map]
    rfl
  · rw [hpoints, columnSums, errors, List.foldl_map, ← Exact.ofNat_eq, ← Exact.zero_eq]
    rfl

theorem columnSums_totals {rows : List (List ℝ)}
    (hrows : ∀ row ∈ rows, row.length = dimension) :
    (columnSums dimension rows).length = dimension ∧
      (columnSums dimension rows).sum = rows.flatten.sum := by
  have hzeros : (List.replicate dimension (0 : ℝ)).length = dimension := List.length_replicate
  obtain ⟨hlength, hsum⟩ := foldl_columns fun row hrow => (hrows row hrow).trans hzeros.symm
  rw [List.sum_replicate, smul_zero, zero_add] at hsum
  exact ⟨hlength.trans hzeros, hsum⟩

/-- The mean of a table is that of the means of its rows. -/
theorem mean_map_mean {rows : List (List ℝ)} (hrows : ∀ row ∈ rows, row.length = dimension) :
    mean (rows.map mean) = mean rows.flatten := by
  have hmeans : rows.map mean = rows.map fun row => row.sum * (dimension : ℝ)⁻¹ := by
    refine List.map_congr_left fun row hrow => ?_
    rw [mean, hrows row hrow, div_eq_mul_inv]
  rw [mean, hmeans, List.sum_map_mul_right, List.length_map, mean, List.sum_flatten,
    length_flatten hrows, Nat.cast_mul, ← div_eq_mul_inv, div_div, mul_comm (dimension : ℝ)]

/-- The mean of a table is that of the means of its columns. -/
theorem mean_map_columnSums {rows : List (List ℝ)}
    (hrows : ∀ row ∈ rows, row.length = dimension) :
    mean ((columnSums dimension rows).map (· / (rows.length : ℝ))) = mean rows.flatten := by
  obtain ⟨hlength, hsum⟩ := columnSums_totals hrows
  simp only [div_eq_mul_inv (G := ℝ)]
  rw [mean, List.sum_map_mul_right, List.map_id', List.length_map, hlength, hsum, mean,
    length_flatten hrows, Nat.cast_mul, ← div_eq_mul_inv, div_div]

theorem forall_zip_eq_iff {β : Type} {first second : List β}
    (hlength : first.length = second.length) :
    (∀ pair ∈ first.zip second, pair.1 = pair.2) ↔ first = second := by
  have hzip : List.Forall₂ Eq first second ↔ _ := List.forall₂_iff_zip
  rw [List.forall₂_eq_eq_eq] at hzip
  rw [hzip, and_iff_right hlength, Prod.forall]

theorem errors_nonneg (pairs : List (List ℝ × List ℝ)) :
    ∀ error ∈ (errors pairs).flatten, 0 ≤ error := by
  rw [flatten_errors]
  exact List.forall_mem_map.mpr fun entry _ => abs_nonneg _

/-- All errors are zero only if the states of each pair are the same. -/
theorem errors_eq_zero_iff
    (hpairs : ∀ pair ∈ pairs, pair.1.length = dimension ∧ pair.2.length = dimension) :
    (∀ error ∈ (errors pairs).flatten, error = 0) ↔ ∀ pair ∈ pairs, pair.1 = pair.2 := by
  rw [flatten_errors]
  simp only [List.forall_mem_map, List.forall_mem_flatMap, abs_eq_zero, sub_eq_zero]
  refine forall₂_congr fun pair hpair => forall_zip_eq_iff ?_
  rw [(hpairs pair hpair).1, (hpairs pair hpair).2]

/-- The table does not tell what is compared from what it is compared with. -/
theorem errors_swap (pairs : List (List ℝ × List ℝ)) :
    errors (pairs.map Prod.swap) = errors pairs := by
  rw [errors, List.map_map, errors]
  refine List.map_congr_left fun pair _ => ?_
  simp only [Function.comp_apply, Prod.fst_swap, Prod.snd_swap, differences, Exact.abs_eq,
    Exact.sub_eq]
  rw [List.zipWith_comm]
  simp only [abs_sub_comm]

/-! ## Comparisons -/

variable {analysis : ErrorAnalysis ℝ} {table : List (List ℝ)}

theorem Measures.means (hmeasures : Measures analysis dimension table)
    (hrows : ∀ row ∈ table, row.length = dimension) :
    mean analysis.localErrors = analysis.meanAbsolute ∧
      mean analysis.variableErrors = analysis.meanAbsolute := by
  rw [hmeasures.localErrors, hmeasures.variableErrors, hmeasures.meanAbsolute]
  exact ⟨mean_map_mean hrows, mean_map_columnSums hrows⟩

theorem Measures.ordered (hmeasures : Measures analysis dimension table)
    (herrors : ∀ error ∈ table.flatten, 0 ≤ error) :
    analysis.meanAbsolute ≤ analysis.rootMeanSquare ∧
      analysis.rootMeanSquare ≤ analysis.maxAbsolute := by
  rw [hmeasures.meanAbsolute, hmeasures.rootMeanSquare, hmeasures.maxAbsolute]
  exact ⟨mean_le_quadraticMean _, quadraticMean_le_largest herrors⟩

theorem Measures.eq_zero_iff (hmeasures : Measures analysis dimension table)
    (herrors : ∀ error ∈ table.flatten, 0 ≤ error) (hne : table.flatten ≠ []) :
    (analysis.meanAbsolute = 0 ↔ ∀ error ∈ table.flatten, error = 0) ∧
      (analysis.rootMeanSquare = 0 ↔ ∀ error ∈ table.flatten, error = 0) ∧
      (analysis.maxAbsolute = 0 ↔ ∀ error ∈ table.flatten, error = 0) := by
  have hbetween : ∀ {measure : ℝ}, mean table.flatten ≤ measure →
      measure ≤ largest table.flatten →
        (measure = 0 ↔ ∀ error ∈ table.flatten, error = 0) :=
    measure_eq_zero_iff herrors hne
  obtain ⟨hmean, hlargest⟩ := hmeasures.ordered herrors
  rw [hmeasures.meanAbsolute] at hmean ⊢
  rw [hmeasures.maxAbsolute] at hlargest ⊢
  exact ⟨hbetween le_rfl (hmean.trans hlargest), hbetween hmean hlargest,
    hbetween (hmean.trans hlargest) le_rfl⟩

variable {solution reference : Trajectory ℝ}

theorem measures_of_comparable
    (hcomparable : Trajectory.Comparable solution reference dimension) :
    Measures (ofPairs dimension (solution.states.zip reference.states)) dimension
      (errors (solution.states.zip reference.states)) :=
  measures_ofPairs hcomparable.pairs

/-- The comparison the other way has the same table. -/
theorem measures_of_comparable_swap
    (hcomparable : Trajectory.Comparable solution reference dimension) :
    Measures (ofPairs dimension (reference.states.zip solution.states)) dimension
      (errors (solution.states.zip reference.states)) := by
  have hswapped := measures_ofPairs hcomparable.symm.pairs
  rwa [← List.zip_swap solution.states, errors_swap, List.zip_swap] at hswapped

theorem errors_ne_nil (hcomparable : Trajectory.Comparable solution reference dimension) :
    (errors (solution.states.zip reference.states)).flatten ≠ [] := by
  rw [← List.length_pos_iff, length_flatten (length_of_mem_errors hcomparable.pairs), errors,
    List.length_map, Trajectory.length_pairs hcomparable.size]
  exact Nat.mul_pos hcomparable.points hcomparable.nonzero

theorem states_eq_iff (hcomparable : Trajectory.Comparable solution reference dimension) :
    (∀ error ∈ (errors (solution.states.zip reference.states)).flatten, error = 0) ↔
      solution.states = reference.states := by
  rw [errors_eq_zero_iff hcomparable.pairs]
  refine forall_zip_eq_iff ?_
  rw [Trajectory.length_states, Trajectory.length_states, hcomparable.size]

/-- Two trajectories are compared exactly if they have equally many points, at least one,
and their states all the same number of variables, at least one.  Then the mean of the local
errors and the mean of the errors of the variables are the mean absolute error, which is at
most the root mean square, which is at most the largest error.  Each of the three is zero
exactly if the states are the same.  The comparison the other way measures the same. -/
theorem compare_measures (solution reference : Trajectory ℝ) :
    ((∃ analysis, compare solution reference = .ok analysis) ↔
      ∃ dimension, Trajectory.Comparable solution reference dimension) ∧
    ∀ analysis, compare solution reference = .ok analysis →
      (mean analysis.localErrors = analysis.meanAbsolute ∧
        mean analysis.variableErrors = analysis.meanAbsolute) ∧
      (analysis.meanAbsolute ≤ analysis.rootMeanSquare ∧
        analysis.rootMeanSquare ≤ analysis.maxAbsolute) ∧
      ((analysis.meanAbsolute = 0 ↔ solution.states = reference.states) ∧
        (analysis.rootMeanSquare = 0 ↔ solution.states = reference.states) ∧
        (analysis.maxAbsolute = 0 ↔ solution.states = reference.states)) ∧
      ∃ swapped, compare reference solution = .ok swapped ∧
        swapped.maxAbsolute = analysis.maxAbsolute ∧
        swapped.meanAbsolute = analysis.meanAbsolute ∧
        swapped.rootMeanSquare = analysis.rootMeanSquare ∧
        swapped.localErrors = analysis.localErrors ∧
        swapped.variableErrors = analysis.variableErrors := by
  refine ⟨⟨fun ⟨_, hcompare⟩ => comparable_of_compare hcompare,
    fun ⟨_, hcomparable⟩ => ⟨_, compare_of_comparable hcomparable⟩⟩, ?_⟩
  intro analysis hcompare
  obtain ⟨dimension, hcomparable⟩ := comparable_of_compare hcompare
  cases hcompare.symm.trans (compare_of_comparable hcomparable)
  have hmeasures := measures_of_comparable hcomparable
  have hswapped := measures_of_comparable_swap hcomparable
  have herrors := errors_nonneg (solution.states.zip reference.states)
  refine ⟨hmeasures.means (length_of_mem_errors hcomparable.pairs), hmeasures.ordered herrors, ?_,
    _, compare_of_comparable hcomparable.symm, ?_⟩
  · rw [← states_eq_iff hcomparable]
    exact hmeasures.eq_zero_iff herrors (errors_ne_nil hcomparable)
  · exact ⟨hswapped.maxAbsolute.trans hmeasures.maxAbsolute.symm,
      hswapped.meanAbsolute.trans hmeasures.meanAbsolute.symm,
      hswapped.rootMeanSquare.trans hmeasures.rootMeanSquare.symm,
      hswapped.localErrors.trans hmeasures.localErrors.symm,
      hswapped.variableErrors.trans hmeasures.variableErrors.symm⟩

/-- Two points with an exact first variable and an error of one in the second. -/
theorem compare_measures_offset :
    let trajectory (states : List (List ℝ)) : Trajectory ℝ :=
      ⟨(states.map fun state => ⟨0, state, [0, 0]⟩).toArray, .completed⟩
    let solution := trajectory [[1, 2], [2, 4]]
    let reference := trajectory [[1, 1], [2, 3]]
    Trajectory.Comparable solution reference 2 ∧
      ∃ analysis, compare solution reference = .ok analysis ∧
        analysis.meanAbsolute = 1 / 2 ∧ analysis.rootMeanSquare = √(1 / 2) ∧
        analysis.maxAbsolute = 1 ∧ analysis.localErrors = [1 / 2, 1 / 2] ∧
        analysis.variableErrors = [0, 1] ∧
        mean analysis.localErrors = analysis.meanAbsolute ∧
        mean analysis.variableErrors = analysis.meanAbsolute ∧
        analysis.meanAbsolute ≤ analysis.rootMeanSquare ∧
        analysis.rootMeanSquare ≤ analysis.maxAbsolute ∧
        ∃ swapped, compare reference solution = .ok swapped ∧
          swapped.variableErrors = analysis.variableErrors := by
  intro trajectory solution reference
  have hcomparable : Trajectory.Comparable solution reference 2 := by
    constructor <;> simp [solution, reference, trajectory, Trajectory.states, Trajectory.size]
  have hcompare := compare_of_comparable hcomparable
  have hmeasures := measures_of_comparable hcomparable
  have htable : errors (solution.states.zip reference.states) = [[0, 1], [0, 1]] := by
    simp [errors, differences, solution, reference, trajectory, Trajectory.states]
    norm_num
  rw [htable] at hmeasures
  obtain ⟨hmeans, hordered, -, swapped, hswapped, -, -, -, -, hvariables⟩ :=
    (compare_measures solution reference).2 _ hcompare
  refine ⟨hcomparable, _, hcompare, ?_, ?_, ?_, ?_, ?_, hmeans.1, hmeans.2, hordered.1,
    hordered.2, swapped, hswapped, hvariables⟩
  · rw [hmeasures.meanAbsolute]
    norm_num [mean]
  · rw [hmeasures.rootMeanSquare]
    norm_num [quadraticMean]
  · rw [hmeasures.maxAbsolute]
    norm_num [largest]
  · rw [hmeasures.localErrors]
    norm_num [mean]
  · rw [hmeasures.variableErrors]
    norm_num [columnSums, List.replicate]

end ErrorAnalysis

end

end ImplicitDynamics
