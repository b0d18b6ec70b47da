import ImplicitDynamics.Proofs.BdfAttempt
import Mathlib

/-!
# Solutions of linear systems

Elimination replaces each row below a pivot by its difference with a multiple of
the pivot row.  Where the pivot row holds, the new row holds exactly when the old
one does, so unknowns that solve what is left, together with the unknown of the
pivot row, solve the rows from which the step started.  In exact arithmetic a
solution that is handed out therefore solves the system.
-/

namespace ImplicitDynamics.Linear

noncomputable section

/-- The left side of an equation. -/
def Row.total (row : Row ℝ) (unknowns : List ℝ) : ℝ :=
  (row.coefficients.zipWith (· * ·) unknowns).sum

/-- One of the systems of a row, with unknowns that are given for all systems at
the same time. -/
def Row.Holds (row : Row ℝ) (solution : List (List ℝ)) (system : Nat) : Prop :=
  row.total (solution.map fun unknown => unknown.getD system 0) = row.rightSides.getD system 0

/-- A row for `n` unknowns of each of `k` systems. -/
structure Row.Sized (n k : Nat) (row : Row ℝ) : Prop where
  coefficients : row.coefficients.length = n
  rightSides : row.rightSides.length = k

theorem sum_zipWith_sub_mul (coefficients others unknowns : List ℝ) (factor : ℝ)
    (hlength : coefficients.length = others.length) :
    ((coefficients.zipWith (fun p x => x - p * factor) others).zipWith (· * ·) unknowns).sum =
      (others.zipWith (· * ·) unknowns).sum -
        (coefficients.zipWith (· * ·) unknowns).sum * factor := by
  induction coefficients generalizing others unknowns with
  | nil =>
      rw [List.length_eq_zero_iff.mp hlength.symm]
      simp
  | cons p coefficients ih =>
      rcases List.exists_cons_of_length_eq_add_one hlength.symm with ⟨x, rest, rfl⟩
      cases unknowns with
      | nil => simp
      | cons y unknowns =>
          have hrest := ih rest unknowns (Nat.succ.inj hlength)
          simp only [List.zipWith_cons_cons, List.sum_cons]
          rw [hrest]
          ring

theorem foldr_sub_eq (coefficients later : List ℝ) (value : ℝ) :
    (coefficients.zip later).foldr (fun (coefficient, x) total => total - x * coefficient) value =
      value - (coefficients.zipWith (· * ·) later).sum := by
  induction coefficients generalizing later with
  | nil => simp
  | cons coefficient coefficients ih =>
      cases later with
      | nil => simp
      | cons x later =>
          rw [List.zip_cons_cons, List.foldr_cons, ih, List.zipWith_cons_cons, List.sum_cons]
          ring

namespace Row

variable {pivot row : Row ℝ} {solution : List (List ℝ)} {n k system : Nat}

theorem total_cons {unknown : ℝ} {unknowns : List ℝ} (hrow : row.Sized (n + 1) k) :
    row.total (unknown :: unknowns) =
      row.leading * unknown + (row.coefficients.tail.zipWith (· * ·) unknowns).sum := by
  rcases List.exists_cons_of_length_eq_add_one hrow.coefficients with ⟨first, rest, heq⟩
  rw [total, leading, heq]
  simp

theorem getD_solve (hpivot : pivot.Sized (n + 1) k) (hsystem : system < k) :
    (pivot.solve solution).getD system 0 =
      (pivot.rightSides.getD system 0 - (pivot.coefficients.tail.zipWith (· * ·)
        (solution.map fun unknown => unknown.getD system 0)).sum) / pivot.leading := by
  have hlt : system < pivot.rightSides.length := by
    rwa [hpivot.rightSides]
  have hlt' : system < (pivot.solve solution).length := by
    rwa [solve, List.length_map, List.length_zipIdx]
  rw [List.getD_eq_getElem _ _ hlt', List.getD_eq_getElem _ _ hlt]
  simp only [solve, List.getElem_map, List.getElem_zipIdx, Nat.zero_add, Exact.sub_eq,
    Exact.mul_eq, Exact.div_eq, Exact.zero_eq]
  rw [foldr_sub_eq]

theorem Sized.reduce (hpivot : pivot.Sized (n + 1) k) (hrow : row.Sized (n + 1) k) :
    (pivot.reduce row).Sized n k := by
  constructor
  · simp [Row.reduce, hpivot.coefficients, hrow.coefficients]
  · simp [Row.reduce, hpivot.rightSides, hrow.rightSides]

/-- A pivot row holds with its own unknown in front. -/
theorem holds_solve (hpivot : pivot.Sized (n + 1) k) (hleading : pivot.leading ≠ 0)
    (hsystem : system < k) : pivot.Holds (pivot.solve solution :: solution) system := by
  rw [Holds, List.map_cons, total_cons hpivot, getD_solve hpivot hsystem]
  field_simp
  ring

theorem total_reduce (hpivot : pivot.Sized (n + 1) k) (hrow : row.Sized (n + 1) k)
    (hleading : pivot.leading ≠ 0) (unknown : ℝ) (unknowns : List ℝ) :
    (pivot.reduce row).total unknowns = row.total (unknown :: unknowns) -
      pivot.total (unknown :: unknowns) * (row.leading * (1 / pivot.leading)) := by
  have hwidth : pivot.coefficients.tail.length = row.coefficients.tail.length := by
    rw [List.length_tail, List.length_tail, hpivot.coefficients, hrow.coefficients]
  rw [total_cons hpivot, total_cons hrow, total, reduce]
  simp only [Exact.sub_eq, Exact.mul_eq, Exact.div_eq, Exact.one_eq]
  rw [sum_zipWith_sub_mul _ _ _ _ hwidth]
  field_simp
  ring

theorem getD_reduce (hpivot : pivot.Sized (n + 1) k) (hrow : row.Sized (n + 1) k)
    (hsystem : system < k) :
    (pivot.reduce row).rightSides.getD system 0 = row.rightSides.getD system 0 -
      pivot.rightSides.getD system 0 * (row.leading * (1 / pivot.leading)) := by
  have hlt : system < pivot.rightSides.length := by
    rwa [hpivot.rightSides]
  have hlt' : system < row.rightSides.length := by
    rwa [hrow.rightSides]
  rw [reduce]
  simp only [Exact.sub_eq, Exact.mul_eq, Exact.div_eq, Exact.one_eq]
  rw [Bdf.getD_zipWith hlt hlt']

/-- Above a pivot row that holds, a reduced row stands for the row itself. -/
theorem holds_of_reduce (hpivot : pivot.Sized (n + 1) k) (hrow : row.Sized (n + 1) k)
    (hleading : pivot.leading ≠ 0) (hsystem : system < k) {unknown : List ℝ}
    (hholds : pivot.Holds (unknown :: solution) system)
    (hreduced : (pivot.reduce row).Holds solution system) :
    row.Holds (unknown :: solution) system := by
  rw [Holds, List.map_cons] at hholds
  rw [Holds, total_reduce hpivot hrow hleading (unknown.getD system 0),
    getD_reduce hpivot hrow hsystem, hholds, sub_left_inj] at hreduced
  rwa [Holds, List.map_cons]

end Row

/-! ## Elimination -/

theorem perm_getD_set {β : Type} (top : β) (rest : List β) (place : Nat) :
    (rest.getD place top :: rest.set place top).Perm (top :: rest) := by
  induction rest generalizing place with
  | nil => exact .refl _
  | cons first rest ih =>
      cases place with
      | zero => exact .swap _ _ _
      | succ place =>
          rw [List.getD_cons_succ, List.set_cons_succ]
          exact ((List.Perm.swap _ _ _).trans ((ih place).cons first)).trans (.swap _ _ _)

/-- Choosing a pivot row changes the order of the rows and nothing else. -/
theorem perm_choosePivot (top : Row ℝ) (rest : List (Row ℝ)) :
    ((choosePivot top rest).1 :: (choosePivot top rest).2).Perm (top :: rest) := by
  unfold choosePivot
  split
  · exact .refl _
  · exact perm_getD_set top rest _

/-- The position that is found holds the largest leading entry, whatever has been
`seen` before it. -/
theorem largestLeading_spec (rows : List (Row ℝ)) {seen : List (Row ℝ)} {top : Row ℝ} {place : Nat}
    (hplace : seen[place]? = some top) (hlargest : ∀ row ∈ seen, |row.leading| ≤ |top.leading|) :
    ∃ pivot, (seen ++ rows)[largestLeading |top.leading| place seen.length rows]? = some pivot ∧
      ∀ row ∈ seen ++ rows, |row.leading| ≤ |pivot.leading| := by
  induction rows generalizing seen top place with
  | nil => exact ⟨top, by rwa [List.append_nil], by rwa [List.append_nil]⟩
  | cons row rest ih =>
      have hsplit : seen ++ row :: rest = (seen ++ [row]) ++ rest := by simp
      have hcount : seen.length + 1 = (seen ++ [row]).length := by simp
      rw [largestLeading, hsplit, hcount]
      split
      · next hlarger =>
        refine ih (by simp) ?_
        intro other hother
        rcases List.mem_append.mp hother with hseen | hlast
        · exact (hlargest other hseen).trans (le_of_lt hlarger)
        · rw [List.mem_singleton.mp hlast]
      · next hsmaller =>
        have hlt := (List.getElem?_eq_some_iff.mp hplace).1
        refine ih ?_ ?_
        · rwa [List.getElem?_append_left hlt]
        · intro other hother
          rcases List.mem_append.mp hother with hseen | hlast
          · exact hlargest other hseen
          · rw [List.mem_singleton.mp hlast]
            exact not_lt.mp hsmaller

/-- No leading entry is larger than that of the pivot row. -/
theorem leading_choosePivot_le (top : Row ℝ) (rest : List (Row ℝ)) :
    ∀ row ∈ top :: rest, |row.leading| ≤ |(choosePivot top rest).1.leading| := by
  have hfirst : ∀ row ∈ [top], |row.leading| ≤ |top.leading| := by simp
  rcases largestLeading_spec rest (List.getElem?_cons_zero (l := [])) hfirst with
    ⟨pivot, hpivot, hlargest⟩
  have hchosen : (choosePivot top rest).1 = pivot := by
    rw [List.length_singleton, List.singleton_append] at hpivot
    unfold choosePivot
    rw [Exact.abs_eq]
    split
    · next hplace =>
      rw [hplace] at hpivot
      exact Option.some.inj hpivot
    · next place hplace =>
      rw [hplace, List.getElem?_cons_succ] at hpivot
      rw [List.getD_eq_getElem?_getD, hpivot, Option.getD_some]
  rwa [hchosen]

variable {threshold : ℝ} {rows : List (Row ℝ)} {solution : List (List ℝ)} {n k : Nat}

/-- The pivot row of some rows, and the others. -/
structure Pivots (n k : Nat) (rows : List (Row ℝ)) (pivot : Row ℝ) (others : List (Row ℝ)) :
    Prop where
  perm : (pivot :: others).Perm rows
  others_length : others.length = n
  pivot_sized : pivot.Sized (n + 1) k
  others_sized : ∀ row ∈ others, row.Sized (n + 1) k
  largest : ∀ row ∈ rows, |row.leading| ≤ |pivot.leading|

theorem Pivots.reduced_length {pivot : Row ℝ} {others : List (Row ℝ)}
    (hpivots : Pivots n k rows pivot others) : (others.map pivot.reduce).length = n :=
  (List.length_map _).trans hpivots.others_length

theorem Pivots.reduced_sized {pivot : Row ℝ} {others : List (Row ℝ)}
    (hpivots : Pivots n k rows pivot others) : ∀ row ∈ others.map pivot.reduce, row.Sized n k :=
  List.forall_mem_map.mpr fun row hrow => hpivots.pivot_sized.reduce (hpivots.others_sized row hrow)

/-- The first column of an elimination. -/
theorem exists_pivots (hcount : rows.length = n + 1) (hrows : ∀ row ∈ rows, row.Sized (n + 1) k) :
    ∃ pivot others, Pivots n k rows pivot others ∧ ∀ threshold, eliminate threshold (n + 1) rows =
      if |pivot.leading| ≤ threshold then none
      else (eliminate threshold n (others.map pivot.reduce)).map fun solution =>
        pivot.solve solution :: solution := by
  rcases List.exists_cons_of_length_eq_add_one hcount with ⟨top, rest, rfl⟩
  have hperm := perm_choosePivot top rest
  have hsized : ∀ row ∈ (choosePivot top rest).1 :: (choosePivot top rest).2,
      row.Sized (n + 1) k := fun row hrow => hrows row (hperm.mem_iff.mp hrow)
  rw [List.forall_mem_cons] at hsized
  have hothers : (choosePivot top rest).2.length = n := by
    have hlength := hperm.length_eq
    rw [List.length_cons] at hlength
    omega
  exact ⟨_, _, ⟨hperm, hothers, hsized.1, hsized.2, leading_choosePivot_le top rest⟩, fun _ => rfl⟩

/-- A pivot above the threshold is not zero. -/
theorem ne_zero_of_not_le {x : ℝ} (hthreshold : 0 ≤ threshold) (hnot : ¬ |x| ≤ threshold) :
    x ≠ 0 :=
  abs_pos.mp (hthreshold.trans_lt (not_le.mp hnot))

theorem eliminate_holds (hthreshold : 0 ≤ threshold) (hcount : rows.length = n)
    (hrows : ∀ row ∈ rows, row.Sized n k) (hsolution : eliminate threshold n rows = some solution) :
    ∀ row ∈ rows, ∀ system < k, row.Holds solution system := by
  induction n generalizing rows solution with
  | zero =>
      rw [List.length_eq_zero_iff.mp hcount]
      nofun
  | succ n ih =>
      rcases exists_pivots hcount hrows with ⟨pivot, others, hpivots, heliminate⟩
      rw [heliminate] at hsolution
      split at hsolution
      · cases hsolution
      · next hpivot =>
        rcases Option.map_eq_some_iff.mp hsolution with ⟨later, hlater, rfl⟩
        have hleading := ne_zero_of_not_le hthreshold hpivot
        have hreduced := ih hpivots.reduced_length hpivots.reduced_sized hlater
        intro row hrow system hsystem
        have hfirst : pivot.Holds (pivot.solve later :: later) system :=
          Row.holds_solve hpivots.pivot_sized hleading hsystem
        rcases List.mem_cons.mp (hpivots.perm.mem_iff.mpr hrow) with rfl | hmem
        · exact hfirst
        · exact Row.holds_of_reduce hpivots.pivot_sized (hpivots.others_sized row hmem) hleading
            hsystem hfirst (List.forall_mem_map.mp hreduced row hmem system hsystem)

/-- A solution has an unknown for each column, with a value for each system. -/
theorem eliminate_sized (hcount : rows.length = n) (hrows : ∀ row ∈ rows, row.Sized n k)
    (hsolution : eliminate threshold n rows = some solution) :
    ∀ unknown ∈ solution, unknown.length = k := by
  induction n generalizing rows solution with
  | zero =>
      cases hsolution
      nofun
  | succ n ih =>
      rcases exists_pivots hcount hrows with ⟨pivot, others, hpivots, heliminate⟩
      rw [heliminate] at hsolution
      split at hsolution
      · cases hsolution
      · rcases Option.map_eq_some_iff.mp hsolution with ⟨later, hlater, rfl⟩
        rw [List.forall_mem_cons]
        refine ⟨?_, ih hpivots.reduced_length hpivots.reduced_sized hlater⟩
        rw [Row.solve, List.length_map, List.length_zipIdx, hpivots.pivot_sized.rightSides]

theorem largerOrLater_eq_max : (largerOrLater : ℝ → ℝ → ℝ) = max := by
  funext a b
  unfold largerOrLater
  rw [max_comm, max_def]

theorem le_foldl_largerOrLater (values : List ℝ) (first : ℝ) :
    first ≤ values.foldl largerOrLater first := by
  induction values generalizing first with
  | nil => exact le_refl first
  | cons value values ih =>
      rw [List.foldl_cons, largerOrLater_eq_max]
      exact (le_max_left first value).trans (largerOrLater_eq_max ▸ ih (max first value))

theorem largestEntry_nonneg (matrix : List (List ℝ)) : 0 ≤ largestEntry matrix := by
  unfold largestEntry
  split
  · rw [Exact.zero_eq]
  · next first rest hentries =>
    have hfirst : first ∈ (entriesByColumn matrix).map Scalar.abs := by
      rw [hentries]
      exact List.mem_cons_self
    rcases List.mem_map.mp hfirst with ⟨entry, -, heq⟩
    have hnonneg : 0 ≤ first := heq ▸ abs_nonneg entry
    exact hnonneg.trans (le_foldl_largerOrLater rest first)

/-! ## Matrices -/

/-- The rows of a matrix as lists. -/
def tableOf {n k : Nat} (matrix : Matrix (Fin n) (Fin k) ℝ) : List (List ℝ) :=
  List.ofFn fun i => List.ofFn (matrix i)

/-- The first entries of a list as a vector. -/
def vectorOf (n : Nat) (values : List ℝ) : Fin n → ℝ :=
  fun i => values.getD i 0

theorem sum_zipWith_ofFn {n : Nat} (coefficients : Fin n → ℝ) {values : List ℝ}
    (hlength : values.length = n) :
    ((List.ofFn coefficients).zipWith (· * ·) values).sum =
      coefficients ⬝ᵥ vectorOf n values := by
  have hzip : (List.ofFn coefficients).zipWith (· * ·) values =
      List.ofFn fun i => coefficients i * vectorOf n values i := by
    apply List.ext_getElem
    · simp [hlength]
    · intro i hi hi'
      have hlt : i < values.length := by simp_all
      simp [vectorOf, hlt]
  rw [hzip, List.sum_ofFn]
  rfl

theorem vectorOf_ofFn (v : Fin n → ℝ) : vectorOf n (List.ofFn v) = v := by
  funext i
  simp [vectorOf]

theorem ofFn_vectorOf {values : List ℝ} (hlength : values.length = n) :
    List.ofFn (vectorOf n values) = values := by
  subst hlength
  apply List.ext_getElem
  · simp
  · intro i hi hi'
    simp [vectorOf, hi']

theorem exists_eq_tableOf {table : List (List ℝ)} (hheight : table.length = n)
    (hwidth : ∀ row ∈ table, row.length = k) :
    ∃ matrix : Matrix (Fin n) (Fin k) ℝ, table = tableOf matrix := by
  subst hheight
  refine ⟨fun i j => table[i].getD j 0, ?_⟩
  apply List.ext_getElem
  · simp [tableOf]
  · intro i hi hi'
    have hrow := hwidth _ (List.getElem_mem hi)
    apply List.ext_getElem
    · simp [tableOf, hrow]
    · intro j hj hj'
      simp [tableOf, hj]

/-- The equations `A X = B`, one for each row. -/
def equations {n k : Nat} (A : Matrix (Fin n) (Fin n) ℝ) (B : Matrix (Fin n) (Fin k) ℝ) :
    List (Row ℝ) :=
  List.ofFn fun i => ⟨List.ofFn (A i), List.ofFn (B i)⟩

variable {A : Matrix (Fin n) (Fin n) ℝ} {B : Matrix (Fin n) (Fin k) ℝ}

theorem length_equations : (equations A B).length = n :=
  List.length_ofFn

theorem equations_sized : ∀ row ∈ equations A B, row.Sized n k := by
  intro row hrow
  rcases List.mem_ofFn.mp hrow with ⟨i, rfl⟩
  exact ⟨List.length_ofFn, List.length_ofFn⟩

theorem threshold_nonneg (matrix : List (List ℝ)) : 0 ≤ singularPivot * largestEntry matrix := by
  rw [singularPivot, Exact.scientific_eq]
  exact mul_nonneg (by norm_num) (largestEntry_nonneg matrix)

/-- A matrix without a nonzero entry is refused at once. -/
theorem solveMatrix_tableOf (A : Matrix (Fin n) (Fin n) ℝ) (B : Matrix (Fin n) (Fin k) ℝ) :
    solveMatrix (tableOf A) (tableOf B) =
      if largestEntry (tableOf A) = 0 then none
      else eliminate (singularPivot * largestEntry (tableOf A)) n (equations A B) := by
  have hequations : (tableOf A).zipWith Row.mk (tableOf B) = equations A B := by
    apply List.ext_getElem
    · simp [tableOf, equations]
    · intro i hi hi'
      simp [tableOf, equations]
  have hheight : (tableOf A).length = n := List.length_ofFn
  unfold solveMatrix
  rw [hequations, hheight]
  simp [Exact.zero_eq]

/-- What is handed out as the solution of a square system solves it. -/
theorem solveMatrix_mul {solution : List (List ℝ)}
    (hsolution : solveMatrix (tableOf A) (tableOf B) = some solution) :
    ∃ X : Matrix (Fin n) (Fin k) ℝ, solution = tableOf X ∧ A * X = B := by
  rw [solveMatrix_tableOf] at hsolution
  split at hsolution
  · cases hsolution
  · rcases exists_eq_tableOf (length_eliminate hsolution)
      (eliminate_sized length_equations equations_sized hsolution) with ⟨X, rfl⟩
    refine ⟨X, rfl, ?_⟩
    have hholds := eliminate_holds (threshold_nonneg _) length_equations equations_sized hsolution
    ext i j
    have hrow : Row.mk (List.ofFn (A i)) (List.ofFn (B i)) ∈ equations A B :=
      List.mem_ofFn.mpr ⟨i, rfl⟩
    have hequation := hholds _ hrow j j.isLt
    have hcolumn : vectorOf n ((tableOf X).map fun unknown => unknown.getD j 0) = X.col j := by
      funext l
      simp [vectorOf, tableOf]
    rw [Row.Holds, Row.total, sum_zipWith_ofFn _ (by simp [tableOf]), hcolumn] at hequation
    rw [Matrix.mul_apply']
    exact hequation.trans (by simp)

/-- A single right side is a table of one column. -/
theorem solve_tableOf (A : Matrix (Fin n) (Fin n) ℝ) (b : Fin n → ℝ) :
    solve (tableOf A) (List.ofFn b) =
      (solveMatrix (tableOf A) (tableOf (Matrix.replicateCol (Fin 1) b))).map fun solution =>
        solution.map fun unknown => unknown.headD 0 := by
  have hcolumn : (List.ofFn b).map (fun value => [value]) =
      tableOf (Matrix.replicateCol (Fin 1) b) := by
    simp [tableOf, List.map_ofFn, Function.comp_def]
  rw [solve, hcolumn, Exact.zero_eq]

theorem solve_mulVec {n : Nat} {matrix : Matrix (Fin n) (Fin n) ℝ} {rightSide : Fin n → ℝ}
    {solution : List ℝ} (hsolution : solve (tableOf matrix) (List.ofFn rightSide) = some solution) :
    solution.length = n ∧ matrix.mulVec (vectorOf n solution) = rightSide := by
  rw [solve_tableOf] at hsolution
  rcases Option.map_eq_some_iff.mp hsolution with ⟨unknowns, hunknowns, rfl⟩
  rcases solveMatrix_mul hunknowns with ⟨X, rfl, hproduct⟩
  refine ⟨by simp [tableOf], ?_⟩
  have hvector : vectorOf n ((tableOf X).map fun unknown => unknown.headD 0) = X.col 0 := by
    funext i
    simp [vectorOf, tableOf]
  rw [hvector]
  funext i
  exact congrFun₂ hproduct i 0

end

end ImplicitDynamics.Linear
