import ImplicitDynamics.Proofs.Graphs
import ImplicitDynamics.Proofs.Matching
import ImplicitDynamics.Structure.Index
import Mathlib.Data.List.Forall2
import Mathlib.Data.List.GetD
import Mathlib.Logic.Equiv.Fin.Basic

/-!
# The structural index under other numbers

Variables and rows may be numbered in another way.  Each round then sees the
same constraints with the same dependencies, written with other numbers, as
long as the constraints come in the same order; which of them are matched is a
matter of which sets of constraints can be matched, so every round does the
same.

The order of the constraints does matter from the second round on, since it
decides which constraint is the one too many.  Whether there is a second round
does not depend on it.
-/

namespace ImplicitDynamics

namespace StructuralIndex

namespace Incidence

variable {incidence : Incidence} {row column : Nat}

theorem mem_getD {lists : List (List Nat)} {n : Nat} (hmem : n ∈ lists.getD column []) :
    column < lists.length := by
  by_contra hge
  simp [Nat.le_of_not_lt hge] at hmem

theorem mem_rowDependencies :
    column ∈ incidence.rowDependencies row ↔ row ∈ incidence.stateRows.getD column [] := by
  simp only [rowDependencies, List.mem_filter, List.mem_range, List.contains_iff_mem,
    and_iff_right_iff_imp]
  exact mem_getD

theorem hasDerivative_iff :
    incidence.hasDerivative row = true ↔
      ∃ column, row ∈ incidence.derivativeRows.getD column [] := by
  simp only [hasDerivative, List.any_eq_true, List.contains_iff_mem]
  constructor
  · rintro ⟨rows, hrows, hrow⟩
    obtain ⟨column, hlt, rfl⟩ := List.getElem_of_mem hrows
    exact ⟨column, by simpa [hlt] using hrow⟩
  · rintro ⟨column, hrow⟩
    have hlt := mem_getD hrow
    exact ⟨incidence.derivativeRows[column], List.getElem_mem hlt, by simpa [hlt] using hrow⟩

theorem mem_differentiate {dependencies : List Nat} :
    column ∈ incidence.differentiate dependencies ↔
      ∃ index ∈ dependencies,
        (incidence.isAlgebraic index = true ∧ column = index) ∨
        (incidence.isAlgebraic index = false ∧
          ∃ row ∈ incidence.derivativeRows.getD index [],
            column ∈ incidence.rowDependencies row) := by
  simp only [differentiate, mem_ascending, List.mem_flatMap]
  constructor
  · rintro ⟨index, hindex, hcolumn⟩
    refine ⟨index, hindex, ?_⟩
    cases halgebraic : incidence.isAlgebraic index with
    | true => simp_all
    | false => simp_all
  · rintro ⟨index, hindex, ⟨halgebraic, rfl⟩ | ⟨halgebraic, hrows⟩⟩
    · exact ⟨column, hindex, by simp [halgebraic]⟩
    · exact ⟨index, hindex, by simpa [halgebraic] using hrows⟩

def candidates (incidence : Incidence) (constraints : List (List Nat)) : List (List Nat) :=
  constraints.map fun dependencies => dependencies.filter incidence.isAlgebraic

theorem matched_eq (constraints : List (List Nat)) :
    incidence.matched constraints = (List.range constraints.length).map fun k =>
      decide (k ∈ Matching.chosen (incidence.candidates constraints)
        incidence.algebraic.length constraints.length) := by
  have hlength : (incidence.candidates constraints).length = constraints.length :=
    List.length_map _
  unfold matched
  apply List.map_congr_left
  intro k _
  rw [← hlength, Bool.eq_iff_iff, List.contains_iff_mem, decide_eq_true_iff]
  exact Matching.mem_owners_iff

/-- No constraint has to be differentiated exactly if all can be matched. -/
theorem all_matched_iff (constraints : List (List Nat)) :
    (incidence.matched constraints).all id = true ↔
      Matching.Matchable (incidence.candidates constraints) incidence.algebraic.length
        (Finset.range constraints.length) := by
  rw [← Matching.chosen_eq_range_iff, matched_eq]
  constructor
  · intro hall
    apply Finset.Subset.antisymm (Matching.chosen_subset_range _)
    intro k hk
    simpa using List.all_eq_true.mp hall _ (List.mem_map_of_mem (by simpa using hk))
  · intro hchosen
    simp [hchosen]

/-- Two systems differ in the numbers of their variables and rows only.  Outside
the range of these numbers nothing depends on anything. -/
structure Renumbered (σ τ : Equiv.Perm Nat) (first second : Incidence) : Prop where
  size : second.algebraic.length = first.algebraic.length
  variable_lt : ∀ {j}, σ j < first.algebraic.length ↔ j < first.algebraic.length
  row_lt : ∀ {r}, τ r < first.algebraic.length ↔ r < first.algebraic.length
  algebraic : ∀ {j}, second.isAlgebraic (σ j) = first.isAlgebraic j
  state : ∀ {j r}, τ r ∈ second.stateRows.getD (σ j) [] ↔ r ∈ first.stateRows.getD j []
  derivative : ∀ {j r},
    τ r ∈ second.derivativeRows.getD (σ j) [] ↔ r ∈ first.derivativeRows.getD j []

/-- Two sets of variables are the same under other numbers. -/
def Image (σ : Equiv.Perm Nat) (dependencies others : List Nat) : Prop :=
  ∀ j, σ j ∈ others ↔ j ∈ dependencies

variable {σ τ : Equiv.Perm Nat} {first second : Incidence}

theorem Renumbered.symm (hrenumbered : Renumbered σ τ first second) :
    Renumbered σ.symm τ.symm second first where
  size := hrenumbered.size.symm
  variable_lt {j} := by
    rw [hrenumbered.size, ← hrenumbered.variable_lt, Equiv.apply_symm_apply]
  row_lt {r} := by
    rw [hrenumbered.size, ← hrenumbered.row_lt, Equiv.apply_symm_apply]
  algebraic {j} := by
    rw [← hrenumbered.algebraic, Equiv.apply_symm_apply]
  state {j r} := by
    rw [← hrenumbered.state, Equiv.apply_symm_apply, Equiv.apply_symm_apply]
  derivative {j r} := by
    rw [← hrenumbered.derivative, Equiv.apply_symm_apply, Equiv.apply_symm_apply]

theorem Image.symm {dependencies others : List Nat} (himage : Image σ dependencies others) :
    Image σ.symm others dependencies := by
  intro j
  rw [← himage, Equiv.apply_symm_apply]

theorem Renumbered.image_rowDependencies (hrenumbered : Renumbered σ τ first second)
    (row : Nat) : Image σ (first.rowDependencies row) (second.rowDependencies (τ row)) := by
  intro j
  rw [mem_rowDependencies, mem_rowDependencies, hrenumbered.state]

theorem Renumbered.hasDerivative_eq (hrenumbered : Renumbered σ τ first second) (row : Nat) :
    second.hasDerivative (τ row) = first.hasDerivative row := by
  rw [Bool.eq_iff_iff, hasDerivative_iff, hasDerivative_iff]
  constructor
  · rintro ⟨j, hrow⟩
    refine ⟨σ.symm j, hrenumbered.derivative.mp ?_⟩
    rwa [Equiv.apply_symm_apply]
  · rintro ⟨j, hrow⟩
    exact ⟨σ j, hrenumbered.derivative.mpr hrow⟩

theorem Renumbered.image_differentiate (hrenumbered : Renumbered σ τ first second)
    {dependencies others : List Nat} (himage : Image σ dependencies others) :
    Image σ (first.differentiate dependencies) (second.differentiate others) := by
  intro j
  rw [mem_differentiate, mem_differentiate]
  constructor
  · rintro ⟨i, hi, hcases⟩
    obtain ⟨i, rfl⟩ := σ.surjective i
    refine ⟨i, (himage i).mp hi, ?_⟩
    rw [hrenumbered.algebraic] at hcases
    rcases hcases with ⟨halgebraic, heq⟩ | ⟨halgebraic, row, hrow, hj⟩
    · exact .inl ⟨halgebraic, σ.injective heq⟩
    · obtain ⟨row, rfl⟩ := τ.surjective row
      exact .inr ⟨halgebraic, row, hrenumbered.derivative.mp hrow,
        (hrenumbered.image_rowDependencies row j).mp hj⟩
  · rintro ⟨i, hi, hcases⟩
    refine ⟨σ i, (himage i).mpr hi, ?_⟩
    rw [hrenumbered.algebraic]
    rcases hcases with ⟨halgebraic, rfl⟩ | ⟨halgebraic, row, hrow, hj⟩
    · exact .inl ⟨halgebraic, rfl⟩
    · exact .inr ⟨halgebraic, τ row, hrenumbered.derivative.mpr hrow,
        (hrenumbered.image_rowDependencies row j).mpr hj⟩

variable {constraints others : List (List Nat)}

theorem mem_candidates_getD {k j : Nat} :
    j ∈ (incidence.candidates constraints).getD k [] ↔
      j ∈ constraints.getD k [] ∧ incidence.isAlgebraic j = true := by
  by_cases hk : k < constraints.length
  · simp [candidates, hk]
  · simp [candidates, Nat.le_of_not_lt hk]

theorem image_getD (himages : List.Forall₂ (Image σ) constraints others) (k : Nat) :
    Image σ (constraints.getD k []) (others.getD k []) := by
  obtain ⟨hlength, himages⟩ := List.forall₂_iff_get.mp himages
  by_cases hk : k < constraints.length
  · have hk' : k < others.length := hlength ▸ hk
    simpa [hk, hk'] using himages k hk hk'
  · have hk' : ¬ k < others.length := hlength ▸ hk
    simp [Image, Nat.le_of_not_lt hk, Nat.le_of_not_lt hk']

theorem Renumbered.matchable_of_matchable (hrenumbered : Renumbered σ τ first second)
    (himages : List.Forall₂ (Image σ) constraints others) {rows : Finset Nat}
    (hmatchable : Matching.Matchable (first.candidates constraints)
      first.algebraic.length rows) :
    Matching.Matchable (second.candidates others) second.algebraic.length rows := by
  obtain ⟨column, hcolumn, hinjective⟩ := hmatchable
  refine ⟨σ ∘ column, fun k hk => ?_, σ.injective.comp_injOn hinjective⟩
  obtain ⟨hlisted, hlt⟩ := hcolumn k hk
  rw [mem_candidates_getD] at hlisted ⊢
  rw [hrenumbered.size]
  refine ⟨⟨(image_getD himages k _).mpr hlisted.1, ?_⟩, hrenumbered.variable_lt.mpr hlt⟩
  exact hrenumbered.algebraic.trans hlisted.2

theorem Renumbered.matched_eq (hrenumbered : Renumbered σ τ first second)
    (himages : List.Forall₂ (Image σ) constraints others) :
    second.matched others = first.matched constraints := by
  have hlength := himages.length_eq
  have hback : List.Forall₂ (Image σ.symm) others constraints :=
    himages.flip.imp fun _ _ himage => Image.symm himage
  have hchosen := Matching.chosen_congr
    (fun rows => ⟨hrenumbered.matchable_of_matchable himages,
      hrenumbered.symm.matchable_of_matchable hback⟩) constraints.length
  rw [Incidence.matched_eq, Incidence.matched_eq, ← hlength, hchosen]

/-- A round keeps the constraints of both systems the same. -/
theorem Renumbered.round (hrenumbered : Renumbered σ τ first second)
    (himages : List.Forall₂ (Image σ) constraints others) (done : List Bool) :
    List.Forall₂ (Image σ)
      (constraints.zipWith
        (fun dependencies isDone =>
          if isDone then dependencies else first.differentiate dependencies) done)
      (others.zipWith
        (fun dependencies isDone =>
          if isDone then dependencies else second.differentiate dependencies) done) := by
  induction himages generalizing done with
  | nil => simp
  | cons himage _ ih =>
      cases done with
      | nil => simp
      | cons isDone done =>
          refine .cons ?_ (ih done)
          cases isDone with
          | true => exact himage
          | false => exact hrenumbered.image_differentiate himage

theorem Renumbered.advance_eq (hrenumbered : Renumbered σ τ first second)
    (himages : List.Forall₂ (Image σ) constraints others) (rounds index : Nat) :
    second.advance rounds index others = first.advance rounds index constraints := by
  induction rounds generalizing index constraints others with
  | zero => rfl
  | succ rounds ih =>
      simp only [advance, hrenumbered.matched_eq himages]
      rw [ih (hrenumbered.round himages _)]

def constraintRows (incidence : Incidence) : List Nat :=
  (List.range incidence.algebraic.length).filter fun row => !incidence.hasDerivative row

theorem mem_constraintRows {row : Nat} : row ∈ incidence.constraintRows ↔
    row < incidence.algebraic.length ∧ incidence.hasDerivative row = false := by
  simp [constraintRows]

theorem constraintRows_pairwise (incidence : Incidence) :
    incidence.constraintRows.Pairwise (· < ·) :=
  List.pairwise_lt_range.filter _

theorem constraints_eq (incidence : Incidence) :
    incidence.constraints = incidence.constraintRows.map incidence.rowDependencies :=
  rfl

theorem Renumbered.mem_constraintRows_iff (hrenumbered : Renumbered σ τ first second)
    {row : Nat} : τ row ∈ second.constraintRows ↔ row ∈ first.constraintRows := by
  rw [mem_constraintRows, mem_constraintRows, hrenumbered.size, hrenumbered.row_lt,
    hrenumbered.hasDerivative_eq]

/-- The rows without a derivative come in the same order under both numbers. -/
def KeepsOrder (τ : Equiv.Perm Nat) (rows : List Nat) : Prop :=
  ∀ row ∈ rows, ∀ other ∈ rows, row < other → τ row < τ other

theorem Renumbered.constraintRows_eq (hrenumbered : Renumbered σ τ first second)
    (horder : KeepsOrder τ first.constraintRows) :
    second.constraintRows = first.constraintRows.map τ := by
  have hfirst := first.constraintRows_pairwise
  have hsecond := second.constraintRows_pairwise
  have hmap : (first.constraintRows.map τ).Pairwise (· < ·) :=
    List.pairwise_map.mpr (hfirst.imp_of_mem fun hrow hother hlt => horder _ hrow _ hother hlt)
  have hmem : ∀ row, row ∈ second.constraintRows ↔ row ∈ first.constraintRows.map τ := by
    intro row
    obtain ⟨row, rfl⟩ := τ.surjective row
    rw [hrenumbered.mem_constraintRows_iff, List.mem_map_of_injective τ.injective]
  have hperm := (List.perm_ext_iff_of_nodup (hsecond.imp Nat.ne_of_lt)
    (hmap.imp Nat.ne_of_lt)).mpr hmem
  exact hperm.eq_of_pairwise (fun _ _ _ _ hlt hgt => absurd hlt (Nat.lt_asymm hgt)) hsecond hmap

theorem Renumbered.image_constraints (hrenumbered : Renumbered σ τ first second)
    (horder : KeepsOrder τ first.constraintRows) :
    List.Forall₂ (Image σ) first.constraints second.constraints := by
  rw [constraints_eq, constraints_eq, hrenumbered.constraintRows_eq horder, List.map_map,
    List.forall₂_map_left_iff, List.forall₂_map_right_iff, List.forall₂_same]
  intro row _
  exact hrenumbered.image_rowDependencies row

/-- Every row without a derivative can be assigned an algebraic variable that it
depends on, no two the same. -/
def Assignable (incidence : Incidence) : Prop :=
  ∃ variableOf : Nat → Nat,
    (∀ row ∈ incidence.constraintRows, variableOf row ∈ incidence.rowDependencies row ∧
      incidence.isAlgebraic (variableOf row) = true) ∧
    ∀ row ∈ incidence.constraintRows, ∀ other ∈ incidence.constraintRows,
      variableOf row = variableOf other → row = other

theorem lt_of_isAlgebraic {index : Nat} (halgebraic : incidence.isAlgebraic index = true) :
    index < incidence.algebraic.length := by
  by_contra hge
  simp [isAlgebraic, Nat.le_of_not_lt hge] at halgebraic

theorem assignable_iff_matchable :
    incidence.Assignable ↔
      Matching.Matchable (incidence.candidates incidence.constraints)
        incidence.algebraic.length (Finset.range incidence.constraints.length) := by
  have hlength : incidence.constraints.length = incidence.constraintRows.length :=
    List.length_map _
  have hnodup : incidence.constraintRows.Nodup :=
    incidence.constraintRows_pairwise.imp Nat.ne_of_lt
  have hdependencies : ∀ k (hk : k < incidence.constraintRows.length),
      incidence.constraints.getD k [] =
        incidence.rowDependencies incidence.constraintRows[k] := by
    intro k hk
    simp [constraints_eq, hk]
  constructor
  · rintro ⟨variableOf, hvariable, hinjective⟩
    refine ⟨fun k => variableOf (incidence.constraintRows.getD k 0), fun k hk => ?_,
      fun k hk k' hk' heq => ?_⟩
    · have hk : k < incidence.constraintRows.length := hlength ▸ Finset.mem_range.mp hk
      obtain ⟨hlisted, halgebraic⟩ := hvariable _ (List.getElem_mem hk)
      simp only [mem_candidates_getD, hdependencies k hk, List.getD_eq_getElem _ _ hk]
      exact ⟨⟨hlisted, halgebraic⟩, lt_of_isAlgebraic halgebraic⟩
    · have hk : k < incidence.constraintRows.length := hlength ▸ Finset.mem_range.mp hk
      have hk' : k' < incidence.constraintRows.length := hlength ▸ Finset.mem_range.mp hk'
      simp only [List.getD_eq_getElem _ _ hk, List.getD_eq_getElem _ _ hk'] at heq
      exact hnodup.getElem_inj_iff.mp
        (hinjective _ (List.getElem_mem hk) _ (List.getElem_mem hk') heq)
  · rintro ⟨column, hcolumn, hinjective⟩
    have hindex : ∀ {row}, row ∈ incidence.constraintRows →
        incidence.constraintRows.idxOf row ∈ Finset.range incidence.constraints.length := by
      intro row hrow
      rw [Finset.mem_range, hlength]
      exact List.idxOf_lt_length_of_mem hrow
    refine ⟨fun row => column (incidence.constraintRows.idxOf row), fun row hrow => ?_,
      fun row hrow other hother heq => ?_⟩
    · obtain ⟨hlisted, -⟩ := hcolumn _ (hindex hrow)
      rw [mem_candidates_getD, hdependencies _ (List.idxOf_lt_length_of_mem hrow),
        List.getElem_idxOf] at hlisted
      exact hlisted
    · exact (List.idxOf_inj hrow).mp (hinjective (hindex hrow) (hindex hother) heq)

theorem Renumbered.assignable_of_assignable (hrenumbered : Renumbered σ τ first second)
    (hassignable : first.Assignable) : second.Assignable := by
  obtain ⟨variableOf, hvariable, hinjective⟩ := hassignable
  refine ⟨fun row => σ (variableOf (τ.symm row)), fun row hrow => ?_,
    fun row hrow other hother heq => ?_⟩
  · obtain ⟨row, rfl⟩ := τ.surjective row
    rw [hrenumbered.mem_constraintRows_iff] at hrow
    obtain ⟨hlisted, halgebraic⟩ := hvariable row hrow
    simp only [Equiv.symm_apply_apply, hrenumbered.algebraic]
    exact ⟨(hrenumbered.image_rowDependencies row _).mpr hlisted, halgebraic⟩
  · obtain ⟨row, rfl⟩ := τ.surjective row
    obtain ⟨other, rfl⟩ := τ.surjective other
    rw [hrenumbered.mem_constraintRows_iff] at hrow hother
    have heq := σ.injective heq
    rw [Equiv.symm_apply_apply, Equiv.symm_apply_apply] at heq
    rw [hinjective row hrow other hother heq]

theorem le_advance (rounds index : Nat) (constraints : List (List Nat)) :
    index ≤ incidence.advance rounds index constraints := by
  induction rounds generalizing index constraints with
  | zero => exact Nat.le_refl index
  | succ rounds ih =>
      simp only [advance]
      split
      · exact Nat.le_refl index
      · exact Nat.le_of_succ_le (ih (index + 1) _)

end Incidence

/-- The index is one exactly if it may not be larger or if no constraint has to
be differentiated. -/
theorem compute_eq_one_iff_assignable (incidence : Incidence) (maxIndex : Nat) :
    compute incidence maxIndex = 1 ↔ maxIndex ≤ 1 ∨ incidence.Assignable := by
  rw [Incidence.assignable_iff_matchable, ← Incidence.all_matched_iff, compute]
  cases hrounds : maxIndex - 1 with
  | zero =>
      have hle : maxIndex ≤ 1 := by omega
      simp [Incidence.advance, hle]
  | succ rounds =>
      have hlt : ¬ maxIndex ≤ 1 := by omega
      simp only [Incidence.advance, hlt, false_or]
      split
      · next hall => simp [hall]
      · next hall =>
        constructor
        · intro heq
          exact absurd heq (Nat.ne_of_gt (Incidence.le_advance rounds 2 _))
        · intro hall'
          exact absurd hall' hall

/-! ## Permutations of the variables and the rows -/

def IsTable (n : Nat) (lists : List (List Nat)) : Prop :=
  lists.length = n ∧ ∀ rows ∈ lists, ∀ row ∈ rows, row < n

structure Incidence.WellFormed (n : Nat) (incidence : Incidence) : Prop where
  algebraic : incidence.algebraic.length = n
  state : IsTable n incidence.stateRows
  derivative : IsTable n incidence.derivativeRows

variable {n : Nat} {σ τ : Equiv.Perm (Fin n)} {first second : Incidence}

/-- Variable `j` of the first system is variable `σ j` of the second and row `r`
of the first is row `τ r` of the second. -/
structure Renumbers (σ τ : Equiv.Perm (Fin n)) (first second : Incidence) : Prop where
  algebraic : ∀ j, second.isAlgebraic (σ j) = first.isAlgebraic j
  state : ∀ j r, (τ r).val ∈ second.stateRows.getD (σ j) [] ↔
    r.val ∈ first.stateRows.getD j []
  derivative : ∀ j r, (τ r).val ∈ second.derivativeRows.getD (σ j) [] ↔
    r.val ∈ first.derivativeRows.getD j []

/-- A permutation of the numbers below `n` that leaves the others alone. -/
def onNat (σ : Equiv.Perm (Fin n)) : Equiv.Perm Nat :=
  σ.extendDomain Fin.equivSubtype

theorem onNat_of_lt {j : Nat} (hj : j < n) : onNat σ j = σ ⟨j, hj⟩ :=
  Equiv.Perm.extendDomain_apply_subtype σ Fin.equivSubtype hj

theorem onNat_of_not_lt {j : Nat} (hj : ¬ j < n) : onNat σ j = j :=
  Equiv.Perm.extendDomain_apply_not_subtype σ Fin.equivSubtype hj

theorem onNat_lt {j : Nat} : onNat σ j < n ↔ j < n := by
  by_cases hj : j < n
  · rw [onNat_of_lt hj]
    exact iff_of_true (σ ⟨j, hj⟩).isLt hj
  · rw [onNat_of_not_lt hj]

theorem IsTable.lt {lists : List (List Nat)} (htable : IsTable n lists) {j row : Nat}
    (hrow : row ∈ lists.getD j []) : j < n ∧ row < n := by
  have hj := Incidence.mem_getD hrow
  rw [List.getD_eq_getElem _ _ hj] at hrow
  exact ⟨htable.1 ▸ hj, htable.2 _ (List.getElem_mem hj) row hrow⟩

theorem IsTable.mem_iff {lists others : List (List Nat)} (hlists : IsTable n lists)
    (hothers : IsTable n others)
    (hmem : ∀ j r : Fin n, (τ r).val ∈ others.getD (σ j) [] ↔ r.val ∈ lists.getD j [])
    {j r : Nat} : onNat τ r ∈ others.getD (onNat σ j) [] ↔ r ∈ lists.getD j [] := by
  by_cases hlt : j < n ∧ r < n
  · rw [onNat_of_lt hlt.1, onNat_of_lt hlt.2]
    exact hmem ⟨j, hlt.1⟩ ⟨r, hlt.2⟩
  · refine iff_of_false (fun hr => hlt ?_) (fun hr => hlt (hlists.lt hr))
    obtain ⟨hj, hr⟩ := hothers.lt hr
    exact ⟨onNat_lt.mp hj, onNat_lt.mp hr⟩

theorem Renumbers.renumbered (hfirst : first.WellFormed n) (hsecond : second.WellFormed n)
    (hrenumbers : Renumbers σ τ first second) :
    Incidence.Renumbered (onNat σ) (onNat τ) first second where
  size := hsecond.algebraic.trans hfirst.algebraic.symm
  variable_lt := by
    rw [hfirst.algebraic]
    exact onNat_lt
  row_lt := by
    rw [hfirst.algebraic]
    exact onNat_lt
  algebraic {j} := by
    by_cases hj : j < n
    · rw [onNat_of_lt hj]
      exact hrenumbers.algebraic ⟨j, hj⟩
    · have hfirstLe : first.algebraic.length ≤ j := hfirst.algebraic ▸ Nat.le_of_not_lt hj
      have hsecondLe : second.algebraic.length ≤ j := hsecond.algebraic ▸ Nat.le_of_not_lt hj
      rw [onNat_of_not_lt hj, Incidence.isAlgebraic, Incidence.isAlgebraic,
        List.getD_eq_default _ _ hfirstLe, List.getD_eq_default _ _ hsecondLe]
  state := hfirst.state.mem_iff hsecond.state hrenumbers.state
  derivative := hfirst.derivative.mem_iff hsecond.derivative hrenumbers.derivative

/-- Other numbers for the variables and the rows do not change the index if the
rows without a derivative stay in order, and never change whether it is one. -/
theorem compute_renumbers (hfirst : first.WellFormed n) (hsecond : second.WellFormed n)
    (hrenumbers : Renumbers σ τ first second) (maxIndex : Nat) :
    ((∀ r s : Fin n, first.hasDerivative r = false → first.hasDerivative s = false →
        r < s → τ r < τ s) →
      compute second maxIndex = compute first maxIndex) ∧
    (compute second maxIndex = 1 ↔ compute first maxIndex = 1) := by
  have hrenumbered := hrenumbers.renumbered hfirst hsecond
  constructor
  · intro horder
    have hkeeps : Incidence.KeepsOrder (onNat τ) first.constraintRows := by
      intro row hrow other hother hlt
      obtain ⟨hrowLt, hrow⟩ := Incidence.mem_constraintRows.mp hrow
      obtain ⟨hotherLt, hother⟩ := Incidence.mem_constraintRows.mp hother
      rw [hfirst.algebraic] at hrowLt hotherLt
      rw [onNat_of_lt hrowLt, onNat_of_lt hotherLt]
      exact horder ⟨row, hrowLt⟩ ⟨other, hotherLt⟩ hrow hother hlt
    exact hrenumbered.advance_eq (hrenumbered.image_constraints hkeeps) _ _
  · rw [compute_eq_one_iff_assignable, compute_eq_one_iff_assignable]
    exact or_congr_right
      ⟨hrenumbered.symm.assignable_of_assignable, hrenumbered.assignable_of_assignable⟩

/-- Two constraints for the algebraic variable `0`: row `a` depends on variable
`2` besides and row `b` on variable `3`.  The derivative of `3` depends on the
algebraic variable `1`, that of `2` on nothing. -/
def contested (a b : Nat) : Incidence :=
  ⟨[[0, 1], [3], [a], [b]], [[], [], [2], [3]], [true, true, false, false]⟩

theorem contested_wellFormed :
    (contested 0 1).WellFormed 4 ∧ (contested 1 0).WellFormed 4 := by
  refine ⟨⟨rfl, ⟨rfl, by decide⟩, ⟨rfl, by decide⟩⟩, ⟨rfl, ⟨rfl, by decide⟩, ⟨rfl, by decide⟩⟩⟩

theorem compute_renumbers_contested :
    let other : Incidence :=
      ⟨[[2], [0, 1], [0], [1]], [[], [], [3], [2]], [true, true, false, false]⟩
    Renumbers (n := 4) (Equiv.swap 0 1) (Equiv.swap 2 3) (contested 0 1) other ∧
      compute other 4 = compute (contested 0 1) 4 := by
  intro other
  have hwellFormed : other.WellFormed 4 := ⟨rfl, ⟨rfl, by decide⟩, ⟨rfl, by decide⟩⟩
  have hrenumbers :
      Renumbers (n := 4) (Equiv.swap 0 1) (Equiv.swap 2 3) (contested 0 1) other :=
    ⟨by decide, by decide, by decide⟩
  exact ⟨hrenumbers,
    (compute_renumbers contested_wellFormed.1 hwellFormed hrenumbers 4).1 (by decide)⟩

/-- The constraint that comes first is matched.  The other one is
differentiated, and only the one with variable `3` gains a variable by that. -/
theorem compute_contested_swapped :
    (contested 0 1).WellFormed 4 ∧ (contested 1 0).WellFormed 4 ∧
      Renumbers (n := 4) (Equiv.refl _) (Equiv.swap 0 1) (contested 0 1) (contested 1 0) ∧
      compute (contested 0 1) 4 = 2 ∧ compute (contested 1 0) 4 = 4 := by
  refine ⟨contested_wellFormed.1, contested_wellFormed.2, ⟨by decide, by decide, by decide⟩, ?_, ?_⟩
  · decide
  · decide

end StructuralIndex

end ImplicitDynamics
