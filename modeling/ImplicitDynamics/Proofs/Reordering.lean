import ImplicitDynamics.Proofs.Relocation
import Mathlib.Tactic.ByContra

/-!
# Systems with other numbers

Two systems may differ in their numbers only: the same names stand in other
places, programs refer to these places, and each equation has the number of its
variable.  Then the rows of the one are the rows of the other, in other places,
wherever the values of the variables are rearranged in the same way.
-/

namespace ImplicitDynamics

variable {α : Type}

namespace CompiledSystem

/-- The other system has the same variables, parameters and equations; variable
and equation `i` of the one are number `place i` of the other. -/
structure Reorders (place : Equiv.Perm Nat) (system other : CompiledSystem α) : Prop where
  dimension : other.dimension = system.dimension
  fixed : ∀ i, system.dimension ≤ i → place i = i
  vars : ∀ i, other.vars.name? (place i) = system.vars.name? i
  parameters : other.parameters = system.parameters
  equations : ∀ i, other.equations[place i]? =
    system.equations[i]?.map (Equation.relocate place)

theorem Reorders.symm {place : Equiv.Perm Nat} {system other : CompiledSystem α}
    (horder : Reorders place system other) : Reorders place.symm other system where
  dimension := horder.dimension.symm
  fixed i hi := by
    rw [horder.dimension] at hi
    rw [Equiv.symm_apply_eq, horder.fixed i hi]
  vars i := by
    have hvars := horder.vars (place.symm i)
    rw [Equiv.apply_symm_apply] at hvars
    exact hvars.symm
  parameters := horder.parameters.symm
  equations i := by
    have hequations := horder.equations (place.symm i)
    rw [Equiv.apply_symm_apply] at hequations
    have hback := Equation.relocate_inverse (α := α) place.symm_apply_apply
    rw [hequations, Option.map_map]
    cases system.equations[place.symm i]? with
    | none => rfl
    | some equation => exact congrArg some (hback equation).symm

end CompiledSystem

variable [Scalar α]

/-- The values of the variables, each in the new place of its variable. -/
def rearrange (place : Equiv.Perm Nat) (values : List α) : List α :=
  (List.range values.length).map fun i => values.getD (place.symm i) 0

section

variable {place : Equiv.Perm Nat} {values : List α} {n : Nat}

theorem length_rearrange (place : Equiv.Perm Nat) (values : List α) :
    (rearrange place values).length = values.length := by
  simp [rearrange]

theorem place_lt_iff (hfixed : ∀ i, n ≤ i → place i = i) (i : Nat) : place i < n ↔ i < n := by
  constructor
  · intro hplace
    by_contra hle
    rw [hfixed i (Nat.not_lt.mp hle)] at hplace
    exact hle hplace
  · intro hlt
    by_contra hle
    have hsame : place i = i := place.injective (hfixed (place i) (Nat.not_lt.mp hle))
    rw [hsame] at hle
    exact hle hlt

theorem getElem?_rearrange (hfixed : ∀ i, values.length ≤ i → place i = i) (i : Nat) :
    (rearrange place values)[place i]? = values[i]? := by
  by_cases hlt : i < values.length
  · have hplace := (place_lt_iff hfixed i).mpr hlt
    simp [rearrange, hplace, hlt]
  · have hle := Nat.not_lt.mp hlt
    rw [hfixed i hle, List.getElem?_eq_none hle]
    exact List.getElem?_eq_none (by rwa [length_rearrange])

theorem rearrange_symm (hfixed : ∀ i, values.length ≤ i → place i = i) :
    rearrange place.symm (rearrange place values) = values := by
  have hback : ∀ i, (rearrange place values).length ≤ i → place.symm i = i := by
    intro i hi
    rw [length_rearrange] at hi
    rw [Equiv.symm_apply_eq, hfixed i hi]
  apply List.ext_getElem?
  intro i
  have hfirst := getElem?_rearrange hback (place i)
  rw [Equiv.symm_apply_apply] at hfirst
  exact hfirst.trans (getElem?_rearrange hfixed i)

theorem load_rearrange (hfixed : ∀ i, values.length ≤ i → place i = i) (i : Nat) :
    Machine.load (rearrange place values) (place i) = Machine.load values i := by
  unfold Machine.load
  rw [getElem?_rearrange hfixed, length_rearrange]
  by_cases hlt : i < values.length
  · rw [List.getElem?_eq_getElem hlt]
  · rw [hfixed i (Nat.not_lt.mp hlt)]

end

namespace CompiledSystem

/-- The residuals succeed or fail together on the same values of the variables, and
have the same rows, each in the place of its equation. -/
def AgreesAt (place : Equiv.Perm Nat) (system other : CompiledSystem α) : Prop :=
  ∀ (t : α) (y yp out slots : List α), slots.length = out.length →
    let written := system.toResidual.residual t y yp out
    let moved := other.toResidual.residual t (rearrange place y) (rearrange place yp) slots
    (moved.failure = none ↔ written.failure = none) ∧
      (written.failure = none → moved.out = rearrange place written.out)

namespace Reorders

variable {place : Equiv.Perm Nat} {system other : CompiledSystem α}

theorem bindings (horder : Reorders place system other) (t : α) {y yp : List α}
    (hy : y.length = system.dimension) (hyp : yp.length = system.dimension) :
    (system.bindings t y yp).Relocates place
      (other.bindings t (rearrange place y) (rearrange place yp)) where
  time := rfl
  state := load_rearrange (hy ▸ horder.fixed)
  derivatives := load_rearrange (hyp ▸ horder.fixed)
  parameters := congrArg ParameterMap.values horder.parameters

theorem rows (horder : Reorders place system other) {t : α} {y yp values : List α}
    (hy : y.length = system.dimension) (hyp : yp.length = system.dimension)
    (hrows : system.RowsAre (system.bindings t y yp) values) :
    other.RowsAre (other.bindings t (rearrange place y) (rearrange place yp))
      (rearrange place values) := by
  have hlength : values.length = system.dimension := hrows.length_eq.symm
  have hbindings := horder.bindings t hy hyp
  rw [RowsAre, List.forall₂_iff_get]
  refine ⟨?_, fun j hj hvalue => ?_⟩
  · rw [length_rearrange, hlength]
    exact horder.dimension
  -- the row in place `j` comes from the one that `place` takes there
  rcases place.surjective j with ⟨i, rfl⟩
  have hequation := horder.equations i
  rw [List.getElem?_eq_getElem hj, eq_comm, Option.map_eq_some_iff] at hequation
  rcases hequation with ⟨equation, hfound, hmoved⟩
  rcases List.getElem?_eq_some_iff.mp hfound with ⟨hi, rfl⟩
  have hslot := getElem?_rearrange (hlength ▸ horder.fixed) i
  rw [List.getElem?_eq_getElem hvalue, eq_comm] at hslot
  rcases List.getElem?_eq_some_iff.mp hslot with ⟨hlt, hkept⟩
  have hrow := (Equation.row_relocate hbindings system.equations[i]).trans (hrows.get hi hlt)
  rw [hmoved] at hrow
  exact hrow.trans (congrArg Except.ok hkept)

/-- Rows that are there are also there in other places. -/
theorem residual (horder : Reorders place system other) {t : α} {y yp out slots : List α}
    (hslots : slots.length = out.length)
    (hwritten : (system.toResidual.residual t y yp out).failure = none) :
    other.toResidual.residual t (rearrange place y) (rearrange place yp) slots =
      ⟨rearrange place (system.toResidual.residual t y yp out).out, none⟩ := by
  rcases rows_of_residual hwritten with ⟨hy, hyp, hout, hrows⟩
  have hdimension := horder.dimension.symm
  have hmoved := horder.rows hy hyp hrows
  exact residual_of_rows ((length_rearrange place y).trans (hy.trans hdimension))
    ((length_rearrange place yp).trans (hyp.trans hdimension))
    (hslots.trans (hout.trans hdimension)) hmoved

theorem agrees (horder : Reorders place system other) : AgreesAt place system other := by
  intro t y yp out slots hslots written moved
  have hforth : written.failure = none → moved = ⟨rearrange place written.out, none⟩ :=
    fun hwritten => horder.residual hslots hwritten
  refine ⟨⟨fun hmoved => ?_, fun hwritten => ?_⟩, fun hwritten => ?_⟩
  · -- the rows of the other system, put back
    rcases rows_of_residual hmoved with ⟨hy, hyp, -, -⟩
    rw [length_rearrange, horder.dimension] at hy hyp
    have hback := horder.symm.residual hslots.symm hmoved
    rw [rearrange_symm (hy ▸ horder.fixed), rearrange_symm (hyp ▸ horder.fixed)] at hback
    exact congrArg Written.failure hback
  · exact congrArg Written.failure (hforth hwritten)
  · exact congrArg Written.out (hforth hwritten)

end Reorders

end CompiledSystem

end ImplicitDynamics
