import ImplicitDynamics.Residual

/-!
# Residuals and their buffers

A residual writes into a buffer that it is handed and leaves its length as it
is.  A system that is given by a function writes all rows at once, provided that
the point and the buffer have the length of the system.
-/

namespace ImplicitDynamics

/-- The buffer, unless the residual failed. -/
def Written.outcome {α : Type} (written : Written α) : Except (EvalError α) (List α) :=
  match written.failure with
  | none => .ok written.out
  | some cause => .error cause

namespace ResidualSystem

variable {α : Type} {n : Nat} {y yp out : List α} {t : α}

theorem mismatch?_eq_none_iff :
    mismatch? n y yp out = none ↔ y.length = n ∧ yp.length = n ∧ out.length = n := by
  simp [mismatch?]

/-- Evaluating the residual leaves the length of the buffer as it is. -/
def FillsBuffer (system : ResidualSystem α) : Prop :=
  ∀ t y yp out, (system.residual t y yp out).out.length = out.length

theorem FillsBuffer.length_evaluate [Scalar α] {system : ResidualSystem α}
    (hsystem : system.FillsBuffer) {residual : List α}
    (hevaluate : system.evaluate t y yp = .ok residual) : residual.length = system.dimension := by
  unfold evaluate at hevaluate
  simp only at hevaluate
  split at hevaluate
  · cases hevaluate
    rw [hsystem, List.length_replicate]
  · cases hevaluate

/-- A residual is the same whatever the buffer held before, and so is the reason
for a failure. -/
structure IgnoresBuffer [Scalar α] (system : ResidualSystem α) : Prop where
  fillsBuffer : system.FillsBuffer
  outcome : ∀ {t y yp out}, out.length = system.dimension →
    (system.residual t y yp out).outcome = system.evaluate t y yp

variable {f : α → List α → List α → List α → List α}

theorem residual_ofFunction (hy : y.length = n) (hyp : yp.length = n) (hout : out.length = n) :
    (ofFunction n f).residual t y yp out = ⟨f t y yp out, none⟩ := by
  simp only [ofFunction, mismatch?_eq_none_iff.mpr ⟨hy, hyp, hout⟩]

theorem ofFunction_fillsBuffer
    (hf : ∀ {t y yp out}, y.length = n → yp.length = n → out.length = n →
      (f t y yp out).length = n) : (ofFunction n f).FillsBuffer := by
  intro t y yp out
  simp only [ofFunction]
  split
  · rfl
  · next hmatch =>
    rcases mismatch?_eq_none_iff.mp hmatch with ⟨hy, hyp, hout⟩
    rw [hf hy hyp hout, hout]

variable [Scalar α]

theorem exists_of_evaluate_ofFunction {residual : List α}
    (hresidual : (ofFunction n f).evaluate t y yp = .ok residual) :
    ∃ out, residual = f t y yp out := by
  unfold evaluate ofFunction at hresidual
  cases hmatch : mismatch? n y yp (List.replicate n 0) with
  | some cause =>
      simp only [hmatch] at hresidual
      cases hresidual
  | none =>
      simp only [hmatch] at hresidual
      cases hresidual
      exact ⟨_, rfl⟩

theorem affine_fillsBuffer {a b : List (List α)} {c : List α} (ha : a.length = c.length)
    (hb : b.length = c.length) : (affine a b c).FillsBuffer :=
  ofFunction_fillsBuffer fun _ _ _ => by simp [ha, hb]

end ResidualSystem

end ImplicitDynamics
