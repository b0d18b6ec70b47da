import ImplicitDynamics.Scalar

/-!
# Norms of lists

The Euclidean norm, and the weighted root of the mean square in which step
errors are measured.
-/

namespace ImplicitDynamics.Linear

variable {α : Type} [Scalar α]

def l2Norm (values : List α) : α :=
  Scalar.sqrt (Scalar.sum (values.map fun v => v * v))

/-- `sqrt (mean ((v / w) ^ 2))`, the mean over all values; zero without
values. -/
def wrmsNorm (values weights : List α) : α :=
  if values.isEmpty then 0
  else
    let squares := values.zipWith (fun v w => (v / w) * (v / w)) weights
    Scalar.sqrt (Scalar.sum squares / Scalar.ofNat values.length)

end ImplicitDynamics.Linear
