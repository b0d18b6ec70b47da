import ImplicitDynamics.Analysis.Report
import ImplicitDynamics.Linear.Elimination
import ImplicitDynamics.Linear.SingularValues

/-!
# Numbers from the Jacobian

The eigenvalues of a system are those of the ordinary differential equation
that remains when the algebraic variables are eliminated.  With `F_y` and
`F_y'` the Jacobians, `D` the differential and `A` the algebraic variables,
the state matrix is the upper part of the solution of

    [F_y'(:, D) | F_y(:, A)] · [∂y'_D ; ∂y_A] = -F_y(:, D).

Jacobians are lists of columns here.
-/

namespace ImplicitDynamics.Spectrum

variable {α : Type} [Scalar α]

/-- The columns whose variable is algebraic, or those whose variable is not. -/
def columnsWhere (algebraic : List Bool) (flag : Bool) (columns : List (List α)) :
    List (List α) :=
  ((columns.zip algebraic).filter fun (_, isAlgebraic) => isAlgebraic = flag).map Prod.fst

/-- The state matrix by rows; `none` without differential variables and when
the algebraic variables cannot be eliminated. -/
def reducedJacobian (fy fyp : List (List α)) (algebraic : List Bool) :
    Option (List (List α)) :=
  let differential := columnsWhere algebraic false fyp
  if differential.isEmpty then none
  else
    let n := algebraic.length
    let matrix := differential ++ columnsWhere algebraic true fy
    let rightSides := (columnsWhere algebraic false fy).map fun column => column.map (-·)
    (Linear.solveMatrix (Linear.rowsOfColumns n matrix)
      (Linear.rowsOfColumns n rightSides)).map fun solution =>
        solution.take differential.length

def conditioning (threshold : α) (jacobian : List (List α)) : Conditioning α :=
  if !jacobian.flatten.all Scalar.isFinite then .unavailable
  else
    match Linear.singularValues (Linear.rowsOfColumns jacobian.length jacobian) with
    | [] => .unavailable
    | first :: rest =>
      let largest := rest.foldl Scalar.max first
      let smallest := rest.foldl Scalar.min first
      if smallest < threshold then .nearlySingular else .number (largest / smallest)

/-- The largest over the smallest rate of decay among the eigenvalues; zero
unless at least two decay. -/
def stiffnessRatio (eigenvalues : List (Linear.Eigenvalue α)) : α :=
  let rates := (eigenvalues.filter fun z => decide (z.re < 0)).map fun z => Scalar.abs z.re
  match rates with
  | first :: second :: rest =>
    (second :: rest).foldl Scalar.max first / (second :: rest).foldl Scalar.min first
  | _ => 0

end ImplicitDynamics.Spectrum
