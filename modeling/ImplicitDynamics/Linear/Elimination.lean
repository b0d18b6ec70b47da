import ImplicitDynamics.Scalar

/-!
# Linear systems

Gaussian elimination with partial pivoting.  The pivot of a column is its
first entry of largest magnitude; it changes places with the entry on top.  A
pivot that is small against the largest entry of the whole matrix marks the
matrix as singular.

Matrices are lists of rows here.
-/

namespace ImplicitDynamics.Linear

/-- One equation of a linear system, with one right side per system that is
solved at the same time. -/
structure Row (α : Type) where
  coefficients : List α
  rightSides : List α

variable {α : Type} [Scalar α]

/-- Pivots of smaller magnitude, relative to the largest entry, count as
zero. -/
def singularPivot : α := 1e-12

def entriesByColumn (matrix : List (List α)) : List α :=
  (List.range (matrix.headD []).length).flatMap fun j => matrix.map fun row => row.getD j 0

/-- The larger of two values; if they cannot be compared, the second. -/
def largerOrLater (a b : α) : α :=
  if b ≤ a then a else b

/-- The largest magnitude among the entries, looked for column by column.  An
entry that is not a number takes the place of those before it, and gives way to
the next. -/
def largestEntry (matrix : List (List α)) : α :=
  match (entriesByColumn matrix).map Scalar.abs with
  | [] => 0
  | first :: rest => rest.foldl largerOrLater first

/-- The first of the columns that are not yet eliminated. -/
def Row.leading (row : Row α) : α :=
  row.coefficients.headD 0

/-- Position of the row with the largest leading entry; `best` is the
magnitude at position `place`, and `next` is the position of the first row. -/
def largestLeading (best : α) (place next : Nat) : List (Row α) → Nat
  | [] => place
  | row :: rest =>
    if best < Scalar.abs row.leading then
      largestLeading (Scalar.abs row.leading) next (next + 1) rest
    else largestLeading best place (next + 1) rest

/-- The pivot row and the other rows, among which the top row stands where the
pivot row was. -/
def choosePivot (top : Row α) (rest : List (Row α)) : Row α × List (Row α) :=
  match largestLeading (Scalar.abs top.leading) 0 1 rest with
  | 0 => (top, rest)
  | place + 1 => (rest.getD place top, rest.set place top)

/-- Subtracts the multiple of the pivot row that clears the leading entry, and
drops that entry. -/
def Row.reduce (pivot row : Row α) : Row α :=
  let factor := row.leading * (1 / pivot.leading)
  let subtract (p x : α) : α := x - p * factor
  { coefficients := pivot.coefficients.tail.zipWith subtract row.coefficients.tail
    rightSides := pivot.rightSides.zipWith subtract row.rightSides }

/-- The unknown of a pivot row from those that come after it, which are
subtracted from the last to the first. -/
def Row.solve (pivot : Row α) (solution : List (List α)) : List α :=
  pivot.rightSides.zipIdx.map fun (value, system) =>
    let later := solution.map fun unknown => unknown.getD system 0
    let rest := (pivot.coefficients.tail.zip later).foldr
      (fun (coefficient, x) total => total - x * coefficient) value
    rest / pivot.leading

/-- The unknowns of `n` equations, or `none` when a pivot does not exceed the
threshold. -/
def eliminate (threshold : α) : (n : Nat) → List (Row α) → Option (List (List α))
  | 0, _ => some []
  | _ + 1, [] => none
  | n + 1, top :: rest =>
    let (pivot, others) := choosePivot top rest
    if Scalar.abs pivot.leading ≤ threshold then none
    else
      (eliminate threshold n (others.map pivot.reduce)).map fun solution =>
        pivot.solve solution :: solution

/-- Solves for a matrix of right sides; the solution is given by rows.  There
is none when the matrix is singular. -/
def solveMatrix (matrix rightSides : List (List α)) : Option (List (List α)) :=
  let scale := largestEntry matrix
  if !Scalar.isFinite scale || Scalar.same scale 0 then none
  else
    eliminate (singularPivot * scale) matrix.length (matrix.zipWith Row.mk rightSides)

def solve (matrix : List (List α)) (rightSide : List α) : Option (List α) :=
  (solveMatrix matrix (rightSide.map fun value => [value])).map fun solution =>
    solution.map fun unknown => unknown.headD 0

/-- The rows of a matrix that is given by columns of the same height. -/
def rowsOfColumns (height : Nat) (columns : List (List α)) : List (List α) :=
  (List.range height).map fun row => columns.map fun column => column.getD row 0

end ImplicitDynamics.Linear
