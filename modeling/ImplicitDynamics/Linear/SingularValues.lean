import ImplicitDynamics.Linear.Bidiagonal

/-!
# Singular values

The matrix is reduced to its diagonal and the one above it.  Then rotations of
rows and columns, shifted by an eigenvalue of the last two rows, make the
entries above the diagonal small, until the block that remains has two rows,
whose singular values are given by a formula.  Entries are measured against
the largest one, so that what is below the rounding of it counts as zero.  A
matrix that does not come apart in a fixed number of steps has no singular
values to offer.
-/

namespace ImplicitDynamics.Linear

variable {α : Type} [Scalar α]

namespace Bidiagonal

/-- Number of steps after which the iteration gives up. -/
def maxSteps : Nat := 1000

/-- The eigenvalue of the symmetric matrix with the diagonal `a`, `d` and `b`
beside it that is nearer to `d`. -/
def nearerEigenvalue (a d b : α) : α :=
  let squared := b * b
  if Scalar.same squared 0 then d
  else
    let half := (a - d) * 0.5
    let root := Scalar.sqrt (half * half + squared)
    d - squared / (half + if half < 0 then -root else root)

/-- The first column of the product of a block with its transpose, shifted by
an eigenvalue of the last two rows of the product. -/
def shiftVector (band : Bidiagonal α) (first last : Nat) : α × α :=
  let before := band.diagonalAt (last - 1)
  let corner := band.diagonalAt last
  let link := band.aboveAt last
  let shift := nearerEigenvalue
    (before * before + band.aboveAt (last - 1) * band.aboveAt (last - 1))
    (corner * corner + link * link) (before * link)
  let start := band.diagonalAt first
  (start * start - shift, start * band.aboveAt (first + 1))

/-- Rotates columns `k` and `k + 1` along a vector, and then rows `k` and
`k + 1` so that the entry below the diagonal vanishes.  What comes out is the
vector in row `k` along which the next two columns are rotated. -/
def chase (first : Nat) (band : Bidiagonal α) (v : α × α) (k : Nat) :
    Bidiagonal α × α × α :=
  let columns := Rotation.ofVector v.1 v.2
  let (corner, beside) := columns.coordinates (band.diagonalAt k) (band.aboveAt (k + 1))
  let (below, next) := columns.coordinates 0 (band.diagonalAt (k + 1))
  let rows := Rotation.ofVector corner below
  let (above, diagonal) := rows.coordinates beside next
  let (bulge, link) := rows.coordinates 0 (band.aboveAt (k + 2))
  let entered := if first < k then band.setAbove k (signedLength v.1 v.2) else band
  let turned :=
    ((entered.setDiagonal k (signedLength corner below)).setDiagonal (k + 1) diagonal).setAbove
      (k + 1) above
  (turned.setAbove (k + 2) link, above, bulge)

/-- One step on a block of at least three rows. -/
def shiftedStep (band : Bidiagonal α) (first last : Nat) : Bidiagonal α :=
  ((List.range' first (last - first)).foldl (fun (band, v) k => chase first band v k)
    (band, band.shiftVector first last)).1

/-- Replaces a block of two rows by its singular values. -/
def solvePair (band : Bidiagonal α) (row : Nat) : Bidiagonal α :=
  let a := band.diagonalAt row
  let d := band.diagonalAt (row + 1)
  let beside := band.aboveAt (row + 1)
  let total := hypotenuse (a + d) beside + hypotenuse (a - d) beside
  ((band.setDiagonal row (a * d * 2 / total)).setDiagonal (row + 1) (0.5 * total)).setAbove
    (row + 1) 0

/-- Splits off rows from the end, `fuel` times at most. -/
def splitRows : (fuel : Nat) → (first last : Nat) → Bidiagonal α → Option (Bidiagonal α)
  | 0, _, _, _ => none
  | fuel + 1, first, last, band =>
    if first = last then some band
    else
      let (next, first, last) :=
        if first + 1 < last then (band.shiftedStep first last).activeBlock last
        else (band.solvePair first).activeBlock (last - 1)
      splitRows fuel first last next

end Bidiagonal

/-- The singular values of a square matrix given by rows, in no particular
order; none if the iteration gives up. -/
def singularValues (matrix : List (List α)) : List α :=
  let grid := Grid.ofRows matrix
  let largest := grid.largest
  let scale := if Scalar.same largest 0 then 1 else largest
  let reduced := Bidiagonal.ofGrid (grid.map fun x => x / scale)
  let (start, first, last) := reduced.activeBlock (grid.size - 1)
  match start.splitRows Bidiagonal.maxSteps first last with
  | none => []
  | some band => band.diagonal.toList.map fun x => Scalar.abs (x * scale)

end ImplicitDynamics.Linear
