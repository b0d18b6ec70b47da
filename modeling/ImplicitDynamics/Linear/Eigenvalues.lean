import ImplicitDynamics.Linear.Grid

/-!
# Eigenvalues of a square matrix

The matrix is reduced to Hessenberg form by reflections.  Then implicit double
shifts by the eigenvalues of the last block of two rows make the subdiagonal
small from the bottom up, until only blocks of one and two rows are left.  A
block of two rows with real eigenvalues is rotated into two blocks of one row.
A matrix whose subdiagonal does not become small in a fixed number of steps
has no eigenvalues to offer.
-/

namespace ImplicitDynamics.Linear

structure Eigenvalue (α : Type) where
  re : α
  im : α
  deriving Repr

/-- The distance from zero.  The larger part is taken out of the root, so that
no square overflows. -/
def Eigenvalue.modulus {α : Type} [Scalar α] (z : Eigenvalue α) : α :=
  let larger := Scalar.max (Scalar.abs z.re) (Scalar.abs z.im)
  if Scalar.same larger 0 then 0
  else
    let re := z.re / larger
    let im := z.im / larger
    larger * Scalar.sqrt (re * re + im * im)

namespace Grid

variable {α : Type} [Scalar α]

/-- Number of steps after which the iteration gives up. -/
def maxSteps : Nat := 1000

/-- Clears column `column` below its subdiagonal entry, which becomes the
length of what was there. -/
def clearColumn (grid : Grid α) (column : Nat) : Grid α :=
  let below := grid.size - (column + 1)
  match Reflection.ofVector? (grid.columnPart (column + 1) column below) with
  | none => grid.setColumn (column + 1) column (List.replicate below 0)
  | some reflection =>
    let turned :=
      (grid.reflectRows reflection.axis reflection.sign grid.size (column + 1)).reflectColumns
        reflection.axis reflection.sign (column + 1) (column + 1)
    turned.setColumn (column + 1) column
      (Scalar.abs reflection.norm :: List.replicate (below - 1) 0)

/-- A similar grid without entries below the subdiagonal. -/
def hessenberg (grid : Grid α) : Grid α :=
  (List.range (grid.size - 1)).foldl clearColumn grid

/-- A subdiagonal entry is small against its two neighbours on the diagonal,
which count as no smaller than the rounding of one. -/
def isSmall (grid : Grid α) (row : Nat) : Bool :=
  let neighbours :=
    Scalar.abs (grid.get row row) + Scalar.abs (grid.get (row - 1) (row - 1))
  decide (Scalar.abs (grid.get row (row - 1)) ≤
    Scalar.epsilon * Scalar.max neighbours Scalar.epsilon)

/-- The last row of the active block, at most `row`; the subdiagonal below it
is cleared. -/
def lastActive (grid : Grid α) : (row : Nat) → Grid α × Nat
  | 0 => (grid, 0)
  | row + 1 =>
    if grid.isSmall (row + 1) then (grid.set (row + 1) row 0).lastActive row
    else (grid, row + 1)

/-- The first row of the active block, at most `row`; the subdiagonal entry
before it is cleared. -/
def firstActive (grid : Grid α) : (row : Nat) → Grid α × Nat
  | 0 => (grid, 0)
  | row + 1 =>
    if Scalar.same (grid.get (row + 1) row) 0 || grid.isSmall (row + 1) then
      (grid.set (row + 1) row 0, row + 1)
    else grid.firstActive row

/-- The active block that ends at row `row` or before. -/
def activeBlock (grid : Grid α) (row : Nat) : Grid α × Nat × Nat :=
  match grid.lastActive row with
  | (grid, 0) => (grid, 0, 0)
  | (grid, last + 1) =>
    let (grid, first) := grid.firstActive last
    (grid, first, last + 1)

/-- The first column of the double shift by the eigenvalues of the last two
rows of a block. -/
def shiftVector (grid : Grid α) (first last : Nat) : List α :=
  let before := last - 1
  let h11 := grid.get first first
  let h12 := grid.get first (first + 1)
  let h21 := grid.get (first + 1) first
  let h22 := grid.get (first + 1) (first + 1)
  let h32 := grid.get (first + 2) (first + 1)
  let trace := grid.get last last + grid.get before before
  let determinant := grid.get last last * grid.get before before -
    grid.get last before * grid.get before last
  [h11 * h11 + h12 * h21 - trace * h11 + determinant, h21 * (h11 + h22 - trace), h21 * h32]

/-- Reflects along `v`, which starts at row `row` of a block.  Except at the
start of the block the reflection moves the column before onto its first
entry. -/
def chase (grid : Grid α) (first last row : Nat) (v : List α) : Grid α :=
  match Reflection.ofVector? v with
  | none => grid
  | some reflection =>
    let cleared :=
      if first < row then
        grid.setColumn row (row - 1) (reflection.norm :: List.replicate (v.length - 1) 0)
      else grid
    (cleared.reflectColumns reflection.axis 1 row row).reflectRows reflection.axis 1
      (min (row + 4) (last + 1)) row

/-- One double step on a block of at least three rows. -/
def doubleStep (grid : Grid α) (first last : Nat) : Grid α :=
  let rows := List.range' first (last - 1 - first)
  let (chased, v) := rows.foldl
    (fun (grid, v) row =>
      let next := grid.chase first last row v
      (next, next.columnPart (row + 1) row (min 3 (last - row))))
    (grid, grid.shiftVector first last)
  chased.chase first last (last - 1) (v.take 2)

/-- Half the trace of two rows, and what its square exceeds their determinant
by. -/
def trace (grid : Grid α) (row : Nat) : α × α :=
  let a := grid.get row row
  let d := grid.get (row + 1) (row + 1)
  let difference := (a - d) * 0.5
  ((a + d) * 0.5, grid.get (row + 1) row * grid.get row (row + 1) + difference * difference)

/-- Rotates two rows with real eigenvalues so that the entry below the diagonal
vanishes; the rows end the block of the first `row + 2`. -/
def decouple (grid : Grid α) (row : Nat) : Grid α :=
  let below := grid.get (row + 1) row
  let (middle, discriminant) := grid.trace row
  if Scalar.same below 0 || !decide (0 ≤ discriminant) then grid
  else
    let root := Scalar.sqrt discriminant
    let corner := grid.get (row + 1) (row + 1)
    let upper := middle + root - corner
    let lower := middle - root - corner
    let rotation := Rotation.ofVector
      (if Scalar.abs lower < Scalar.abs upper then upper else lower) below
    ((grid.rotateRows rotation row).rotateColumns rotation (row + 2) row).set (row + 1) row 0

/-- Splits off blocks of one and two rows from the end, `fuel` times at
most. -/
def splitBlocks : (fuel : Nat) → (first last : Nat) → Grid α → Option (Grid α)
  | 0, _, _, _ => none
  | fuel + 1, first, last, grid =>
    if first = last then some grid
    else if first + 1 < last then
      let (next, first, last) := (grid.doubleStep first last).activeBlock last
      splitBlocks fuel first last next
    else
      let split := grid.decouple first
      if last ≤ 2 then some split
      else
        let (next, first, last) := split.activeBlock (last - 2)
        splitBlocks fuel first last next

/-- The complex eigenvalues of two rows: the sum and the difference of a real
and an imaginary number. -/
def pair (grid : Grid α) (row : Nat) : List (Eigenvalue α) :=
  let (middle, discriminant) := grid.trace row
  let root := Scalar.sqrt (-discriminant)
  [⟨middle + 0, 0 + root⟩, ⟨middle - 0, 0 - root⟩]

/-- The eigenvalues of `count` rows that are split into blocks, from row `row`
on. -/
def blockEigenvalues (grid : Grid α) : (count row : Nat) → List (Eigenvalue α)
  | 0, _ => []
  | 1, row => [⟨grid.get row row, 0⟩]
  | count + 2, row =>
    if Scalar.same (grid.get (row + 1) row) 0 then
      ⟨grid.get row row, 0⟩ :: grid.blockEigenvalues (count + 1) (row + 1)
    else grid.pair row ++ grid.blockEigenvalues count (row + 2)

/-- A similar grid of blocks of one and two rows, the latter with complex
eigenvalues.  A large grid is scaled by its largest entry meanwhile. -/
def blockForm? (grid : Grid α) : Option (Grid α) :=
  match grid.size with
  | 0 => some grid
  | 1 => some grid
  | 2 => some (grid.decouple 0)
  | size =>
    let largest := grid.largest
    let scale := if Scalar.same largest 0 then 1 else largest
    let reduced := (grid.map fun x => x / scale).hessenberg
    let (start, first, last) := reduced.activeBlock (size - 1)
    (splitBlocks maxSteps first last start).map fun blocks => blocks.map fun x => x * scale

end Grid

/-- The finite eigenvalues of a matrix given by rows; none if an entry is not
finite or the iteration gives up. -/
def eigenvalues {α : Type} [Scalar α] (matrix : List (List α)) : List (Eigenvalue α) :=
  if matrix.isEmpty || !matrix.flatten.all Scalar.isFinite then []
  else
    match (Grid.ofRows matrix).blockForm? with
    | none => []
    | some blocks =>
      (blocks.blockEigenvalues matrix.length 0).filter fun z =>
        Scalar.isFinite z.re && Scalar.isFinite z.im

end ImplicitDynamics.Linear
