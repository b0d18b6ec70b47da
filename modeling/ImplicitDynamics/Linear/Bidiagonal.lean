import ImplicitDynamics.Linear.Grid

/-!
# Grids with entries on the diagonal and next to it

Reflections of rows and columns leave the singular values of a grid as they
are and clear all entries but those on the diagonal and those above it.  Such
a grid falls apart where an entry above the diagonal is too small to count,
and where one on the diagonal is: rotations then clear the rest of its row or
of its column.
-/

namespace ImplicitDynamics.Linear

variable {α : Type} [Scalar α]

namespace Grid

/-- Clears column `k` below the diagonal, where its length is left. -/
def clearBelow (grid : Grid α) (k : Nat) : Grid α :=
  let count := grid.size - k
  match Reflection.ofVector? (grid.columnPart k k count) with
  | none => grid.setColumn k k (List.replicate count 0)
  | some reflection =>
    (grid.reflectColumns reflection.axis reflection.sign k (k + 1)).setColumn k k
      (Scalar.abs reflection.norm :: List.replicate (count - 1) 0)

/-- Clears row `k` right of the entry next to the diagonal, where its length is
left. -/
def clearRight (grid : Grid α) (k : Nat) : Grid α :=
  let count := grid.size - (k + 1)
  match Reflection.ofVector? (grid.rowPart k (k + 1) count) with
  | none => grid.setRow k (k + 1) (List.replicate count 0)
  | some reflection =>
    (grid.reflectRows reflection.axis reflection.sign grid.size (k + 1)).setRow k (k + 1)
      (Scalar.abs reflection.norm :: List.replicate (count - 1) 0)

end Grid

/-- A grid by its columns: the entries on the diagonal, and the entries above
them.  The first column has none above, which counts as zero. -/
structure Bidiagonal (α : Type) where
  diagonal : Array α
  above : Array α

namespace Bidiagonal

def ofGrid (grid : Grid α) : Bidiagonal α :=
  let columns := List.range grid.size
  let reduced := columns.foldl (fun grid k => (grid.clearBelow k).clearRight k) grid
  ⟨(columns.map fun k => reduced.get k k).toArray,
    (columns.map fun
      | 0 => 0
      | k + 1 => reduced.get k (k + 1)).toArray⟩

def size (band : Bidiagonal α) : Nat :=
  band.diagonal.size

def diagonalAt (band : Bidiagonal α) (column : Nat) : α :=
  band.diagonal.getD column 0

def aboveAt (band : Bidiagonal α) (column : Nat) : α :=
  band.above.getD column 0

def setDiagonal (band : Bidiagonal α) (column : Nat) (value : α) : Bidiagonal α :=
  { band with diagonal := band.diagonal.setIfInBounds column value }

def setAbove (band : Bidiagonal α) (column : Nat) (value : α) : Bidiagonal α :=
  { band with above := band.above.setIfInBounds column value }

/-- Rotates a row without an entry on the diagonal into the rows below it, each
of which takes over what the row holds in its column.  `spill` is the entry in
column `column`, the first of `count`. -/
def spillRight : (count column : Nat) → (spill : α) → Bidiagonal α → Bidiagonal α
  | 0, _, _, band => band
  | count + 1, column, spill, band =>
    let rotation := Rotation.ofVector (band.diagonalAt column) spill
    let (kept, next) := rotation.coordinates (band.aboveAt (column + 1)) 0
    spillRight count (column + 1) next
      ((band.setDiagonal column (signedLength (band.diagonalAt column) spill)).setAbove
        (column + 1) kept)

/-- Rotates a column without an entry on the diagonal into the columns before
it, each of which takes over what the column holds in its row.  `spill` is the
entry in the last of `rows` rows. -/
def spillUp : (rows : Nat) → (spill : α) → Bidiagonal α → Bidiagonal α
  | 0, _, band => band
  | row + 1, spill, band =>
    let rotation := Rotation.ofVector (band.diagonalAt row) spill
    let (kept, next) := rotation.coordinates (band.aboveAt row) 0
    spillUp row next
      ((band.setDiagonal row (signedLength (band.diagonalAt row) spill)).setAbove row kept)

/-- Clears a row whose entry on the diagonal is zero, in a block with the last
row `last`. -/
def clearRow (band : Bidiagonal α) (row last : Nat) : Bidiagonal α :=
  spillRight (last - row) (row + 1) (band.aboveAt (row + 1)) (band.setAbove (row + 1) 0)

/-- Clears a column whose entry on the diagonal is zero. -/
def clearColumn (band : Bidiagonal α) (column : Nat) : Bidiagonal α :=
  spillUp column (band.aboveAt column) (band.setAbove column 0)

/-- Clears the row and the column of an entry on the diagonal that is too small
to count, in a block with the last row `last`. -/
def clearCross (band : Bidiagonal α) (k last : Nat) : Bidiagonal α :=
  ((band.setDiagonal k 0).clearRow k last).clearColumn k

/-- An entry on the diagonal is no larger than the rounding of one. -/
def isNull (band : Bidiagonal α) (k : Nat) : Bool :=
  decide (Scalar.abs (band.diagonalAt k) ≤ Scalar.epsilon)

/-- The entry above the diagonal is small against the entries below it and
before it, which are on the diagonal. -/
def isSmall (band : Bidiagonal α) (column : Nat) : Bool :=
  decide (Scalar.abs (band.aboveAt column) ≤ Scalar.epsilon *
    (Scalar.abs (band.diagonalAt column) + Scalar.abs (band.diagonalAt (column - 1))))

/-- The last row of the active block, at most `row`; it is split from the rows
below it. -/
def lastActive (band : Bidiagonal α) : (row : Nat) → Bidiagonal α × Nat
  | 0 => (band, 0)
  | row + 1 =>
    if band.isSmall (row + 1) then (band.setAbove (row + 1) 0).lastActive row
    else if band.isNull row then (band.clearCross row (row + 1)).lastActive row
    else if band.isNull (row + 1) then
      ((band.setDiagonal (row + 1) 0).clearColumn (row + 1)).lastActive row
    else (band, row + 1)

/-- The first row of the active block with the last row `last`, at most `row`;
it is split from the rows above it. -/
def firstActive (last : Nat) (band : Bidiagonal α) : (row : Nat) → Bidiagonal α × Nat
  | 0 => (band, 0)
  | row + 1 =>
    if band.isSmall (row + 1) then (band.setAbove (row + 1) 0, row + 1)
    else if band.isNull row then (band.clearCross row last, row + 1)
    else band.firstActive last row

/-- The active block that ends at row `row` or before. -/
def activeBlock (band : Bidiagonal α) (row : Nat) : Bidiagonal α × Nat × Nat :=
  match band.lastActive row with
  | (band, 0) => (band, 0, 0)
  | (band, last + 1) =>
    let (band, first) := band.firstActive (last + 1) last
    (band, first, last + 1)

end Bidiagonal

end ImplicitDynamics.Linear
