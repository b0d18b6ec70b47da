import ImplicitDynamics.Scalar

/-!
# Grids of numbers with rotations and reflections

A square grid is transformed in place by two kinds of orthogonal maps: a
reflection along a unit axis, and a rotation in the plane of two coordinates.
-/

namespace ImplicitDynamics.Linear

structure Grid (α : Type) where
  rows : Array (Array α)

namespace Grid

variable {α : Type} [Scalar α]

def ofRows (rows : List (List α)) : Grid α :=
  ⟨(rows.map List.toArray).toArray⟩

def size (grid : Grid α) : Nat :=
  grid.rows.size

def get (grid : Grid α) (i j : Nat) : α :=
  (grid.rows.getD i #[]).getD j 0

def set (grid : Grid α) (i j : Nat) (value : α) : Grid α :=
  ⟨grid.rows.modify i fun row => row.setIfInBounds j value⟩

def map (f : α → α) (grid : Grid α) : Grid α :=
  ⟨grid.rows.map fun row => row.map f⟩

def entries (grid : Grid α) : List α :=
  grid.rows.toList.flatMap Array.toList

def largest (grid : Grid α) : α :=
  grid.entries.foldl (fun largest entry => Scalar.max largest (Scalar.abs entry)) 0

/-- The products of two lists, added up from the left. -/
def dot (u v : List α) : α :=
  Scalar.sum (u.zipWith (· * ·) v)

/-- Replaces the part of a column from row `i` on. -/
def setColumn (grid : Grid α) (i j : Nat) (values : List α) : Grid α :=
  values.zipIdx.foldl (fun grid (value, k) => grid.set (i + k) j value) grid

/-- Replaces the part of a row from column `j` on. -/
def setRow (grid : Grid α) (i j : Nat) (values : List α) : Grid α :=
  values.zipIdx.foldl (fun grid (value, k) => grid.set i (j + k) value) grid

def columnPart (grid : Grid α) (i j count : Nat) : List α :=
  (List.range count).map fun k => grid.get (i + k) j

def rowPart (grid : Grid α) (i j count : Nat) : List α :=
  (List.range count).map fun k => grid.get i (j + k)

/-- The vector `sign · (v - 2 (axis · v) axis)`. -/
def reflect (axis : List α) (sign : α) (v : List α) : List α :=
  let factor := -2 * sign * dot axis v
  v.zipWith (fun x a => sign * x + factor * a) axis

/-- Reflects the columns from column `j` on; the axis starts at row `i`. -/
def reflectColumns (grid : Grid α) (axis : List α) (sign : α) (i j : Nat) : Grid α :=
  (List.range (grid.size - j)).foldl
    (fun grid k =>
      grid.setColumn i (j + k) (reflect axis sign (grid.columnPart i (j + k) axis.length)))
    grid

/-- Reflects the first `count` rows; the axis starts at column `j`. -/
def reflectRows (grid : Grid α) (axis : List α) (sign : α) (count j : Nat) : Grid α :=
  (List.range count).foldl
    (fun grid i => grid.setRow i j (reflect axis sign (grid.rowPart i j axis.length)))
    grid

end Grid

def hypotenuse {α : Type} [Scalar α] (x y : α) : α :=
  Scalar.sqrt (x * x + y * y)

/-- The length of `(x, y)` with the sign of `x`, which is `x` itself on the
first axis. -/
def signedLength {α : Type} [Scalar α] (x y : α) : α :=
  if Scalar.same y 0 then x
  else if x < 0 then -hypotenuse x y
  else hypotenuse x y

structure Rotation (α : Type) where
  cosine : α
  sine : α

namespace Rotation

variable {α : Type} [Scalar α]

/-- The rotation from the first axis to the line through `(x, y)`; none at all
for a vector without length. -/
def ofVector (x y : α) : Rotation α :=
  let sign : α := if x < 0 then -1 else 1
  let length := hypotenuse x y
  if 0 < length then ⟨Scalar.abs x / length, y / (sign * length)⟩ else ⟨1, 0⟩

def coordinates (rotation : Rotation α) (a b : α) : α × α :=
  (a * rotation.cosine + rotation.sine * b, -rotation.sine * a + b * rotation.cosine)

end Rotation

namespace Grid

variable {α : Type} [Scalar α]

/-- Turns rows `i` and `i + 1`, from column `i` on. -/
def rotateRows (grid : Grid α) (rotation : Rotation α) (i : Nat) : Grid α :=
  (List.range' i (grid.size - i)).foldl
    (fun grid j =>
      let (a, b) := rotation.coordinates (grid.get i j) (grid.get (i + 1) j)
      (grid.set i j a).set (i + 1) j b)
    grid

/-- Turns columns `j` and `j + 1` of the first `count` rows. -/
def rotateColumns (grid : Grid α) (rotation : Rotation α) (count j : Nat) : Grid α :=
  (List.range count).foldl
    (fun grid i =>
      let (a, b) := rotation.coordinates (grid.get i j) (grid.get i (j + 1))
      (grid.set i j a).set i (j + 1) b)
    grid

end Grid

/-- The reflection that moves a vector onto its first coordinate. -/
structure Reflection (α : Type) where
  axis : List α
  norm : α

/-- The sign of the first coordinate after the reflection. -/
def Reflection.sign {α : Type} [Scalar α] (reflection : Reflection α) : α :=
  if reflection.norm < 0 then -1 else 1

/-- The unit axis that reflects a vector onto a multiple of the first unit
vector, and that multiple; `none` for a vector of length zero. -/
def Reflection.ofVector? {α : Type} [Scalar α] (v : List α) : Option (Reflection α) :=
  match v with
  | [] => none
  | first :: rest =>
    let squared := Grid.dot v v
    let norm := Scalar.sqrt squared
    let signed := if first < 0 then -norm else norm
    let factor := (squared + Scalar.abs first * norm) * 2
    if Scalar.same factor 0 then none
    else
      let scaled := ((first + signed) :: rest).map fun x => x / Scalar.sqrt factor
      let length := Scalar.sqrt (Grid.dot scaled scaled)
      some ⟨scaled.map fun x => x / length, -signed⟩

end ImplicitDynamics.Linear
