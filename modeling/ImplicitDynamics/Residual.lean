import ImplicitDynamics.Expression.Fault
import ImplicitDynamics.Scalar

/-!
# Systems in residual form

A differential-algebraic system of dimension `n` is a function
`F(t, y, y')` with `n` components; a solution makes all of them zero.

Evaluating the residual writes its rows one after the other into a buffer.  A
row that cannot be evaluated ends this: the rows before it are written, the
others are left as they were.
-/

namespace ImplicitDynamics

/-- What evaluating a residual leaves in the buffer, and why it stopped if it
did. -/
structure Written (α : Type) where
  out : List α
  failure : Option (EvalError α)

/-- A system `F(t, y, y') = 0`.  The last argument of `residual` is the buffer
to write to. -/
structure ResidualSystem (α : Type) where
  dimension : Nat
  residual : α → List α → List α → List α → Written α

namespace ResidualSystem

variable {α : Type}

/-- The first of a state, derivatives and a buffer whose length is not the
dimension. -/
def mismatch? (dimension : Nat) (y yp out : List α) : Option (EvalError α) :=
  [y, yp, out].findSome? fun values =>
    if values.length = dimension then none
    else some (.dimensionMismatch dimension values.length)

/-- A system given by a total function, which receives the old contents of the
buffer. -/
def ofFunction (dimension : Nat) (f : α → List α → List α → List α → List α) :
    ResidualSystem α where
  dimension := dimension
  residual t y yp out :=
    match mismatch? dimension y yp out with
    | some cause => ⟨out, some cause⟩
    | none => ⟨f t y yp out, none⟩

variable [Scalar α]

/-- `c + a₀ x₀ + a₁ x₁ + …`, added from the left. -/
def accumulate (c : α) (row x : List α) : α :=
  (row.zip x).foldl (fun total (a, value) => total + a * value) c

/-- The system `c + A y' + B y = 0`, matrices given by rows. -/
def affine (a b : List (List α)) (c : List α) : ResidualSystem α :=
  ofFunction c.length fun _ y yp _ =>
    (c.zip (a.zip b)).map fun (constant, rates, states) =>
      accumulate (accumulate constant rates yp) states y

def evaluate (system : ResidualSystem α) (t : α) (y yp : List α) :
    Except (EvalError α) (List α) :=
  let written := system.residual t y yp (List.replicate system.dimension 0)
  match written.failure with
  | none => .ok written.out
  | some cause => .error cause

end ResidualSystem

end ImplicitDynamics
