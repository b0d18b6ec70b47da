import ImplicitDynamics.Control
import ImplicitDynamics.Residual

/-!
# Finite differences of a residual

Moving one coordinate of a point and evaluating the residual again gives a
column of a Jacobian, tells which rows react to that coordinate, and tells
whether a variable is algebraic.

All evaluations of a sweep share one scratch point and one buffer.  After an
evaluation the moved coordinate gets its old value back; the buffer keeps what
was written to it.  A sweep here goes through its moves from left to right; how
several workers share them is the subject of `ImplicitDynamics.SharedSweep`.
-/

namespace ImplicitDynamics

inductive JacobianError (α : Type) where
  | evaluation (cause : EvalError α)
  | cancelled
  deriving Repr, DecidableEq

def JacobianError.message : JacobianError Float → String
  | evaluation cause => cause.message
  | cancelled => "jacobian evaluation cancelled"

/-- What is moved: a state, a derivative, or both together with the
derivative moving `weight` times as far. -/
inductive Perturbation (α : Type) where
  | state
  | derivative
  | combined (weight : α)
  deriving Repr, DecidableEq

structure Probe (α : Type) where
  system : ResidualSystem α
  time : α
  state : List α
  derivatives : List α

/-- The point and the buffer that a sweep works on. -/
structure Scratch (α : Type) where
  state : List α
  derivatives : List α
  out : List α

variable {α : Type} [Scalar α]

/-- A residual that moves less than this, per unit of perturbation, does not
depend on the coordinate. -/
def FiniteDifference.detectionThreshold : α := 1e-6

def FiniteDifference.increment (value scale : α) : α :=
  Scalar.sqrt Scalar.epsilon * Scalar.max (Scalar.abs value) scale

/-- Distance of two residual values; what rounding may explain counts as
zero. -/
def FiniteDifference.residualChange (before after : α) : α :=
  let difference := Scalar.abs (after - before)
  let noise := 16 * Scalar.epsilon * Scalar.max (Scalar.abs before) (Scalar.abs after)
  if difference ≤ noise then 0 else difference

def Scratch.move (scratch : Scratch α) (perturbation : Perturbation α) (j : Nat) (h : α) :
    Scratch α :=
  match perturbation with
  | .state => { scratch with state := scratch.state.modify j (· + h) }
  | .derivative => { scratch with derivatives := scratch.derivatives.modify j (· + h) }
  | .combined weight =>
    { scratch with
      state := scratch.state.modify j (· + h)
      derivatives := scratch.derivatives.modify j (· + weight * h) }

/-- Gives one coordinate of a scratch point the values that it has in
another. -/
def Scratch.restore (scratch saved : Scratch α) (j : Nat) : Scratch α :=
  { scratch with
    state := scratch.state.set j (saved.state.getD j 0)
    derivatives := scratch.derivatives.set j (saved.derivatives.getD j 0) }

/-- Evaluates the residual with one coordinate moved, and moves it back. -/
def Scratch.evaluate (scratch : Scratch α) (system : ResidualSystem α) (t : α)
    (perturbation : Perturbation α) (j : Nat) (h : α) :
    Option (EvalError α) × Scratch α :=
  let moved := scratch.move perturbation j h
  let written := system.residual t moved.state moved.derivatives moved.out
  (written.failure, { moved with out := written.out }.restore scratch j)

structure Move (α : Type) where
  coordinate : Nat
  distance : α

/-- Carries out moves one after the other and reads off what the residual says
about each.  `finished` of `total` moves are already done. -/
def Probe.sweep {σ β : Type} (supervisor : Supervisor σ) (probe : Probe α)
    (perturbation : Perturbation α) (readOff : Move α → List α → β)
    (finished total : Nat) (scratch : Scratch α) :
    List (Move α) → σ → Except (JacobianError α) (List β) × σ
  | [], s => (.ok [], s)
  | move :: rest, s =>
    match supervisor.proceed s with
    | (false, s) => (.error .cancelled, s)
    | (true, s) =>
      match scratch.evaluate probe.system probe.time perturbation move.coordinate
          move.distance with
      | (some cause, _) => (.error (.evaluation cause), s)
      | (none, scratch) =>
        let s := supervisor.completed (finished + 1) total s
        match
          Probe.sweep supervisor probe perturbation readOff (finished + 1) total scratch rest s
        with
        | (.ok others, s) => (.ok (readOff move scratch.out :: others), s)
        | (.error cause, s) => (.error cause, s)

namespace Probe

def scratch (probe : Probe α) (height : Nat) : Scratch α :=
  ⟨probe.state, probe.derivatives, List.replicate height 0⟩

def residual (probe : Probe α) : Except (EvalError α) (List α) :=
  probe.system.evaluate probe.time probe.state probe.derivatives

/-- The moves of all coordinates by the same distance. -/
def allMoves (probe : Probe α) (h : α) : List (Move α) :=
  (List.range probe.system.dimension).map fun j => ⟨j, h⟩

omit [Scalar α] in
@[simp] theorem length_allMoves (probe : Probe α) (h : α) :
    (probe.allMoves h).length = probe.system.dimension := by
  rw [allMoves, List.length_map, List.length_range]

/-- The column of differences that is read off a residual. -/
def quotients (base : List α) (move : Move α) (out : List α) : List α :=
  out.zipWith (fun f f0 => (f - f0) / move.distance) base

/-- Tells of each row whether it has changed. -/
def reacting (base : List α) (h : α) (after : List α) : List Bool :=
  base.zipWith (fun before after => decide (FiniteDifference.detectionThreshold * h <
    FiniteDifference.residualChange before after)) after

/-- Tells of a residual whether it has hardly changed. -/
def unmoved (base : List α) (h : α) (after : List α) : Bool :=
  decide (Scalar.sum (base.zipWith FiniteDifference.residualChange after) ≤
    FiniteDifference.detectionThreshold * h)

/-- Forward differences against `base`, the residual at the probed point.
Column `k` belongs to coordinate `columns[k]`, which moves by its entry of
`increments`. -/
def columns {σ : Type} (probe : Probe α) (supervisor : Supervisor σ) (base : List α)
    (columns : List Nat) (perturbation : Perturbation α) (increments : List α) (s : σ) :
    Except (JacobianError α) (List (List α)) × σ :=
  if base.isEmpty then (.ok (columns.map fun _ => []), s)
  else
    probe.sweep supervisor perturbation (quotients base) 0 columns.length
      (probe.scratch base.length) (columns.map fun j => ⟨j, increments.getD j 0⟩) s

/-- All columns, with the same step. -/
def square {σ : Type} (probe : Probe α) (supervisor : Supervisor σ) (base : List α)
    (perturbation : Perturbation α) (h : α) (s : σ) :
    Except (JacobianError α) (List (List α)) × σ :=
  probe.columns supervisor base (List.range base.length) perturbation
    (List.replicate base.length h) s

/-- Which rows react to each coordinate when it moves by `h`: the list for a
coordinate has one entry per row. -/
def sensitivity {σ : Type} (probe : Probe α) (supervisor : Supervisor σ)
    (perturbation : Perturbation α) (h : α) (s : σ) :
    Except (JacobianError α) (List (List Bool)) × σ :=
  match probe.residual with
  | .error cause => (.error (.evaluation cause), s)
  | .ok base =>
    let n := probe.system.dimension
    probe.sweep supervisor perturbation (fun _ => reacting base h) 0 n (probe.scratch n)
      (probe.allMoves h) s

/-- Flags coordinates whose derivative moves no row of the residual. -/
def algebraicFlags (probe : Probe α) (base : List α) (h : α) (scratch : Scratch α) :
    List Nat → Except (EvalError α) (List Bool)
  | [] => .ok []
  | j :: rest =>
    match scratch.evaluate probe.system probe.time .derivative j h with
    | (some cause, _) => .error cause
    | (none, scratch) =>
      (probe.algebraicFlags base h scratch rest).map (unmoved base h scratch.out :: ·)

/-- A variable is algebraic if moving its derivative by `h` changes the
residual, summed over its rows, by no more than the detection threshold times
`h`. -/
def classify (probe : Probe α) (h : α) : Except (EvalError α) (List Bool) :=
  match probe.residual with
  | .error cause => .error cause
  | .ok base =>
    let n := probe.system.dimension
    probe.algebraicFlags base h (probe.scratch n) (List.range n)

end Probe

end ImplicitDynamics
